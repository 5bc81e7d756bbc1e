import Jamsesh.Lease
/-!
# Lifecycle — one session on one pod: requests that acquire it and releases that evict it (`objectstore/lifecycle.go`)

Requests and releases are goroutines over a shared map, the entry's atomic fields and the lease (the machine of `Lease`), with
steps in any order: `AcquireForRequest` reads `releasing`, touches the entry and reads again; `acquireNew` leases, hydrates
and stores; a release claims its entry by a compare-and-swap, for the byte cap with a second look at the activity.
-/
namespace Jamsesh.Lifecycle

/-! ## State -/

structure Entry where
  releasing : Bool
  lastActive : Nat
deriving DecidableEq

inductive Failure where
  | context
  | orgLookup
  | lease (err : Lease.AcquireError)
  | hydrate
deriving DecidableEq

/-- Where a git request has got to.  An entry is known by the request whose lease handle it has. -/
inductive Req where
  | idle
  | loading
  | loaded (e : Nat)
  | checked (e : Nat)
  | touched (e : Nat)
  | waiting
  | looking
  | leasing
  | hydrating
  | abandoning
  | hydrated (acquiredAt : Nat)
  | beaten (e : Nat)
  | yielded (e : Nat)
  /-- the handle of the entry is returned and the request is served from the local repo -/
  | serving (e : Nat)
  | finished
  | failed (err : Failure)
deriving DecidableEq

/-- Where a release has got to: a pass of `evictIdleAndOversize` over the session, `releaseWithReason`, or `releaseClaimed`. -/
inductive Rel where
  | idle
  | passing (now : Nat)
  | sized (e now : Nat)
  | candidate (lastActive : Nat)
  | victim (e lastActive : Nat)
  | lruClaimed (e lastActive : Nat)
  /-- in `releaseWithReason`, before it loads the entry and before it claims it -/
  | claiming
  | found (e : Nat)
  | draining (e : Nat)
  | unleasing (e : Nat)
  | removing (e : Nat)
  | deleting (e : Nat)
  | done
deriving DecidableEq

/-- The session on this pod: requests, releases, entries, the session's entry of the map, its lease, and the time. -/
structure State where
  reqs : Nat → Req
  rels : Nat → Rel
  entries : Nat → Option Entry
  sessions : Option Nat
  lease : Lease.State
  now : Nat
  idleTimeout : Nat

def State.goes (s : State) (c : Nat) (q : Req) : State := { s with reqs := Function.update s.reqs c q }

def State.turns (s : State) (r : Nat) (q : Rel) : State := { s with rels := Function.update s.rels r q }

def State.put (s : State) (e : Nat) (en : Entry) : State := { s with entries := Function.update s.entries e (some en) }

/-! ## Steps -/

inductive ReqAct where
  | begin | load | check | touch | recheck | retry | cancel
  | lookup (ok : Bool) | leased | hydrate (ok : Bool) | abandoned | loadOrStore | yield | touchWinner
  | finish
deriving DecidableEq

inductive RelAct where
  | evict | look | judge | lruLoad | lruClaim | revalidate
  | lost | shutdown | find | claim
  | drained | unleased | removeAll | delete
deriving DecidableEq

/-- Whose connection a statement of the lease is for: a request of this pod, a release of this pod, or anybody else. -/
inductive Who where
  | request (c : Nat)
  | release (r : Nat)
  | others
deriving DecidableEq

inductive Act where
  | req (c : Nat) (a : ReqAct)
  | rel (r : Nat) (a : RelAct)
  | lease (who : Who) (a : Lease.Act)
  | wait (d : Nat)
deriving DecidableEq

def State.reqStep (s : State) (c : Nat) (a : ReqAct) : Option State :=
  match s.reqs c, a with
  | .idle, .begin => if s.lease.calls c = .idle then some (s.goes c .loading) else none
  | .loading, .load =>
    match s.sessions with
    | some e => some (s.goes c (.loaded e))
    | none => some (s.goes c .looking)
  | .loaded e, .check => (s.entries e).map (fun en => s.goes c (if en.releasing then .waiting else .checked e))
  | .checked e, .touch => (s.entries e).map (fun en => (s.put e { en with lastActive := s.now }).goes c (.touched e))
  | .touched e, .recheck => (s.entries e).map (fun en => s.goes c (if en.releasing then .waiting else .serving e))
  | .waiting, .retry => some (s.goes c .loading)
  | .waiting, .cancel => some (s.goes c (.failed .context))
  | .looking, .lookup ok => some (s.goes c (if ok then .leasing else .failed .orgLookup))
  | .leasing, .leased =>
    match s.lease.calls c with
    | .held _ _ _ => some (s.goes c .hydrating)
    | .failed err => some (s.goes c (.failed (.lease err)))
    | _ => none
  | .hydrating, .hydrate ok => some (s.goes c (if ok then .hydrated s.now else .abandoning))
  | .abandoning, .abandoned =>
    match s.lease.calls c with
    | .released _ _ => some (s.goes c (.failed .hydrate))
    | _ => none
  | .hydrated acquiredAt, .loadOrStore =>
    match s.sessions with
    | some e => some (s.goes c (.beaten e))
    | none => some { (s.put c ⟨false, acquiredAt⟩).goes c (.serving c) with sessions := some c }
  | .beaten e, .yield =>
    match s.lease.calls c with
    | .released _ _ => some (s.goes c (.yielded e))
    | _ => none
  | .yielded e, .touchWinner => (s.entries e).map (fun en => (s.put e { en with lastActive := s.now }).goes c (.serving e))
  | .serving _, .finish => some (s.goes c .finished)
  | _, _ => none

/-- **`evictIdleAndOversize`, `releaseWithReason` and `releaseClaimed`**.  Which candidate the byte cap makes a victim depends on
the other sessions, and any may be. -/
def State.relStep (s : State) (r : Nat) (a : RelAct) : Option State :=
  match s.rels r, a with
  | .idle, .evict => some (s.turns r (.passing s.now))
  | .passing now, .look =>
    match s.sessions with
    | some e => (s.entries e).map (fun en => s.turns r (if en.releasing then .done else .sized e now))
    | none => some (s.turns r .done)
  | .sized e now, .judge =>
    (s.entries e).map (fun en =>
      s.turns r (if now > en.lastActive + s.idleTimeout then .claiming else .candidate en.lastActive))
  | .candidate lastActive, .lruLoad =>
    match s.sessions with
    | some e => some (s.turns r (.victim e lastActive))
    | none => some (s.turns r .done)
  | .victim e lastActive, .lruClaim =>
    (s.entries e).map (fun en =>
      if en.releasing then s.turns r .done else (s.put e { en with releasing := true }).turns r (.lruClaimed e lastActive))
  | .lruClaimed e lastActive, .revalidate =>
    (s.entries e).map (fun en =>
      if en.lastActive > lastActive then (s.put e { en with releasing := false }).turns r .done else s.turns r (.draining e))
  | .idle, .lost => some (s.turns r .claiming)
  | .idle, .shutdown => some (s.turns r .claiming)
  | .claiming, .find =>
    match s.sessions with
    | some e => some (s.turns r (.found e))
    | none => some (s.turns r .done)
  | .found e, .claim =>
    (s.entries e).map (fun en =>
      if en.releasing then s.turns r .done else (s.put e { en with releasing := true }).turns r (.draining e))
  | .draining e, .drained => some (s.turns r (.unleasing e))
  | .unleasing e, .unleased =>
    match s.lease.calls e with
    | .released _ _ => some (s.turns r (.removing e))
    | _ => none
  | .removing e, .removeAll => some (s.turns r (.deleting e))
  | .deleting _, .delete => some { s.turns r .done with sessions := none }
  | _, _ => none

def acquires (i : Nat) : Lease.Act → Bool
  | .tryLock j _ _ | .issue j _ | .insert j _ | .cleanup j _ => i = j
  | _ => false

def releases (i : Nat) : Lease.Act → Bool
  | .unlock j | .mark j _ => i = j
  | _ => false

/-- Who makes a statement: a request its own; a release those of the entry's handle; others those of calls that are none of
this pod's; connections are lost by themselves. -/
def State.may (s : State) : Who → Lease.Act → Bool
  | .request c, a =>
    match s.reqs c with
    | .leasing => acquires c a
    | .abandoning | .beaten _ => releases c a
    | _ => false
  | .release r, a =>
    match s.rels r with
    | .unleasing e => releases e a
    | _ => false
  | .others, a =>
    match a with
    | .tryLock i _ _ | .issue i _ | .insert i _ | .cleanup i _ | .unlock i | .mark i _ => s.reqs i = .idle
    | .connLost _ | .elsewhere => true

def State.step (s : State) : Act → Option State
  | .req c a => s.reqStep c a
  | .rel r a => s.relStep r a
  | .lease who a => if s.may who a then (s.lease.step a).map (fun lease => { s with lease }) else none
  | .wait d => some { s with now := s.now + d }

/-- The pod does not have the session: no request has come, nothing is released, and there is no entry. -/
structure Initial (s : State) : Prop where
  reqs : ∀ c, s.reqs c = .idle
  rels : ∀ r, s.rels r = .idle
  entries : ∀ e, s.entries e = none
  sessions : s.sessions = none

def untouched : State := ⟨fun _ => .idle, fun _ => .idle, fun _ => none, none, Lease.fresh, 0, 300⟩

theorem untouched_initial : Initial untouched := ⟨fun _ => rfl, fun _ => rfl, fun _ => rfl, rfl⟩

/-! ## What a request can do -/

/-- **The transitions of a request**, with their guards. -/
inductive ReqStep (s : State) (c : Nat) : ReqAct → State → Prop where
  | begin (now : s.reqs c = .idle) (unused : s.lease.calls c = .idle) : ReqStep s c .begin (s.goes c .loading)
  | found {e} (now : s.reqs c = .loading) (hit : s.sessions = some e) : ReqStep s c .load (s.goes c (.loaded e))
  | missed (now : s.reqs c = .loading) (miss : s.sessions = none) : ReqStep s c .load (s.goes c .looking)
  | check {e en} (now : s.reqs c = .loaded e) (entry : s.entries e = some en) :
    ReqStep s c .check (s.goes c (if en.releasing then .waiting else .checked e))
  | touch {e en} (now : s.reqs c = .checked e) (entry : s.entries e = some en) :
    ReqStep s c .touch ((s.put e { en with lastActive := s.now }).goes c (.touched e))
  | backOff {e en} (now : s.reqs c = .touched e) (entry : s.entries e = some en) (claimed : en.releasing = true) :
    ReqStep s c .recheck (s.goes c .waiting)
  | serve {e en} (now : s.reqs c = .touched e) (entry : s.entries e = some en) (unclaimed : en.releasing = false) :
    ReqStep s c .recheck (s.goes c (.serving e))
  | retry (now : s.reqs c = .waiting) : ReqStep s c .retry (s.goes c .loading)
  | cancel (now : s.reqs c = .waiting) : ReqStep s c .cancel (s.goes c (.failed .context))
  | lookup {ok} (now : s.reqs c = .looking) :
    ReqStep s c (.lookup ok) (s.goes c (if ok then .leasing else .failed .orgLookup))
  | leased {podID n token} (now : s.reqs c = .leasing) (held : s.lease.calls c = .held podID n token) :
    ReqStep s c .leased (s.goes c .hydrating)
  | unleased {err} (now : s.reqs c = .leasing) (failed : s.lease.calls c = .failed err) :
    ReqStep s c .leased (s.goes c (.failed (.lease err)))
  | hydrate {ok} (now : s.reqs c = .hydrating) :
    ReqStep s c (.hydrate ok) (s.goes c (if ok then .hydrated s.now else .abandoning))
  | abandoned {n token} (now : s.reqs c = .abandoning) (released : s.lease.calls c = .released n token) :
    ReqStep s c .abandoned (s.goes c (.failed .hydrate))
  | lose {acquiredAt e} (now : s.reqs c = .hydrated acquiredAt) (hit : s.sessions = some e) :
    ReqStep s c .loadOrStore (s.goes c (.beaten e))
  | win {acquiredAt} (now : s.reqs c = .hydrated acquiredAt) (miss : s.sessions = none) :
    ReqStep s c .loadOrStore { (s.put c ⟨false, acquiredAt⟩).goes c (.serving c) with sessions := some c }
  | yield {e n token} (now : s.reqs c = .beaten e) (released : s.lease.calls c = .released n token) :
    ReqStep s c .yield (s.goes c (.yielded e))
  | touchWinner {e en} (now : s.reqs c = .yielded e) (entry : s.entries e = some en) :
    ReqStep s c .touchWinner ((s.put e { en with lastActive := s.now }).goes c (.serving e))
  | finish {e} (now : s.reqs c = .serving e) : ReqStep s c .finish (s.goes c .finished)

theorem reqStep_cases {s s' : State} {c : Nat} {a : ReqAct} (h : s.reqStep c a = some s') : ReqStep s c a s' := by
  unfold State.reqStep at h
  split at h <;> rename_i hn
  · split at h <;> cases h
    exact .begin hn ‹_›
  · split at h <;> cases h
    · exact .found hn ‹_›
    · exact .missed hn ‹_›
  · obtain ⟨_, hen, rfl⟩ := Option.map_eq_some_iff.1 h
    exact .check hn hen
  · obtain ⟨_, hen, rfl⟩ := Option.map_eq_some_iff.1 h
    exact .touch hn hen
  · obtain ⟨en, hen, rfl⟩ := Option.map_eq_some_iff.1 h
    cases hc : en.releasing with
    | true => exact .backOff hn hen hc
    | false => exact .serve hn hen hc
  · cases h
    exact .retry hn
  · cases h
    exact .cancel hn
  · cases h
    exact .lookup hn
  · split at h <;> cases h
    · exact .leased hn ‹_›
    · exact .unleased hn ‹_›
  · cases h
    exact .hydrate hn
  · split at h <;> cases h
    exact .abandoned hn ‹_›
  · split at h <;> cases h
    · exact .lose hn ‹_›
    · exact .win hn ‹_›
  · split at h <;> cases h
    exact .yield hn ‹_›
  · obtain ⟨_, hen, rfl⟩ := Option.map_eq_some_iff.1 h
    exact .touchWinner hn hen
  · cases h
    exact .finish hn
  · cases h

end Jamsesh.Lifecycle
