import Jamsesh.TokenChains
import Jamsesh.Text
/-!
# TokenUse — requests that a token authenticates (`tokens/middleware.go`, `tokens/basic.go`, `githttp/auth.go`)

One `Validate` serves the API, git and MCP for every kind of token; it looks at revocation and expiry, not at the kind.  Where
no request presents a live refresh token every request is authenticated by another kind and within its lifetime
(`authenticated_in_time`).
-/
namespace Jamsesh.TokenUse

open Machine Option
open Tokens (Row Table Turn accessTokenTTL refreshTokenTTL)

/-! ## Credentials -/

inductive Credential where
  | bearer (authorization : String)
  | basic (userPass : Option (String × String))
  | mcp (raw : String)
deriving DecidableEq

def bearerPrefix : Text := "Bearer ".toList

/-- The token that is handed to `Validate`. -/
def Credential.token : Credential → Option String
  | .bearer authorization =>
    if Text.hasPrefix authorization.toList bearerPrefix then
      some (String.ofList (authorization.toList.drop bearerPrefix.length))
    else none
  | .basic userPass => userPass.map (·.2)
  | .mcp raw => some raw

/-- Which statement of `Validate` a request is at; the row is the one it has read, `now` its reading of the clock. -/
inductive Request where
  | read (c : Credential)
  | touch (row : Row) (now : Int)
  | account (row : Row) (now : Int)
  | authenticated (row : Row) (now : Int)
  | refused
deriving DecidableEq

def Request.next (hashToken : String → String) (t : Table) (q : Request) (turn : Turn) : Option (Table × Request) :=
  match q with
  | .read c =>
    match c.token with
    | none => some (t, .refused)
    | some raw =>
      match Tokens.validate hashToken t raw turn.now with
      | .error _ => some (t, .refused)
      | .ok row => some (t, if turn.reply = .ok then .touch row turn.now else .refused)
  -- the answer of this statement is not looked at
  | .touch row now => some (if turn.reply = .failed then t else t.touchLastUsed row.id now, .account row now)
  | .account row now => some (t, if turn.reply = .ok then .authenticated row now else .refused)
  | .authenticated _ _ => none
  | .refused => none

/-! ## Runs -/

inductive Mint where
  | shortLived (accountID : String) (ttl : Int)
  /-- `IssueAnonymousSessionBearer` and `IssueAnonymousSessionBearerForExistingAccount` -/
  | anonymousSessionBearer (accountID : String) (ttl : Int)
deriving DecidableEq

def Mint.ttl : Mint → Int
  | .shortLived _ ttl | .anonymousSessionBearer _ ttl => ttl

def Mint.row (hashToken : String → String) (m : Mint) (turn : Turn) : Row :=
  match m with
  | .shortLived accountID ttl =>
    ⟨turn.newID, accountID, hashToken turn.newRaw, .access, turn.now, turn.now + ttl, none, none, turn.newID⟩
  | .anonymousSessionBearer accountID ttl =>
    ⟨turn.newID, accountID, hashToken turn.newRaw, .anonymousSessionBearer, turn.now, turn.now + ttl, none, none, turn.newID⟩

/-- The token calls and the requests; `ttl` is the lifetime with which the token of an id was asked for. -/
structure State where
  tokens : Tokens.State
  requests : List Request
  ttl : Nat → Int

inductive Act where
  | token (a : Tokens.Act)
  | mint (m : Mint) (turn : Turn)
  | ask (c : Credential)
  | go (i : Nat) (turn : Turn)
deriving DecidableEq

def State.withTable (s : State) (t : Table) : State := { s with tokens := { s.tokens with table := t } }

def State.step (hashToken : String → String) (s : State) : Act → Option State
  | .token a => (s.tokens.step hashToken a).map (fun tokens => { s with tokens })
  | .mint m turn =>
    match s.tokens.table.insert (m.row hashToken turn) with
    | none => some s
    | some t =>
      if turn.reply = .failed then some s
      else some { s.withTable t with ttl := Function.update s.ttl turn.newID m.ttl }
  | .ask c => some { s with requests := s.requests ++ [.read c] }
  | .go i turn => do
    let q ← s.requests[i]?
    let (t, q') ← q.next hashToken s.tokens.table turn
    return { s.withTable t with requests := s.requests.set i q' }

/-! ## Lifetimes -/

structure SameLife (r r' : Row) : Prop where
  id : r'.id = r.id
  kind : r'.kind = r.kind
  issuedAt : r'.issuedAt = r.issuedAt
  expiresAt : r'.expiresAt = r.expiresAt

theorem SameLife.refl (r : Row) : SameLife r r := ⟨rfl, rfl, rfl, rfl⟩

/-- **A table that has the old rows** and, if any, one new row; a new access token has the lifetime of the pairs. -/
structure Extends (t t' : Table) : Prop where
  kept : ∀ r ∈ t.rows, ∃ r' ∈ t'.rows, r'.id = r.id
  origin : ∀ r' ∈ t'.rows, (∃ r ∈ t.rows, SameLife r r') ∨
    (∀ r ∈ t.rows, r.id ≠ r'.id) ∧ (r'.kind = .refresh ∨ r'.expiresAt = r'.issuedAt + accessTokenTTL)

section
variable {hashToken : String → String} {t t' : Table}

theorem Extends.refl (t : Table) : Extends t t := ⟨fun r hr => ⟨r, hr, rfl⟩, fun r hr => .inl ⟨r, hr, .refl r⟩⟩

theorem extends_updateWhere {p : Row → Bool} {set : Row → Row} {hid hhash} (hset : ∀ r, SameLife r (set r)) :
    Extends t (t.updateWhere p set hid hhash) := by
  have hs : ∀ r, SameLife r (if p r then set r else r) := fun r => by
    split
    · exact hset r
    · exact .refl r
  refine ⟨fun r hr => ⟨_, List.mem_map.2 ⟨r, hr, rfl⟩, (hs r).id⟩, fun _ hr' => .inl ?_⟩
  obtain ⟨r, hr, rfl⟩ := List.mem_map.1 hr'
  exact ⟨r, hr, hs r⟩

theorem extends_touchLastUsed (id : Nat) (now : Int) : Extends t (t.touchLastUsed id now) :=
  extends_updateWhere fun _ => ⟨rfl, rfl, rfl, rfl⟩

theorem extends_revoke (id : Nat) (now : Int) : Extends t (t.revoke id now) :=
  extends_updateWhere fun _ => ⟨rfl, rfl, rfl, rfl⟩

theorem extends_revokeAll (accountID : String) (now : Int) : Extends t (t.revokeAll accountID now) :=
  extends_updateWhere fun _ => ⟨rfl, rfl, rfl, rfl⟩

theorem extends_run {r : Tokens.Reply} {p : Tokens.Phase} (h : Extends t t') : Extends t (r.run t t' p).1 := by
  cases r with
  | ok | lost => exact h
  | failed => exact .refl t

theorem extends_create {r : Tokens.Reply} {row : Row} {p : Tokens.Phase}
    (hrow : row.kind = .refresh ∨ row.expiresAt = row.issuedAt + accessTokenTTL) : Extends t (r.create t row p).1 := by
  unfold Tokens.Reply.create
  cases hi : t.insert row with
  | none => exact .refl t
  | some =>
    have hm := Table.mem_insert hi
    refine extends_run ⟨fun r hr => ⟨r, (hm r).2 (.inl hr), rfl⟩, fun r' hr' => ?_⟩
    rcases (hm r').1 hr' with ho | rfl
    · exact .inl ⟨r', ho, .refl r'⟩
    · exact .inr ⟨Table.insert_fresh hi, hrow⟩

theorem extends_next {p p' : Tokens.Phase} {turn : Turn} (h : p.next hashToken t turn = some (t', p')) : Extends t t' := by
  have hfst : ∀ {x : Table × Tokens.Phase}, some x = some (t', p') → Extends t x.1 → Extends t t' := by
    rintro x ⟨⟩ hx
    exact hx
  cases p with
  | validate =>
    simp only [Tokens.Phase.next] at h
    split at h
    · exact hfst h (.refl t)
    refine hfst h ?_
    split
    · exact extends_run (.refl t)
    · exact extends_run (.refl t)
  | touch _ row =>
    refine hfst h ?_
    dsimp only
    split
    · exact .refl t
    · exact extends_touchLastUsed row.id turn.now
  | account => exact hfst h (extends_run (.refl t))
  | refetch =>
    refine hfst h ?_
    split
    · exact .refl t
    · split
      · exact extends_run (.refl t)
      · exact extends_run (.refl t)
  | consume _ _ row => exact hfst h (extends_run (extends_revoke row.id turn.now))
  | access => exact hfst h (extends_create (.inr rfl))
  | refresh => exact hfst h (extends_create (.inl rfl))
  | lookup =>
    refine hfst h ?_
    split
    · exact extends_run (.refl t)
    · split
      · exact extends_run (.refl t)
      · exact extends_run (.refl t)
  | revokeOne id => exact hfst h (extends_run (extends_revoke id turn.now))
  | revokeAll accountID => exact hfst h (extends_run (extends_revokeAll accountID turn.now))
  | done => cases h

theorem validate_eq_ok {raw : String} {now : Int} {row : Row} (h : Tokens.validate hashToken t raw now = .ok row) :
    t.getByHash (hashToken raw) = some row ∧ row.revokedAt = none ∧ now ≤ row.expiresAt := by
  unfold Tokens.validate at h
  split at h
  · cases h
  obtain ⟨hr, hl⟩ := Tokens.check_eq_ok h
  refine ⟨hr, hl, ?_⟩
  rw [hr] at h
  unfold Tokens.check at h
  simp only [hl, isSome_none, Bool.false_eq_true, if_false] at h
  split at h
  · cases h
  · rename_i he
    exact Int.not_lt.1 he

end

/-! ## The requests of a run -/

def Request.passed : Request → Option (Row × Int)
  | .touch row now | .account row now | .authenticated row now => some (row, now)
  | .read _ | .refused => none

/-- **Every token but a refresh token lives as long as was asked for**, and every request that has passed was in time. -/
structure Lifetimes (s : State) : Prop where
  rows : ∀ r ∈ s.tokens.table.rows, r.kind ≠ .refresh → r.expiresAt = r.issuedAt + s.ttl r.id
  fresh : ∀ id, (∀ r ∈ s.tokens.table.rows, r.id ≠ id) → s.ttl id = accessTokenTTL
  passed : ∀ q ∈ s.requests, ∀ row now, q.passed = some (row, now) →
    (∃ r ∈ s.tokens.table.rows, r.id = row.id) ∧ row.kind ≠ .refresh ∧ now ≤ row.issuedAt + s.ttl row.id

structure Initial (s : State) : Prop where
  rows : ∀ r ∈ s.tokens.table.rows, r.kind ≠ .refresh → r.expiresAt = r.issuedAt + s.ttl r.id
  fresh : ∀ id, (∀ r ∈ s.tokens.table.rows, r.id ≠ id) → s.ttl id = accessTokenTTL
  requests : s.requests = []

/-- The row of the token that an action looks up for a request, and the reading of the clock it is compared with. -/
def State.presented (hashToken : String → String) (s : State) : Act → Option (Row × Int)
  | .go i turn => do
    match ← s.requests[i]? with
    | .read c =>
      let raw ← c.token
      let row ← s.tokens.table.getByHash (hashToken raw)
      return (row, turn.now)
    | _ => none
  | _ => none

/-- **No request presents a refresh token** that is neither revoked nor expired. -/
def NoRefreshToken (hashToken : String → String) (s : State) (a : Act) : Prop :=
  ∀ x ∈ s.presented hashToken a, x.1.kind = .refresh → x.1.revokedAt.isSome ∨ x.1.expiresAt < x.2

instance (hashToken : String → String) (s : State) (a : Act) : Decidable (NoRefreshToken hashToken s a) :=
  inferInstanceAs (Decidable (∀ x ∈ s.presented hashToken a, x.1.kind = .refresh → x.1.revokedAt.isSome ∨ x.1.expiresAt < x.2))

variable {hashToken : String → String} {s s' : State}

theorem Lifetimes.of_extends (h : Lifetimes s) (he : Extends s.tokens.table s'.tokens.table) (ht : s'.ttl = s.ttl)
    (hreq : s'.requests = s.requests) : Lifetimes s' := by
  refine ⟨fun r' hr' hk => ?_, fun id hid => ?_, fun q hq row now hp => ?_⟩
  · rw [ht]
    rcases he.origin r' hr' with ⟨r, hr, hs⟩ | ⟨hn, hl⟩
    · rw [hs.expiresAt, hs.issuedAt, hs.id]
      exact h.rows r hr (by rw [← hs.kind]; exact hk)
    · rw [h.fresh r'.id hn]
      exact hl.resolve_left hk
  · rw [ht]
    refine h.fresh id fun r hr hrid => ?_
    obtain ⟨r', hr', hi'⟩ := he.kept r hr
    exact hid r' hr' (hi'.trans hrid)
  · rw [hreq] at hq
    obtain ⟨⟨r, hr, hrid⟩, hk, hnow⟩ := h.passed q hq row now hp
    obtain ⟨r', hr', hi'⟩ := he.kept r hr
    rw [ht]
    exact ⟨⟨r', hr', hi'.trans hrid⟩, hk, hnow⟩

theorem Lifetimes.mint (h : Lifetimes s) {m : Mint} {turn : Turn} {t : Table}
    (hi : s.tokens.table.insert (m.row hashToken turn) = some t) :
    Lifetimes { s.withTable t with ttl := Function.update s.ttl turn.newID m.ttl } := by
  have hid : (m.row hashToken turn).id = turn.newID := by cases m <;> rfl
  have hl : (m.row hashToken turn).expiresAt = (m.row hashToken turn).issuedAt + m.ttl := by cases m <;> rfl
  have hm := Table.mem_insert hi
  have hne : ∀ r ∈ s.tokens.table.rows, r.id ≠ turn.newID := hid ▸ Table.insert_fresh hi
  refine ⟨fun r hr hk => ?_, fun id hn => ?_, fun q hq row now hp => ?_⟩
  · rcases (hm r).1 hr with hr | rfl
    · simp only [Function.update_of_ne (hne r hr)]
      exact h.rows r hr hk
    · rw [hl, hid]
      simp only [Function.update_self]
  · have hnew : id ≠ turn.newID := fun hi' => hn _ ((hm _).2 (.inr rfl)) (hid.trans hi'.symm)
    simp only [Function.update_of_ne hnew]
    exact h.fresh id fun r hr => hn r ((hm r).2 (.inl hr))
  · obtain ⟨⟨r, hr, hrid⟩, hk, hnow⟩ := h.passed q hq row now hp
    refine ⟨⟨r, (hm r).2 (.inl hr), hrid⟩, hk, ?_⟩
    simp only [Function.update_of_ne (hrid ▸ hne r hr)]
    exact hnow

theorem Lifetimes.request (h : Lifetimes s) {i : Nat} {turn : Turn} {q q' : Request} {t : Table}
    (hq : s.requests[i]? = some q) (hok : NoRefreshToken hashToken s (.go i turn))
    (hn : q.next hashToken s.tokens.table turn = some (t, q')) :
    Extends s.tokens.table t ∧ ∀ row now, q'.passed = some (row, now) →
      (∃ r ∈ s.tokens.table.rows, r.id = row.id) ∧ row.kind ≠ .refresh ∧ now ≤ row.issuedAt + s.ttl row.id := by
  have hmem := List.mem_of_getElem? hq
  cases q with
  | read c =>
    unfold Request.next at hn
    cases ht : c.token with
    | none =>
      simp only [ht] at hn
      cases hn
      exact ⟨.refl _, fun _ _ hp => by cases hp⟩
    | some raw =>
      cases hv : Tokens.validate hashToken s.tokens.table raw turn.now with
      | error =>
        simp only [ht, hv] at hn
        cases hn
        exact ⟨.refl _, fun _ _ hp => by cases hp⟩
      | ok row =>
        simp only [ht, hv] at hn
        cases hn
        refine ⟨.refl _, fun _ now hp => ?_⟩
        split at hp <;> cases hp
        obtain ⟨hread, hl, he⟩ := validate_eq_ok hv
        have hrow := (Table.getByHash_eq_some hread).1
        have hkind : row.kind ≠ .refresh := fun hr => by
          rcases hok (row, turn.now) (by simp [State.presented, hq, ht, hread]) hr with hrev | hlate
          · simp [hl] at hrev
          · exact Int.not_lt.2 he hlate
        exact ⟨⟨row, hrow, rfl⟩, hkind, h.rows row hrow hkind ▸ he⟩
  | touch row now =>
    cases hn
    refine ⟨?_, h.passed (.touch row now) hmem⟩
    split
    · exact .refl _
    · exact extends_touchLastUsed row.id now
  | account =>
    cases hn
    refine ⟨.refl _, fun row' now' hp => ?_⟩
    split at hp
    · exact h.passed _ hmem row' now' hp
    · cases hp
  | authenticated | refused => cases hn

theorem Lifetimes.step (h : Lifetimes s) {a : Act} (hok : NoRefreshToken hashToken s a)
    (hs : s.step hashToken a = some s') : Lifetimes s' := by
  cases a with
  | token a =>
    obtain ⟨_, ht, rfl⟩ := map_eq_some_iff.1 hs
    refine h.of_extends ?_ rfl rfl
    cases a with
    | start =>
      cases ht
      exact .refl _
    | go =>
      simp only [Tokens.State.step, bind_eq_bind, bind_eq_some_iff] at ht
      obtain ⟨p, -, ⟨t, _⟩, hn, ht⟩ := ht
      cases ht
      exact extends_next hn
  | mint m turn =>
    unfold State.step at hs
    cases hi : s.tokens.table.insert (m.row hashToken turn) with
    | none =>
      simp only [hi] at hs
      cases hs
      exact h
    | some =>
      simp only [hi] at hs
      split at hs
      · cases hs
        exact h
      · cases hs
        exact h.mint hi
  | ask =>
    cases hs
    refine ⟨h.rows, h.fresh, fun q hq row now hp => ?_⟩
    rcases List.mem_append.1 hq with hq | hq
    · exact h.passed q hq row now hp
    · cases List.mem_singleton.1 hq
      cases hp
  | go =>
    obtain ⟨q, hq, hs⟩ := bind_eq_some_iff.1 hs
    obtain ⟨⟨t, _⟩, hn, hs⟩ := bind_eq_some_iff.1 hs
    cases hs
    obtain ⟨he, hpassed⟩ := h.request hq hok hn
    have hmid : Lifetimes (s.withTable t) := h.of_extends he rfl rfl
    refine ⟨hmid.rows, hmid.fresh, fun q₁ hq₁ row now hp => ?_⟩
    rcases List.mem_or_eq_of_mem_set hq₁ with ho | rfl
    · exact hmid.passed q₁ ho row now hp
    · obtain ⟨⟨r, hr, hrid⟩, hk, hnow⟩ := hpassed row now hp
      obtain ⟨r', hr', hi'⟩ := he.kept r hr
      exact ⟨⟨r', hr', hi'.trans hrid⟩, hk, hnow⟩

def Authenticated (s : State) (row : Row) (now : Int) : Prop := Request.authenticated row now ∈ s.requests

instance (s : State) (row : Row) (now : Int) : Decidable (Authenticated s row now) :=
  inferInstanceAs (Decidable (Request.authenticated row now ∈ s.requests))

/-- **Where no request presents a live refresh token**, none is authenticated by one, or later than the lifetime of its token.
-/
theorem authenticated_in_time {as : List Act} (hinit : Initial s)
    (hok : Along (State.step hashToken) (NoRefreshToken hashToken) s as)
    (hrun : exec (State.step hashToken) s as = some s') {row : Row} {now : Int} (hauth : Authenticated s' row now) :
    row.kind ≠ .refresh ∧ now ≤ row.issuedAt + s'.ttl row.id := by
  have hs : Lifetimes s := ⟨hinit.rows, hinit.fresh, fun q hq => by rw [hinit.requests] at hq; cases hq⟩
  have he : Lifetimes s' := invariant (fun _ _ _ h hok hstep => h.step hok hstep) hs hok hrun
  exact (he.passed _ hauth row now rfl).2

def signedIn : State := ⟨Tokens.loggedIn, [], fun _ => accessTokenTTL⟩

theorem signedIn_initial : Initial signedIn := ⟨by decide, fun _ _ => rfl, rfl⟩

def asks (i : Nat) (now : Int) : List Act := List.replicate 3 (.go i ⟨.ok, now, 0, ""⟩)

def playgroundVisit : List Act :=
  [.mint (.anonymousSessionBearer "anon" 10) ⟨.ok, 0, 2, "b"⟩, .ask (.bearer "Bearer b")] ++ asks 0 10

theorem authenticated_in_time_playground : ∃ s row, exec (State.step id) signedIn playgroundVisit = some s ∧
    Authenticated s row 10 ∧ row.kind ≠ .refresh ∧ 10 ≤ row.issuedAt + s.ttl row.id := by
  have hok : Along (State.step id) (NoRefreshToken id) signedIn playgroundVisit := by decide
  refine ⟨_, ⟨2, "anon", "b", .anonymousSessionBearer, 0, 10, none, none, 2⟩, rfl, by decide, ?_⟩
  exact authenticated_in_time signedIn_initial hok rfl (by decide)

def gitVisit : List Act := [.ask (.basic (some ("git", "r")))] ++ asks 0 (2 * accessTokenTTL)

/-- **A refresh token authenticates git and API requests** long after the access token issued with it has expired. -/
theorem refresh_token_authenticates : Initial signedIn ∧ ∃ s row, exec (State.step id) signedIn gitVisit = some s ∧
    Authenticated s row (2 * accessTokenTTL) ∧ row.kind = .refresh ∧ ¬ 2 * accessTokenTTL ≤ row.issuedAt + s.ttl row.id :=
  ⟨signedIn_initial, _, ⟨1, "ada", "r", .refresh, 0, refreshTokenTTL, none, none, 1⟩, rfl, by decide, rfl, by decide⟩

end Jamsesh.TokenUse
