import Jamsesh.Machine
import Jamsesh.Text
/-!
# Lease — the lease of one session, taken and given back by any number of pods (`lease/postgres.go`, `leases.sql`)

`Acquire` is three statements and `Release` two, and those of different calls come in any order.  The advisory lock belongs to
one call's connection, the token and the row are written over others:
- a `Release` marks the row after it has given up the lock, whoever has written the row since (`row_matches`);
- a token is issued after the lock was obtained, also when it has been lost in between (`tokens_increase`).
-/
namespace Jamsesh.Lease

open Machine
open Function (update update_apply update_self update_of_ne)

/-! ## Calls and statements -/

/-- The session's row of `leases`; `released` is that `released_at` is not NULL. -/
structure Row where
  podID : Text
  fencingToken : Nat
  released : Bool
deriving DecidableEq

inductive AcquireError where
  | alreadyHeld
  | tryLock
  | issueToken
  | upsertRow
deriving DecidableEq

/-- Where a call of `Acquire`, and then the handle it returns, has got to.  A call that gets the lock is numbered: `n` is the
number of locks obtained before. -/
inductive Call where
  | idle
  | locked (podID : Text) (n : Nat)
  | issued (podID : Text) (n token : Nat)
  | failing (err : AcquireError) (n : Nat)
  | failed (err : AcquireError)
  | held (podID : Text) (n token : Nat)
  | unlocked (n token : Nat)
  | released (n token : Nat)
deriving DecidableEq

/-- The session: the calls, the call whose connection has the advisory lock, the number of locks obtained so far, the sequence
of tokens, and the row. -/
structure State where
  calls : Nat → Call
  holder : Option Nat
  locks : Nat
  nextToken : Nat
  row : Option Row

/-- What becomes of a statement over the pool: a context that is cancelled also loses the answer of one that is carried out. -/
inductive Outcome where
  | done
  | lost
  | failed
deriving DecidableEq

/-- The statements, each with whether it is carried out, the loss of a connection, and a token for another session.  A lost
answer shows for the row only: a token is then one that `elsewhere` draws, and nobody reads the answer of an unlock or a mark. -/
inductive Act where
  | tryLock (i : Nat) (podID : Text) (ok : Bool)
  | issue (i : Nat) (ok : Bool)
  | insert (i : Nat) (outcome : Outcome)
  /-- the unlock of a call that fails; where that fails too the lock stays with the connection in the pool -/
  | cleanup (i : Nat) (ok : Bool)
  | unlock (i : Nat)
  | mark (i : Nat) (ok : Bool)
  | connLost (i : Nat)
  | elsewhere
deriving DecidableEq

def State.set (s : State) (i : Nat) (c : Call) : State := { s with calls := update s.calls i c }

def State.free (s : State) (i : Nat) : State := if s.holder = some i then { s with holder := none } else s

/-- `UPDATE leases SET released_at = now() WHERE session_id = $1` -/
def State.markReleased (s : State) : State := { s with row := s.row.map (fun r => { r with released := true }) }

def State.step (s : State) : Act → Option State
  | .tryLock i podID ok =>
    match s.calls i with
    | .idle =>
      if !ok then some (s.set i (.failed .tryLock))
      else if s.holder.isSome then some (s.set i (.failed .alreadyHeld))
      else some { s.set i (.locked podID s.locks) with holder := some i, locks := s.locks + 1 }
    | _ => none
  | .issue i ok =>
    match s.calls i with
    | .locked podID n =>
      if ok then some { s.set i (.issued podID n s.nextToken) with nextToken := s.nextToken + 1 }
      else some (s.set i (.failing .issueToken n))
    | _ => none
  | .insert i outcome =>
    match s.calls i, outcome with
    | .issued podID n token, .done => some { s.set i (.held podID n token) with row := some ⟨podID, token, false⟩ }
    | .issued podID n token, .lost => some { s.set i (.failing .upsertRow n) with row := some ⟨podID, token, false⟩ }
    | .issued _ n _, .failed => some (s.set i (.failing .upsertRow n))
    | _, _ => none
  | .cleanup i ok =>
    match s.calls i with
    | .failing err _ => some (if ok then (s.set i (.failed err)).free i else s.set i (.failed err))
    | _ => none
  | .unlock i =>
    match s.calls i with
    | .held _ n token => some ((s.set i (.unlocked n token)).free i)
    | _ => none
  | .mark i ok =>
    match s.calls i with
    | .unlocked n token => some (if ok then (s.set i (.released n token)).markReleased else s.set i (.released n token))
    | _ => none
  | .connLost i => if s.holder = some i then some (s.free i) else none
  | .elsewhere => some { s with nextToken := s.nextToken + 1 }

/-- No call has begun, nobody holds the lock, and the row, if there is one, is of a lease that was released. -/
structure Initial (s : State) : Prop where
  idle : ∀ i, s.calls i = .idle
  unheld : s.holder = none
  row : ∀ r, s.row = some r → r.released = true

/-! ## What a statement can do -/

inductive Step (s : State) : Act → State → Prop where
  | tryLockFails {i podID} (idle : s.calls i = .idle) : Step s (.tryLock i podID false) (s.set i (.failed .tryLock))
  | conflict {i podID} (idle : s.calls i = .idle) (taken : s.holder ≠ none) :
    Step s (.tryLock i podID true) (s.set i (.failed .alreadyHeld))
  | lock {i podID} (idle : s.calls i = .idle) (unheld : s.holder = none) :
    Step s (.tryLock i podID true) { s.set i (.locked podID s.locks) with holder := some i, locks := s.locks + 1 }
  | issue {i podID n} (locked : s.calls i = .locked podID n) :
    Step s (.issue i true) { s.set i (.issued podID n s.nextToken) with nextToken := s.nextToken + 1 }
  | issueFails {i podID n} (locked : s.calls i = .locked podID n) : Step s (.issue i false) (s.set i (.failing .issueToken n))
  | insert {i podID n token} (issued : s.calls i = .issued podID n token) :
    Step s (.insert i .done) { s.set i (.held podID n token) with row := some ⟨podID, token, false⟩ }
  | insertLost {i podID n token} (issued : s.calls i = .issued podID n token) :
    Step s (.insert i .lost) { s.set i (.failing .upsertRow n) with row := some ⟨podID, token, false⟩ }
  | insertFails {i podID n token} (issued : s.calls i = .issued podID n token) :
    Step s (.insert i .failed) (s.set i (.failing .upsertRow n))
  | cleanup {i err n} (failing : s.calls i = .failing err n) : Step s (.cleanup i true) ((s.set i (.failed err)).free i)
  | leak {i err n} (failing : s.calls i = .failing err n) : Step s (.cleanup i false) (s.set i (.failed err))
  | unlock {i podID n token} (held : s.calls i = .held podID n token) : Step s (.unlock i) ((s.set i (.unlocked n token)).free i)
  | mark {i n token} (unlocked : s.calls i = .unlocked n token) : Step s (.mark i true) (s.set i (.released n token)).markReleased
  | markFails {i n token} (unlocked : s.calls i = .unlocked n token) : Step s (.mark i false) (s.set i (.released n token))
  | connLost {i} (holder : s.holder = some i) : Step s (.connLost i) (s.free i)
  | elsewhere : Step s .elsewhere { s with nextToken := s.nextToken + 1 }

theorem step_cases {s s' : State} {a : Act} (h : s.step a = some s') : Step s a s' := by
  cases a with simp only [State.step] at h
  | tryLock i _ ok =>
    split at h
    · rename_i hidle
      cases ok with
      | false =>
        cases h
        exact .tryLockFails hidle
      | true =>
        by_cases hh : s.holder = none
        · simp only [hh, Bool.not_true, Bool.false_eq_true, Option.isSome_none, if_false, Option.some.injEq] at h
          subst h
          exact .lock hidle hh
        have hsome : s.holder.isSome = true := Option.isSome_iff_ne_none.2 hh
        simp only [hsome, Bool.not_true, Bool.false_eq_true, if_false, if_true, Option.some.injEq] at h
        subst h
        exact .conflict hidle hh
    · cases h
  | issue i ok =>
    split at h
    · rename_i hl
      cases ok <;> cases h
      · exact .issueFails hl
      · exact .issue hl
    · cases h
  | insert =>
    split at h <;> cases h
    · exact .insert ‹_›
    · exact .insertLost ‹_›
    · exact .insertFails ‹_›
  | cleanup i ok =>
    split at h
    · rename_i hf
      cases ok <;> cases h
      · exact .leak hf
      · exact .cleanup hf
    · cases h
  | unlock =>
    split at h <;> cases h
    rename_i hh
    exact .unlock hh
  | mark i ok =>
    split at h
    · rename_i hu
      cases ok <;> cases h
      · exact .markFails hu
      · exact .mark hu
    · cases h
  | connLost =>
    split at h <;> cases h
    rename_i hholder
    exact .connLost hholder
  | elsewhere =>
    cases h
    exact .elsewhere

/-! ### Reading a state -/

section
variable {s : State} {i j : Nat} {c : Call}

@[simp] theorem set_row : (s.set i c).row = s.row := rfl
theorem set_calls : (s.set i c).calls = update s.calls i c := rfl

@[simp] theorem free_calls : (s.free i).calls = s.calls := by
  unfold State.free
  split <;> rfl

@[simp] theorem free_locks : (s.free i).locks = s.locks := by
  unfold State.free
  split <;> rfl

@[simp] theorem free_nextToken : (s.free i).nextToken = s.nextToken := by
  unfold State.free
  split <;> rfl

@[simp] theorem free_row : (s.free i).row = s.row := by
  unfold State.free
  split <;> rfl

theorem holder_free : (s.free i).holder = some j ↔ s.holder = some j ∧ j ≠ i := by
  unfold State.free
  split
  · rename_i h
    simp only [reduceCtorEq, h, Option.some.injEq, false_iff, not_and, not_not]
    exact Eq.symm
  rename_i h
  refine ⟨fun hj => ⟨hj, ?_⟩, And.left⟩
  rintro rfl
  exact h hj

end

/-! ## Numbers and tokens -/

def Call.number : Call → Option Nat
  | .locked _ n | .issued _ n _ | .failing _ n | .held _ n _ | .unlocked n _ | .released n _ => some n
  | .idle | .failed _ => none

def Call.stamp : Call → Option (Nat × Nat)
  | .issued _ n token | .held _ n token | .unlocked n token | .released n token => some (n, token)
  | .idle | .locked _ _ | .failing _ _ | .failed _ => none

/-- **Locks are numbered and tokens are drawn once**; the connection that has the lock obtained it last. -/
structure Stamped (s : State) : Prop where
  number_lt : ∀ i n, (s.calls i).number = some n → n < s.locks
  number_inj : ∀ i j n, (s.calls i).number = some n → (s.calls j).number = some n → i = j
  latest : ∀ i n, s.holder = some i → (s.calls i).number = some n → n + 1 = s.locks
  token_lt : ∀ i n t, (s.calls i).stamp = some (n, t) → t < s.nextToken
  token_inj : ∀ i j n m t, (s.calls i).stamp = some (n, t) → (s.calls j).stamp = some (m, t) → i = j

structure Below (s' s : State) : Prop where
  number : ∀ i n, (s'.calls i).number = some n → (s.calls i).number = some n
  stamp : ∀ i x, (s'.calls i).stamp = some x → (s.calls i).stamp = some x
  holder : ∀ i, s'.holder = some i → s.holder = some i
  locks : s'.locks = s.locks
  nextToken : s.nextToken ≤ s'.nextToken

section
variable {s s' : State} {a : Act}

theorem update_some {α : Type} {f : Call → Option α} {i j : Nat} {c : Call} {x : α}
    (h : f (update s.calls i c j) = some x) : (j = i ∧ f c = some x) ∨ (j ≠ i ∧ f (s.calls j) = some x) := by
  rw [update_apply] at h
  split at h
  · exact .inl ⟨‹_›, h⟩
  · exact .inr ⟨‹_›, h⟩

theorem stamp_of_locked {i j n : Nat} {podID : Text} {x : Nat × Nat} (h : (update s.calls i (.locked podID n) j).stamp = some x) :
    (s.calls j).stamp = some x := by
  obtain ⟨-, h⟩ | ⟨-, h⟩ := update_some h
  · cases h
  · exact h

theorem Below.of_set {i : Nat} {c : Call} (hn : c.number = none ∨ c.number = (s.calls i).number)
    (hs : c.stamp = none ∨ c.stamp = (s.calls i).stamp) : Below (s.set i c) s where
  number j n hj := by
    obtain ⟨rfl, hc⟩ | ⟨-, ho⟩ := update_some hj
    · rcases hn with h | h
      · rw [h] at hc
        cases hc
      · rwa [← h]
    · exact ho
  stamp j x hj := by
    obtain ⟨rfl, hc⟩ | ⟨-, ho⟩ := update_some hj
    · rcases hs with h | h
      · rw [h] at hc
        cases hc
      · rwa [← h]
    · exact ho
  holder _ hj := hj
  locks := rfl
  nextToken := Nat.le_refl _

theorem Below.free {i : Nat} (h : Below s' s) : Below (s'.free i) s where
  number j n hj := h.number j n (by rwa [free_calls] at hj)
  stamp j x hj := h.stamp j x (by rwa [free_calls] at hj)
  holder j hj := h.holder j (holder_free.1 hj).1
  locks := by rw [free_locks, h.locks]
  nextToken := by
    rw [free_nextToken]
    exact h.nextToken

theorem Step.below (h : Step s a s') : Below s' s ∨ (∃ i podID, s.calls i = .idle ∧ s.holder = none ∧
      s' = { s.set i (.locked podID s.locks) with holder := some i, locks := s.locks + 1 }) ∨
    ∃ i podID n, a = .issue i true ∧ s.calls i = .locked podID n ∧
      s' = { s.set i (.issued podID n s.nextToken) with nextToken := s.nextToken + 1 } := by
  cases h with
  | tryLockFails | conflict | leak => exact .inl (.of_set (.inl rfl) (.inl rfl))
  | lock hidle hunheld => exact .inr (.inl ⟨_, _, hidle, hunheld, rfl⟩)
  | issue hl => exact .inr (.inr ⟨_, _, _, rfl, hl, rfl⟩)
  | issueFails hl | insertFails hl => exact .inl (.of_set (.inr (by rw [hl]; rfl)) (.inl rfl))
  | @insert i podID n token hi =>
    have hb : Below (s.set i (.held podID n token)) s := .of_set (.inr (by rw [hi]; rfl)) (.inr (by rw [hi]; rfl))
    exact .inl ⟨hb.number, hb.stamp, hb.holder, rfl, Nat.le_refl _⟩
  | @insertLost i podID n token hi =>
    have hb : Below (s.set i (.failing .upsertRow n)) s := .of_set (.inr (by rw [hi]; rfl)) (.inl rfl)
    exact .inl ⟨hb.number, hb.stamp, hb.holder, rfl, Nat.le_refl _⟩
  | cleanup => exact .inl (Below.of_set (.inl rfl) (.inl rfl)).free
  | unlock hh => exact .inl (Below.of_set (.inr (by rw [hh]; rfl)) (.inr (by rw [hh]; rfl))).free
  | @mark i n token hu =>
    have hb : Below (s.set i (.released n token)) s := .of_set (.inr (by rw [hu]; rfl)) (.inr (by rw [hu]; rfl))
    exact .inl ⟨hb.number, hb.stamp, hb.holder, rfl, Nat.le_refl _⟩
  | markFails hu => exact .inl (.of_set (.inr (by rw [hu]; rfl)) (.inr (by rw [hu]; rfl)))
  | connLost => exact .inl (Below.free ⟨fun _ _ h => h, fun _ _ h => h, fun _ h => h, rfl, Nat.le_refl _⟩)
  | elsewhere => exact .inl ⟨fun _ _ h => h, fun _ _ h => h, fun _ h => h, rfl, Nat.le_succ _⟩

theorem Initial.stamped (h : Initial s) : Stamped s := by
  have hn : ∀ i, (s.calls i).number = none := fun i => by rw [h.idle i]; rfl
  have hs : ∀ i, (s.calls i).stamp = none := fun i => by rw [h.idle i]; rfl
  constructor <;> simp [hn, hs]

theorem Stamped.below (h : Stamped s) (hs : Below s' s) : Stamped s' where
  number_lt i n hi := by
    rw [hs.locks]
    exact h.number_lt i n (hs.number i n hi)
  number_inj i j n hi hj := h.number_inj i j n (hs.number i n hi) (hs.number j n hj)
  latest i n hi hn := by
    rw [hs.locks]
    exact h.latest i n (hs.holder i hi) (hs.number i n hn)
  token_lt i n t hi := Nat.lt_of_lt_of_le (h.token_lt i n t (hs.stamp i _ hi)) hs.nextToken
  token_inj i j n m t hi hj := h.token_inj i j n m t (hs.stamp i _ hi) (hs.stamp j _ hj)

theorem Stamped.step (h : Stamped s) (hstep : Step s a s') : Stamped s' := by
  obtain hs | ⟨i, podID, _, -, rfl⟩ | ⟨i, podID, n, -, hl, rfl⟩ := hstep.below
  · exact h.below hs
  · -- the new lock has the next number
    refine ⟨fun j n hj => ?_, fun j k n hj hk => ?_, fun j n hj hn => ?_, fun j n t hj => ?_, fun j k n m t hj hk => ?_⟩
    · obtain ⟨-, ⟨⟩⟩ | ⟨-, hj⟩ := update_some hj
      · exact Nat.lt_succ_self _
      · exact Nat.lt_succ_of_lt (h.number_lt j n hj)
    · obtain ⟨hji, ⟨⟩⟩ | ⟨-, hj⟩ := update_some hj <;> obtain ⟨hki, hk⟩ | ⟨-, hk⟩ := update_some hk
      · rw [hji, hki]
      · exact absurd (h.number_lt k _ hk) (Nat.lt_irrefl _)
      · cases hk
        exact absurd (h.number_lt j _ hj) (Nat.lt_irrefl _)
      · exact h.number_inj j k n hj hk
    · cases hj
      obtain ⟨-, ⟨⟩⟩ | ⟨hne, -⟩ := update_some hn
      · rfl
      · exact absurd rfl hne
    · exact h.token_lt j n t (stamp_of_locked hj)
    · exact h.token_inj j k n m t (stamp_of_locked hj) (stamp_of_locked hk)
  · -- the new token is larger than all before
    have hc : ∀ j m, (update s.calls i (.issued podID n s.nextToken) j).number = some m → (s.calls j).number = some m := by
      intro j m hj
      obtain ⟨rfl, hj⟩ | ⟨-, hj⟩ := update_some hj
      · rwa [hl]
      · exact hj
    refine ⟨fun j m hj => h.number_lt j m (hc j m hj), fun j k m hj hk => h.number_inj j k m (hc j m hj) (hc k m hk),
      fun j m hj hm => h.latest j m hj (hc j m hm), fun j m t hj => ?_, fun j k m m' t hj hk => ?_⟩
    · obtain ⟨-, ⟨⟩⟩ | ⟨-, hj⟩ := update_some hj
      · exact Nat.lt_succ_self _
      · exact Nat.lt_succ_of_lt (h.token_lt j m t hj)
    · obtain ⟨hji, ⟨⟩⟩ | ⟨-, hj⟩ := update_some hj <;> obtain ⟨hki, hk⟩ | ⟨-, hk⟩ := update_some hk
      · rw [hji, hki]
      · exact absurd (h.token_lt k m' _ hk) (Nat.lt_irrefl _)
      · cases hk
        exact absurd (h.token_lt j m _ hj) (Nat.lt_irrefl _)
      · exact h.token_inj j k m m' t hj hk

end

/-! ## The tokens of handles -/

/-- What a returned handle carries: the number of its lock and its fencing token. -/
def Call.returned : Call → Option (Nat × Nat)
  | .held _ n token | .unlocked n token | .released n token => some (n, token)
  | _ => none

theorem Call.stamp_of_returned {c : Call} {x : Nat × Nat} (h : c.returned = some x) : c.stamp = some x := by
  cases c <;> first | exact h | cases h

theorem Call.number_of_stamp {c : Call} {n t : Nat} (h : c.stamp = some (n, t)) : c.number = some n := by
  cases c <;> cases h <;> rfl

def IssuesHeld (s : State) : Act → Prop
  | .issue i true => s.holder = some i
  | _ => True

instance (s : State) (a : Act) : Decidable (IssuesHeld s a) := by
  unfold IssuesHeld
  split <;> infer_instance

structure Increasing (s : State) : Prop extends Stamped s where
  increasing : ∀ i j n m t u, (s.calls i).stamp = some (n, t) → (s.calls j).stamp = some (m, u) → n < m → t < u

theorem Increasing.step {s s' : State} {a : Act} (h : Increasing s) (ha : IssuesHeld s a) (hstep : Step s a s') :
    Increasing s' := by
  refine ⟨h.toStamped.step hstep, fun j k m m' t u hj hk hlt => ?_⟩
  obtain hs | ⟨i, _, -, -, rfl⟩ | ⟨i, _, n, rfl, hl, rfl⟩ := hstep.below
  · exact h.increasing j k m m' t u (hs.stamp j _ hj) (hs.stamp k _ hk) hlt
  · exact h.increasing j k m m' t u (stamp_of_locked hj) (stamp_of_locked hk) hlt
  · -- the issuing call has the last lock, so nothing with a token is behind it
    have hlast : n + 1 = s.locks := h.latest i n ha (by rw [hl]; rfl)
    obtain ⟨-, hj'⟩ | ⟨-, hj'⟩ := update_some hj <;> obtain ⟨-, hk'⟩ | ⟨-, hk'⟩ := update_some hk
    · cases hj'
      cases hk'
      omega
    · cases hj'
      have := h.number_lt k m' (Call.number_of_stamp hk')
      omega
    · cases hk'
      exact h.token_lt j m t hj'
    · exact h.increasing j k m m' t u hj' hk' hlt

def fresh : State := ⟨fun _ => .idle, none, 0, 1, none⟩

theorem fresh_initial : Initial fresh := ⟨fun _ => rfl, rfl, fun _ h => by cases h⟩

/-- **Handles carry tokens in the order of their locks**, in every state of every run in which tokens are issued under the
lock: of two handles, the one that obtained the lock later has the larger token. -/
theorem tokens_increase {s s' : State} {as : List Act} (hinit : Initial s) (hissues : Along State.step IssuesHeld s as)
    (hrun : exec State.step s as = some s') {i j n m t u : Nat} (hij : i ≠ j)
    (hi : (s'.calls i).returned = some (n, t)) (hj : (s'.calls j).returned = some (m, u)) :
    (n < m ∧ t < u) ∨ (m < n ∧ u < t) := by
  have h : Increasing s' := by
    refine invariant (fun _ _ _ hI hok hs => Increasing.step hI hok (step_cases hs)) ?_ hissues hrun
    refine ⟨hinit.stamped, fun i j n m t u hi => ?_⟩
    rw [hinit.idle i] at hi
    cases hi
  have hi := Call.stamp_of_returned hi
  have hj := Call.stamp_of_returned hj
  rcases Nat.lt_trichotomy n m with hlt | rfl | hlt
  · exact .inl ⟨hlt, h.increasing i j n m t u hi hj hlt⟩
  · exact absurd (h.number_inj i j n (Call.number_of_stamp hi) (Call.number_of_stamp hj)) hij
  · exact .inr ⟨hlt, h.increasing j i m n u t hj hi hlt⟩

def inTurn : List Act :=
  [.tryLock 0 "a".toList true, .issue 0 true, .insert 0 .done, .connLost 0, .tryLock 1 "b".toList true, .issue 1 true,
    .insert 1 .done, .unlock 0, .mark 0 true]

theorem tokens_increase_inTurn : ∃ s, exec State.step fresh inTurn = some s ∧ (s.calls 0).returned = some (0, 1) ∧
    (s.calls 1).returned = some (1, 2) ∧ ((0 < 1 ∧ 1 < 2) ∨ (1 < 0 ∧ 2 < 1)) :=
  ⟨_, rfl, by decide, by decide,
    tokens_increase fresh_initial (by decide : Along State.step IssuesHeld fresh inTurn) rfl (i := 0) (j := 1)
      (by decide) (by decide) (by decide)⟩

/-- **A lock that is lost before its token is issued**: the next holder's token is smaller. -/
theorem token_overtaken : Initial fresh ∧ ∃ s, exec State.step fresh [.tryLock 0 "a".toList true, .connLost 0,
    .tryLock 1 "b".toList true, .issue 1 true, .insert 1 .done, .issue 0 true, .insert 0 .done] = some s ∧
      (s.calls 0).returned = some (0, 2) ∧ (s.calls 1).returned = some (1, 1) :=
  ⟨fresh_initial, _, rfl, by decide, by decide⟩

/-! ## The row -/

def Holds (s : State) (i : Nat) (podID : Text) (token : Nat) : Prop := s.holder = some i ∧ ∃ n, s.calls i = .held podID n token

/-- **The row is the lease's**: it is not released exactly when a handle holds the lock, and is then that handle's. -/
structure RowMatches (s : State) : Prop where
  released_iff : (∃ r, s.row = some r ∧ r.released = false) ↔ ∃ i podID token, Holds s i podID token
  current : ∀ i podID token, Holds s i podID token → s.row = some ⟨podID, token, false⟩

/-- **A release marks the row that is its own**, and the mark succeeds; a call whose upsert fails has left no row. -/
def WritesOwn (s : State) : Act → Prop
  | .mark i ok => ok = true ∧ s.row.map (·.fencingToken) = (s.calls i).stamp.map (·.2)
  | .insert _ outcome => outcome ≠ .lost
  | _ => True

instance (s : State) (a : Act) : Decidable (WritesOwn s a) := by
  unfold WritesOwn
  split <;> infer_instance

def Call.Locking : Call → Prop
  | .locked _ _ | .issued _ _ _ | .failing _ _ | .held _ _ _ => True
  | _ => False

def Act.NoCrash : Act → Prop
  | .connLost _ => False
  | _ => True

instance (a : Act) : Decidable a.NoCrash := by
  unfold Act.NoCrash
  split <;> infer_instance

/-- **A handle's row is its own, and without a handle** the row is released or will be by its release. -/
structure RowKept (calls : Nat → Call) (row : Option Row) : Prop where
  held : ∀ i podID n token, calls i = .held podID n token → row = some ⟨podID, token, false⟩
  unheld : (∀ i podID n token, calls i ≠ .held podID n token) → ∀ r, row = some r →
    r.released = true ∨ ∃ i n, calls i = .unlocked n r.fencingToken

/-- Without crashes a call has the lock from its first statement to its unlock, and the row is kept. -/
structure Kept (s : State) : Prop extends Stamped s where
  locking : ∀ i, (s.calls i).Locking → s.holder = some i
  row : RowKept s.calls s.row

section
variable {s s' : State} {a : Act} {i : Nat} {c : Call}

theorem RowKept.update {calls : Nat → Call} {row : Option Row} (h : RowKept calls row)
    (hnew : ∀ podID n token, c ≠ .held podID n token) (hold : ∀ podID n token, calls i ≠ .held podID n token)
    (hp : ∀ n token, calls i ≠ .unlocked n token) : RowKept (update calls i c) row where
  held j podID n token hj := by
    rw [update_apply] at hj
    split at hj
    · exact absurd hj (hnew podID n token)
    · exact h.held j podID n token hj
  unheld hu r hr := by
    have hb : ∀ j podID n token, calls j ≠ .held podID n token := by
      intro j podID n token hj
      by_cases hji : j = i
      · subst hji
        exact hold podID n token hj
      · exact hu j podID n token ((update_of_ne hji _ _).trans hj)
    rcases h.unheld hb r hr with hr | ⟨j, n, hj⟩
    · exact .inl hr
    refine .inr ⟨j, n, ?_⟩
    rw [update_of_ne]
    · exact hj
    · rintro rfl
      exact hp n _ hj

theorem locking_update (h : ∀ i, (s.calls i).Locking → s.holder = some i) (hc : c.Locking → (s.calls i).Locking) :
    ∀ j, (update s.calls i c j).Locking → s.holder = some j := by
  intro j hj
  rw [update_apply] at hj
  split at hj
  · rename_i hji
    exact h j (hji ▸ hc hj)
  · exact h j hj

theorem locking_free (h : ∀ i, (s.calls i).Locking → s.holder = some i) (hc : ¬ c.Locking) :
    ∀ j, (((s.set i c).free i).calls j).Locking → ((s.set i c).free i).holder = some j := by
  intro j hj
  rw [free_calls, set_calls, update_apply] at hj
  rw [holder_free]
  split at hj
  · exact absurd hj hc
  · exact ⟨h j hj, ‹_›⟩

theorem Kept.step (h : Kept s) (hm : WritesOwn s a) (hc : a.NoCrash) (hs : Step s a s') : Kept s' := by
  have hs' := h.toStamped.step hs
  cases hs with
  | tryLockFails hidle | conflict hidle | leak hidle =>
    exact ⟨hs', locking_update h.locking False.elim, h.row.update nofun (by simp [hidle]) (by simp [hidle])⟩
  | @lock i _ hidle hu =>
    refine ⟨hs', fun j (hj : (update s.calls i _ j).Locking) => ?_, h.row.update nofun (by simp [hidle]) (by simp [hidle])⟩
    rw [update_apply] at hj
    split at hj
    · rename_i hji
      rw [hji]
    · have := h.locking j hj
      rw [hu] at this
      cases this
  | issue hl | issueFails hl | insertFails hl =>
    have hlocking : ∀ c : Call, c.Locking → (s.calls _).Locking := fun _ _ => by rw [hl]; trivial
    exact ⟨hs', locking_update h.locking (hlocking _), h.row.update nofun (by simp [hl]) (by simp [hl])⟩
  | @insert i podID n token hissued =>
    have hi : (s.calls i).Locking := by rw [hissued]; trivial
    refine ⟨hs', locking_update h.locking fun _ => hi, fun j _ _ _ (hj : update s.calls i _ j = _) => ?_,
      fun hu => ?_⟩
    · -- the lock is this call's, so no other call is a handle
      rw [update_apply] at hj
      split at hj
      · cases hj
        rfl
      · rename_i hji
        have hj := h.locking j (by rw [hj]; trivial)
        rw [h.locking i hi] at hj
        exact absurd (Option.some.inj hj).symm hji
    · exact absurd (update_self i _ s.calls) (hu i podID n token)
  | insertLost => exact absurd rfl hm
  | cleanup hf =>
    refine ⟨hs', locking_free h.locking not_false, ?_⟩
    rw [free_calls, free_row, set_calls, set_row]
    exact h.row.update nofun (by simp [hf]) (by simp [hf])
  | @unlock i podID n token hh =>
    refine ⟨hs', locking_free h.locking not_false, ?_⟩
    rw [free_calls, free_row, set_calls, set_row]
    have hrow := h.row.held i podID n token hh
    refine ⟨fun j podID' n' token' hj => ?_, fun _ r hr => ?_⟩
    · rw [update_apply] at hj
      split at hj
      · cases hj
      · exact h.row.held j podID' n' token' hj
    · rw [hrow] at hr
      cases hr
      exact .inr ⟨i, n, update_self _ _ _⟩
  | @mark i n token hunlocked =>
    refine ⟨hs', locking_update h.locking False.elim, fun j podID' n' token' (hj : update s.calls i _ j = _) => ?_, fun _ r hr => ?_⟩
    · -- a handle's row has the handle's token, and that is not the token of the release
      rw [update_apply] at hj
      split at hj
      · cases hj
      rename_i hji
      have htoken : token' = token := by
        have := hm.2
        rw [h.row.held j podID' n' token' hj, hunlocked] at this
        exact Option.some.inj this
      refine absurd (h.token_inj j i n' n token ?_ ?_) hji
      · rw [hj, htoken]
        rfl
      · rw [hunlocked]
        rfl
    · obtain ⟨-, -, rfl⟩ := Option.map_eq_some_iff.1 hr
      exact .inl rfl
  | markFails => exact absurd hm.1 Bool.false_ne_true
  | connLost => exact hc.elim
  | elsewhere => exact ⟨hs', h.locking, h.row⟩

theorem Initial.kept (h : Initial s) : Kept s where
  toStamped := h.stamped
  locking i hi := by
    rw [h.idle i] at hi
    exact hi.elim
  row := by
    refine ⟨fun i _ n _ hi => ?_, fun _ r hr => .inl (h.row r hr)⟩
    rw [h.idle i] at hi
    cases hi

end

/-- **The row is the lease's whenever no release is between its unlock and its mark**, in every run without crashes in which
every mark meets its own row and no upsert is carried out whose answer is lost. -/
theorem row_matches {s s' : State} {as : List Act} (hinit : Initial s) (hcrash : ∀ a ∈ as, a.NoCrash)
    (hwrites : Along State.step WritesOwn s as) (hrun : exec State.step s as = some s')
    (hbetween : ∀ i n token, s'.calls i ≠ .unlocked n token) : RowMatches s' := by
  have h : Kept s' := invariant (fun _ _ _ hI hok hs => Kept.step hI hok.1 hok.2 (step_cases hs)) hinit.kept
    (hwrites.and_forall hcrash) hrun
  have hc : ∀ i podID token, Holds s' i podID token → s'.row = some ⟨podID, token, false⟩ := by
    rintro i podID token ⟨-, n, hi⟩
    exact h.row.held i podID n token hi
  refine ⟨⟨?_, ?_⟩, hc⟩
  · rintro ⟨r, hr, hreleased⟩
    by_contra hn
    have hu : ∀ i podID n token, s'.calls i ≠ .held podID n token := by
      intro i podID n token hi
      exact hn ⟨i, podID, token, h.locking i (by rw [hi]; trivial), n, hi⟩
    rcases h.row.unheld hu r hr with hr | ⟨i, n, hi⟩
    · rw [hreleased] at hr
      cases hr
    · exact hbetween i n _ hi
  · rintro ⟨i, podID, token, hi⟩
    exact ⟨_, hc i podID token hi, rfl⟩

def handOver : List Act :=
  [.tryLock 0 "a".toList true, .issue 0 true, .insert 0 .done, .unlock 0, .tryLock 1 "b".toList true, .mark 0 true,
    .issue 1 true, .insert 1 .done]

theorem row_matches_handOver : ∃ s, exec State.step fresh handOver = some s ∧ RowMatches s := by
  have hm : Along State.step WritesOwn fresh handOver := by decide
  refine ⟨_, rfl, row_matches fresh_initial (by decide) hm rfl ?_⟩
  rintro (_ | _ | i) n _ h <;> cases h

/-- **A mark that comes late**: the next holder's row is marked released. -/
theorem row_marked_late : Initial fresh ∧ ∃ s, exec State.step fresh [.tryLock 0 "a".toList true, .issue 0 true,
    .insert 0 .done, .unlock 0, .tryLock 1 "b".toList true, .issue 1 true, .insert 1 .done, .mark 0 true] = some s ∧
      (∀ i n token, s.calls i ≠ .unlocked n token) ∧ Holds s 1 "b".toList 2 ∧ s.row = some ⟨"b".toList, 2, true⟩ := by
  refine ⟨fresh_initial, _, rfl, ?_, ⟨rfl, 1, rfl⟩, rfl⟩
  rintro (_ | _ | i) n _ h <;> cases h

/-! ## The lock after an `Acquire` that fails

A call that fails behind the lock unlocks with the context that may have made it fail, and gives its connection back to the pool
whatever comes of that.  Where no such unlock fails while the connection has the lock, a failed call leaves no lock behind
(`failed_without_lock`). -/

/-- **A failing call gives its lock back**: its unlock does not fail while its connection has the lock. -/
def CleansUp (s : State) : Act → Prop
  | .cleanup i false => s.holder ≠ some i
  | _ => True

instance (s : State) (a : Act) : Decidable (CleansUp s a) := by
  unfold CleansUp
  split <;> infer_instance

def HeldLocking (s : State) : Prop := ∀ i, s.holder = some i → (s.calls i).Locking

section
variable {s s' : State} {a : Act} {i : Nat} {c : Call}

theorem HeldLocking.set (h : HeldLocking s) (hc : c.Locking ∨ s.holder ≠ some i) : HeldLocking (s.set i c) := by
  intro j hj
  rw [set_calls, Function.update_apply]
  split
  · rename_i hji
    exact hc.elim id fun ho => absurd (hji ▸ hj) ho
  · exact h j hj

theorem HeldLocking.free (h : HeldLocking s) : HeldLocking ((s.set i c).free i) := by
  intro j hj
  obtain ⟨hj, hji⟩ := holder_free.1 hj
  rw [free_calls, set_calls, Function.update_of_ne hji]
  exact h j hj

theorem HeldLocking.unheld (h : HeldLocking s) (hi : ¬ (s.calls i).Locking) : s.holder ≠ some i := fun hh => hi (h i hh)

theorem HeldLocking.step (h : HeldLocking s) (hok : CleansUp s a) (hstep : Step s a s') : HeldLocking s' := by
  cases hstep with
  | tryLockFails hi | conflict hi => exact h.set (.inr (h.unheld (by rw [hi]; exact id)))
  | @lock i podID =>
    rintro j ⟨⟩
    have hs : (Function.update s.calls i (.locked podID s.locks) i).Locking := by rw [Function.update_self]; trivial
    exact hs
  | issue | issueFails | insert | insertLost | insertFails => exact h.set (.inl trivial)
  | cleanup | unlock => exact h.free
  | leak => exact h.set (.inr hok)
  | mark hu | markFails hu => exact h.set (.inr (h.unheld (by rw [hu]; exact id)))
  | connLost =>
    intro j hj
    rw [free_calls]
    exact h j (holder_free.1 hj).1
  | elsewhere => exact h

end

end Jamsesh.Lease
