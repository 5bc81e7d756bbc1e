import Jamsesh.Machine
/-!
# Archive — archiving a session (`storage/archive.go`)

`ArchiveSession` inserts the archived row, removes the repository, deletes the session's row, and takes an archived row that
is already there for the end of all three.  So it is, unless a call fails or crashes between them (`archived_whole`).
-/
namespace Jamsesh.Archive

open Function (update update_apply)

/-- Where a call is: in front of one of its three steps, or over, with `nil` or not. -/
inductive Phase where
  | insert | remove | delete
  | over (ok : Bool)

/-- What there is of one session, and the calls of `ArchiveSession` on it. -/
structure State where
  archived : Bool
  repo : Bool
  row : Bool
  calls : Nat → Option Phase

inductive Act where
  | start (i : Nat)
  | go (i : Nat) (fails : Bool)
  | crash (i : Nat)

def State.put (s : State) (i : Nat) (p : Phase) : State := { s with calls := update s.calls i (some p) }

@[simp, grind =]
theorem put_calls (s : State) (i j : Nat) (p : Phase) : (s.put i p).calls j = if j = i then some p else s.calls j :=
  update_apply _ _ _ _

@[simp, grind =]
theorem put_archived (s : State) (i : Nat) (p : Phase) : (s.put i p).archived = s.archived := rfl

def State.step (s : State) : Act → Option State
  | .start i => if (s.calls i).isNone then some (s.put i .insert) else none
  | .go i fails =>
    match s.calls i with
    | some .insert =>
      if fails then some (s.put i (.over false))
      else if s.archived then some (s.put i (.over true))
      else some ({ s with archived := true }.put i .remove)
    | some .remove => if fails then some (s.put i (.over false)) else some ({ s with repo := false }.put i .delete)
    | some .delete => if fails then some (s.put i (.over false)) else some ({ s with row := false }.put i (.over true))
    | _ => none
  | .crash i => if (s.calls i).isSome then some (s.put i (.over false)) else none

/-- Behind its insertion a call neither fails nor crashes. -/
def Finishes (s : State) : Act → Prop
  | .go i true | .crash i => s.calls i ≠ some .remove ∧ s.calls i ≠ some .delete
  | _ => True

/-- What is left of an archived session is left to a call. -/
structure Sound (s : State) : Prop where
  archived : ∀ i, s.calls i ∈ [some (.over true), some .remove, some .delete] → s.archived = true
  left : s.archived = true → (∃ i, s.calls i = some .remove) ∨ s.repo = false ∧ (s.row = false ∨ ∃ i, s.calls i = some .delete)

theorem Sound.put {s : State} {i : Nat} {p : Phase} (h : Sound s) (hp : p = .over true → s.archived = true)
    (hnew : p ≠ .remove ∧ p ≠ .delete) (hold : s.calls i ≠ some .remove ∧ s.calls i ≠ some .delete) : Sound (s.put i p) := by
  refine ⟨fun j hj => ?_, fun ha => (h.left ha).imp ?_ (.imp_right (.imp_right ?_))⟩
  · have := h.archived j
    grind
  · exact fun ⟨j, hj⟩ => ⟨j, by grind⟩
  · exact fun ⟨j, hj⟩ => ⟨j, by grind⟩

theorem Sound.step {s s' : State} {a : Act} (h : Sound s) (hok : Finishes s a) (hs : s.step a = some s') : Sound s' := by
  cases a with
  | start i =>
    simp only [State.step] at hs
    split at hs <;> cases hs
    rename_i hi
    exact h.put nofun (by simp) (by simp_all)
  | crash i =>
    simp only [State.step] at hs
    split at hs <;> cases hs
    exact h.put nofun (by simp) hok
  | go i fails =>
    simp only [State.step] at hs
    split at hs
    · rename_i hi
      split at hs
      · cases hs
        exact h.put nofun (by simp) (by simp [hi])
      split at hs <;> cases hs
      · rename_i har
        exact h.put (fun _ => har) (by simp) (by simp [hi])
      · exact ⟨fun _ _ => rfl, fun _ => .inl ⟨i, by simp⟩⟩
    · rename_i hi
      split at hs <;> cases hs
      · simp_all [Finishes]
      · exact ⟨fun _ _ => h.archived i (by simp [hi]), fun _ => .inr ⟨rfl, .inr ⟨i, by simp⟩⟩⟩
    · rename_i hi
      split at hs <;> cases hs
      · simp_all [Finishes]
      · refine ⟨fun _ _ => h.archived i (by simp [hi]), fun ha => (h.left ha).imp ?_ fun ⟨hr, _⟩ => ⟨hr, .inl rfl⟩⟩
        exact fun ⟨j, hj⟩ => ⟨j, by grind⟩
    · cases hs

/-- **A session is archived as a whole** once a call has returned `nil` and none is in progress. -/
theorem archived_whole (s₀ s : State) (as : List Act) (hnew : s₀.archived = false) (hcalls : ∀ i, s₀.calls i = none)
    (hok : Machine.Along State.step Finishes s₀ as) (hrun : Machine.exec State.step s₀ as = some s)
    (hdone : ∃ i, s.calls i = some (.over true)) (hquiet : ∀ i p, s.calls i = some p → ∃ ok, p = .over ok) :
    s.archived = true ∧ s.repo = false ∧ s.row = false := by
  have hs : Sound s :=
    Machine.invariant (fun _ _ _ h hok hst => h.step hok hst) ⟨by simp [hcalls], by simp [hnew]⟩ hok hrun
  obtain ⟨i, hi⟩ := hdone
  have har := hs.archived i (by simp [hi])
  rcases hs.left har with ⟨j, hj⟩ | ⟨hr, hrow | ⟨j, hj⟩⟩
  · simpa using hquiet j _ hj
  · exact ⟨har, hr, hrow⟩
  · simpa using hquiet j _ hj

def live : State := ⟨false, true, true, fun _ => none⟩

def twoCalls : List Act := [.start 0, .start 1, .go 0 false, .go 0 false, .go 0 false, .go 1 false]

theorem archived_whole_again : ∃ s, Machine.exec State.step live twoCalls = some s ∧
    s.archived = true ∧ s.repo = false ∧ s.row = false := by
  have hr : Machine.exec State.step live twoCalls = some _ := rfl
  refine ⟨_, hr, archived_whole live _ twoCalls rfl (fun _ => rfl) ?_ hr ⟨0, rfl⟩ fun i p hi => ?_⟩
  · exact .cons_of_step trivial rfl (.cons_of_step trivial rfl (.cons_of_step trivial rfl (.cons_of_step trivial rfl
      (.cons_of_step trivial rfl (.cons_of_step trivial rfl trivial)))))
  · simp only [State.put, update_apply, live] at hi
    grind

/-- **A call that crashes behind its insertion leaves the rest for good**: the next one returns `nil` at once. -/
theorem half_archived : ∃ s, Machine.exec State.step live [.start 0, .go 0 false, .crash 0, .start 1, .go 1 false] = some s ∧
    s.calls 1 = some (.over true) ∧ s.repo = true ∧ s.row = true :=
  ⟨_, rfl, rfl, rfl, rfl⟩

end Jamsesh.Archive
