import Jamsesh.CommandLists
import Jamsesh.PushFrame
/-!
# ShortIds — pushes whose ids are too short to be cut

A command may have any text where an id belongs, and a rejection of an update that is not a fast-forward shows the first
twelve characters of its ids; a slice beyond the end is a panic.  `validate` comes to a result exactly when no rejection cuts
an id of fewer than twelve characters (`validate_returns_iff`).
-/
namespace Jamsesh.Prereceive

open Git Githttp

/-! ## The ids a rejection cuts -/

def Resolves (repo : Repo) (id : String) : Prop := ∃ c, repo.commitObject (newHash id) = some c

/-- **The ids a rejection of the update would show**: the one that names no commit, or both when the new commit's history
lacks the old one. -/
def Shows (repo : Repo) (u : RefUpdate) (id : String) : Prop :=
  (¬ Resolves repo u.oldSHA ∧ id = u.oldSHA) ∨
    (Resolves repo u.oldSHA ∧ ¬ Resolves repo u.newSHA ∧ id = u.newSHA) ∨
    (Resolves repo u.oldSHA ∧ Resolves repo u.newSHA ∧
      repo.isAncestor (newHash u.oldSHA) (newHash u.newSHA) = .ok false ∧ (id = u.oldSHA ∨ id = u.newSHA))

/-- **No rejection of the push cuts a short id**: those of an update that is checked for a force-push have twelve characters. -/
def CutsFit (repo : Repo) (sessionID accountID : String) (updates : List RefUpdate) : Prop :=
  ∀ u ∈ updates, (checkRefNamespace repo sessionID accountID u.ref).1 = true → u.oldSHA ≠ "" →
    ∀ id, Shows repo u id → 12 ≤ id.length

theorem not_resolves {repo : Repo} {id : String} : ¬ Resolves repo id ↔ repo.commitObject (newHash id) = none := by
  rw [Resolves, Option.eq_none_iff_forall_ne_some, not_exists]

theorem short_returns_iff {s : String} : (∃ cut, short s = .ok cut) ↔ 12 ≤ s.length := by
  unfold short
  split
  · rename_i h
    constructor
    · rintro ⟨_, hc⟩
      cases hc
    · intro _
      omega
  · rename_i h
    exact ⟨fun _ => Nat.le_of_not_lt h, fun _ => ⟨_, rfl⟩⟩

theorem map_returns_iff {ε α β : Type} {x : Except ε α} {f : α → β} : (∃ b, x.map f = .ok b) ↔ ∃ a, x = .ok a := by
  cases x <;> simp [Except.map]

theorem bind_returns_iff {ε α β : Type} {x : Except ε α} {f : α → Except ε β} :
    (∃ b, (x >>= f) = .ok b) ↔ ∃ a, x = .ok a ∧ ∃ b, f a = .ok b := by
  cases x with
  | error | ok => simp [bind, Except.bind]

theorem unresolvedRejection_returns_iff {u : RefUpdate} {which sha key : String} {e : GitErr} :
    (∃ r, unresolvedRejection u which sha key e = .ok r) ↔ 12 ≤ sha.length := by
  rw [unresolvedRejection, bind_returns_iff]
  constructor
  · rintro ⟨cut, hc, -⟩
    exact short_returns_iff.1 ⟨cut, hc⟩
  · intro h
    obtain ⟨cut, hc⟩ := short_returns_iff.2 h
    exact ⟨cut, hc, _, rfl⟩

/-! ## The checks that cut -/

theorem checkForcePush_returns_iff {repo : Repo} {u : RefUpdate} {isBase : Bool} :
    (∃ r, checkForcePush repo u isBase = .ok r) ↔ ∀ id, Shows repo u id → 12 ≤ id.length := by
  unfold checkForcePush
  simp only
  cases ho : repo.commitObject (newHash u.oldSHA) with
  | none =>
    have hr : ¬ Resolves repo u.oldSHA := not_resolves.2 ho
    simp only [map_returns_iff, unresolvedRejection_returns_iff, Shows, hr, not_false_eq_true, true_and, false_and, or_false,
      forall_eq]
  | some old =>
    have hr : Resolves repo u.oldSHA := ⟨old, ho⟩
    cases hnew : repo.commitObject (newHash u.newSHA) with
    | none =>
      have hn : ¬ Resolves repo u.newSHA := not_resolves.2 hnew
      simp only [map_returns_iff, unresolvedRejection_returns_iff, Shows, hr, hn, not_true_eq_false, not_false_eq_true, true_and,
        false_and, false_or, or_false, forall_eq]
    | some new =>
      have hn : Resolves repo u.newSHA := ⟨new, hnew⟩
      simp only [Shows, hr, hn, not_true_eq_false, true_and, false_and, false_or]
      cases repo.isAncestor (newHash u.oldSHA) (newHash u.newSHA) with
      | error => simp
      | ok b =>
        cases b with
        | true => simp
        | false =>
          simp only [true_and, forall_eq_or_imp, forall_eq]
          rw [bind_returns_iff]
          constructor
          · rintro ⟨old, ho, h⟩
            obtain ⟨new, hnew, -⟩ := bind_returns_iff.1 h
            exact ⟨short_returns_iff.1 ⟨old, ho⟩, short_returns_iff.1 ⟨new, hnew⟩⟩
          · rintro ⟨h, h'⟩
            obtain ⟨old, ho⟩ := short_returns_iff.2 h
            obtain ⟨new, hnew⟩ := short_returns_iff.2 h'
            exact ⟨old, ho, bind_returns_iff.2 ⟨new, hnew, _, rfl⟩⟩

theorem validateRef_returns_iff {repo : Repo} {sessionID accountKey : String} {u : RefUpdate} :
    (∃ r, validateRef repo sessionID accountKey u = .ok r) ↔
      ((checkRefNamespace repo sessionID accountKey u.ref).1 = true → u.oldSHA ≠ "" →
        ∀ id, Shows repo u id → 12 ≤ id.length) := by
  unfold validateRef
  split
  · rename_i hns
    simp [hns]
  rename_i hns
  by_cases ho : u.oldSHA = ""
  · simp [ho]
  · rw [if_pos ho, map_returns_iff, checkForcePush_returns_iff, hns]
    simp [ho]

theorem validateUpdate_returns_iff {lib : Lib} {input : ValidateInput} {scope : ScopeMatcher} {u : RefUpdate} :
    (∃ r, validateUpdate lib input scope u = .ok r) ↔
      ∃ r, validateRef input.repo input.session.id input.accountID u = .ok r := by
  rw [validateUpdate, bind_returns_iff]
  constructor
  · rintro ⟨r, hr, -⟩
    exact ⟨r, hr⟩
  · rintro ⟨r, hr⟩
    refine ⟨r, hr, ?_⟩
    split
    · exact ⟨_, rfl⟩
    · exact ⟨_, rfl⟩

theorem validateUpdates_returns_iff {lib : Lib} {input : ValidateInput} {scope : ScopeMatcher} : ∀ {us : List RefUpdate},
    (∃ r, validateUpdates lib input scope us = .ok r) ↔ ∀ u ∈ us, ∃ r, validateUpdate lib input scope u = .ok r
  | [] => by simp [validateUpdates]
  | u :: us => by
    rw [validateUpdates, bind_returns_iff, List.forall_mem_cons, ← validateUpdates_returns_iff]
    constructor
    · rintro ⟨here, hh, h⟩
      obtain ⟨there, ht, -⟩ := bind_returns_iff.1 h
      exact ⟨⟨here, hh⟩, there, ht⟩
    · rintro ⟨⟨here, hh⟩, there, ht⟩
      exact ⟨here, hh, bind_returns_iff.2 ⟨there, ht, _, rfl⟩⟩

theorem validateUpdates_cutsFit {lib : Lib} {input : ValidateInput} {scope : ScopeMatcher} :
    (∃ r, validateUpdates lib input scope input.updates = .ok r) ↔
      CutsFit input.repo input.session.id input.accountID input.updates := by
  rw [validateUpdates_returns_iff, CutsFit]
  simp only [validateUpdate_returns_iff, validateRef_returns_iff]

/-- **The check of an accepted command list comes to a result exactly when no rejection cuts an id of fewer than twelve
characters**; a scope that cannot be read ends it before. -/
theorem validate_returns_iff (body : Text) (l : CommandList) (lib : Lib) (limits : Limits) (repo : Repo) (session : Session)
    (accountID : String) (packBytes currentBytes : Int) : readCommandList body = .ok l →
    (((∃ rejections, validate lib limits ⟨repo, session, accountID, l.updates, packBytes, currentBytes⟩ = .ok rejections) ∨
        ∃ text, validate lib limits ⟨repo, session, accountID, l.updates, packBytes, currentBytes⟩ = .error (.error text)) ↔
      ((∃ scope, sessionScope lib session = .ok scope) → CutsFit repo session.id accountID l.updates)) := by
  intro _
  unfold validate
  cases sessionScope lib session with
  | error => simp
  | ok scope =>
    have hf : (∃ r, validateUpdates lib ⟨repo, session, accountID, l.updates, packBytes, currentBytes⟩ scope l.updates = .ok r) ↔
        CutsFit repo session.id accountID l.updates := validateUpdates_cutsFit
    simp only [← hf]
    cases validateUpdates lib ⟨repo, session, accountID, l.updates, packBytes, currentBytes⟩ scope l.updates with
    | error | ok => simp

/-! ## Two pushes -/

theorem validate_returns_full : readCommandList fullBody = .ok ⟨[mergePush], [], []⟩ ∧
    (((∃ rejections, validate silentLib noLimits ⟨mergeRepo "" [], docsSession, "a", [mergePush], 0, 0⟩ = .ok rejections) ∨
        ∃ text, validate silentLib noLimits ⟨mergeRepo "" [], docsSession, "a", [mergePush], 0, 0⟩ = .error (.error text)) ↔
      ((∃ scope, sessionScope silentLib docsSession = .ok scope) → CutsFit (mergeRepo "" []) "s" "a" [mergePush])) :=
  ⟨fullBody_commands, validate_returns_iff fullBody ⟨[mergePush], [], []⟩ silentLib noLimits (mergeRepo "" []) docsSession "a" 0 0
    fullBody_commands⟩

/-- **Two characters where an id belongs end the check in a panic.** -/
theorem short_id_panics :
    readCommandList "001eab cd refs/heads/jam/s/a/b0000".toList = .ok ⟨[⟨"refs/heads/jam/s/a/b", "ab", "cd"⟩], [], []⟩ ∧
      validate silentLib noLimits ⟨mergeRepo "" [], docsSession, "a", [⟨"refs/heads/jam/s/a/b", "ab", "cd"⟩], 0, 0⟩ =
        .error (.panic .sliceOutOfRange) := by
  have ht : "001eab cd refs/heads/jam/s/a/b0000".toList = _ := String.toList_ofList
  have hp : readPacket "001eab cd refs/heads/jam/s/a/b0000".toList =
      .ok (some "ab cd refs/heads/jam/s/a/b".toList, "0000".toList) := by
    rw [ht]
    decide +kernel
  have hc : parseCommand "ab cd refs/heads/jam/s/a/b".toList =
      .ok (⟨"refs/heads/jam/s/a/b", "ab", "cd"⟩, []) := by decide +kernel
  have hf : readPacket "0000".toList = .ok (none, []) := by decide
  rw [readCommandList_command hp hc, readCommandList_flush hf]
  exact ⟨rfl, by decide⟩

end Jamsesh.Prereceive
