import Jamsesh.PushFrame
import Jamsesh.ReceivePack
import Jamsesh.Heuristics
/-!
# HeldCommits — pushes over commits the server already has

The walk of a push is bounded by the old value of its ref and by nothing else, so it checks commits again that the server has:
the base, whose first push is exempt, and the auto-merger's merges.  The push is refused for those that fail
(`validate_held_iff`).
-/
namespace Jamsesh
namespace Prereceive

open Git List

/-- **A commit the server already has**: in the history of one of its refs. -/
def Held (repo : Repo) (h : Hash) : Prop :=
  ∃ refs, repo.references = .ok refs ∧ ∃ r ∈ refs, ∃ tip, r.target = .hash tip ∧ repo.Reaches tip h

def Passes (lib : Lib) (repo : Repo) (scope : ScopeMatcher) (h : Hash) : Prop :=
  ∀ c, repo.commitObject h = some c → validateCommit lib repo c scope = []

/-- The commits the walk of an update checks: all of the history for a new ref, else what comes before the old commit. -/
def Checked (repo : Repo) (u : RefUpdate) (h : Hash) : Prop :=
  (u.oldSHA = "" ∧ repo.Reaches (newHash u.newSHA) h) ∨ (u.oldSHA ≠ "" ∧ h ∈ beforeOld repo u)

variable {repo : Repo} {u : RefUpdate} {lib : Lib} {input : ValidateInput} {scope : ScopeMatcher}

theorem Checked.reaches {h : Hash} (hc : Checked repo u h) : repo.Reaches (newHash u.newSHA) h := by
  rcases hc with ⟨-, h⟩ | ⟨-, h⟩
  · exact h
  · exact Repo.history_sound ((takeWhile_sublist _).subset h)

theorem mem_walkAndValidate (lib : Lib) (scope : ScopeMatcher) (hnew : repo.Complete (newHash u.newSHA)) (r : Rejection) :
    r ∈ walkAndValidate lib repo u scope ↔
      ∃ h c, Checked repo u h ∧ repo.commitObject h = some c ∧ r ∈ validateCommit lib repo c scope := by
  have hchecked : ∀ h, h ∈ (Walk.visited (repo.history (newHash u.newSHA))).takeWhile (fun h => !isStop u h) ↔
      Checked repo u h := by
    intro h
    by_cases ho : u.oldSHA = ""
    · rw [takeWhile_isStop_create ho, Repo.mem_history hnew]
      simp [Checked, ho]
    · rw [takeWhile_isStop ho]
      simp [Checked, ho, beforeOld]
  rw [walkAndValidate_eq lib scope hnew, mem_flatMap]
  constructor
  · rintro ⟨c, hc, hr⟩
    obtain ⟨h, hh, hc⟩ := mem_filterMap.1 hc
    exact ⟨h, c, (hchecked h).1 hh, hc, hr⟩
  · rintro ⟨h, c, hh, hc, hr⟩
    exact ⟨c, mem_filterMap.2 ⟨h, (hchecked h).2 hh, hc⟩, hr⟩

/-! ## A branch of one's own -/

/-- **An update of a branch of the pusher's own** that creates it or moves it forward, with its history there. -/
structure OwnForward (input : ValidateInput) (u : RefUpdate) : Prop where
  own : checkRefNamespace input.repo input.session.id input.accountID u.ref = (true, false)
  forward : u.oldSHA ≠ "" → input.repo.Reaches (newHash u.newSHA) (newHash u.oldSHA)
  complete : input.repo.Complete (newHash u.newSHA)

theorem not_base_of_own {sessionID account : String}
    (h : checkRefNamespace repo sessionID account u.ref = (true, false)) : isBaseRefFirstPush sessionID u = false := by
  by_contra hb
  rw [Bool.not_eq_false, isBaseRefFirstPush, decide_eq_true_eq] at hb
  have hd : u.ref.toList.drop refPrefix.length = sessionID.toList ++ "/base".toList := by
    rw [hb.2, String.toList_append, String.toList_append, append_assoc]
    exact drop_left
  unfold checkRefNamespace at h
  rw [hd] at h
  split at h
  · cases h
  by_cases hs : '/' ∈ sessionID.toList
  · -- the session of the ref ends at the first slash
    obtain ⟨a, b, hsplit, ha⟩ := eq_append_cons_of_mem hs
    rw [hsplit, append_assoc, cons_append, Text.splitAtMost_append ha] at h
    split at h
    · rename_i hp
      rw [List.cons.injEq] at hp
      have hne : a ≠ a ++ '/' :: b := by simp
      rw [← hp.1, if_pos hne] at h
      cases h
    · cases h
  · have hp : Text.splitAtMost '/' 2 (sessionID.toList ++ "/base".toList) = [sessionID.toList, "base".toList] :=
      Text.splitAtMost_append hs 1 "base".toList
    simp only [hp, ne_eq, not_true_eq_false, if_false, and_self, if_true] at h
    split at h
    · cases h
    · cases h

theorem validateUpdate_own
    (h : OwnForward input u) : validateUpdate lib input scope u = .ok (walkAndValidate lib input.repo u scope) := by
  have hr : validateRef input.repo input.session.id input.accountID u = .ok [] :=
    validateRef_forward (by rw [h.own]) h.complete h.forward
  unfold validateUpdate
  simp only [hr, not_base_of_own h.own]
  rfl

theorem validateUpdates_own {lib : Lib} {input : ValidateInput} {scope : ScopeMatcher} : ∀ {us : List RefUpdate},
    (∀ u ∈ us, OwnForward input u) →
      validateUpdates lib input scope us = .ok (us.flatMap (fun u => walkAndValidate lib input.repo u scope))
  | [], _ => rfl
  | u :: us, h => by
    obtain ⟨hu, hus⟩ := forall_mem_cons.1 h
    unfold validateUpdates
    simp only [validateUpdate_own hu, validateUpdates_own hus]
    rfl

def sizeRejections (limits : Limits) (input : ValidateInput) : List Rejection :=
  (checkPackSize input.packBytes limits.maxPackBytes).toList ++
    (checkPlaygroundCaps limits input.session input.packBytes input.currentBytes).toList

def walkRejections (lib : Lib) (input : ValidateInput) (scope : ScopeMatcher) : List Rejection :=
  input.updates.flatMap (fun u => walkAndValidate lib input.repo u scope)

theorem validate_own (limits : Limits)
    (hscope : sessionScope lib input.session = .ok scope) (ho : ∀ u ∈ input.updates, OwnForward input u) :
    ∃ rs, validate lib limits input = .ok rs ∧
      ∀ r, r ∈ rs ↔ r ∈ sizeRejections limits input ∨ r ∈ walkRejections lib input scope := by
  unfold validate
  simp only [hscope, validateUpdates_own ho]
  refine ⟨_, rfl, fun r => ?_⟩
  rw [sizeRejections, mem_append, mem_append, mem_append, or_right_comm]
  rfl

theorem mem_walkRejections (ho : ∀ u ∈ input.updates, OwnForward input u) (r : Rejection) :
    r ∈ walkRejections lib input scope ↔ ∃ u ∈ input.updates, ∃ h c, Checked input.repo u h ∧
      input.repo.commitObject h = some c ∧ r ∈ validateCommit lib input.repo c scope := by
  rw [walkRejections, mem_flatMap]
  exact exists_congr fun u => and_congr_right fun hu => mem_walkAndValidate lib scope (ho u hu).complete r

/-! ## What a push is refused for -/

def HeldPass (lib : Lib) (input : ValidateInput) (scope : ScopeMatcher) : Prop :=
  ∀ u ∈ input.updates, ∀ h, Checked input.repo u h → Held input.repo h → Passes lib input.repo scope h

def Rejection.Names (r : Rejection) (h : Hash) : Prop := ("commit", .str h.string) ∈ r.details

theorem names_of_validateCommit {c : Commit} {r : Rejection}
    (hr : r ∈ validateCommit lib repo c scope) : r.Names c.hash := by
  rcases mem_append.1 hr with hr | hr
  · split at hr
    · rw [mem_singleton.1 hr]
      exact mem_cons_self
    · cases hr
  · split at hr
    · simp only at hr
      split at hr
      · rw [mem_singleton.1 hr]
        exact mem_cons_self
      · cases hr
    · cases hr

theorem not_names_of_size {limits : Limits} {r : Rejection} (hr : r ∈ sizeRejections limits input)
    (h : Hash) : ¬ r.Names h := by
  rw [sizeRejections, mem_append, Option.mem_toList, Option.mem_toList] at hr
  rcases hr with hr | hr
  · unfold checkPackSize at hr
    split at hr
    · cases hr
    split at hr <;> cases hr
    simp [Rejection.Names]
  · unfold checkPlaygroundCaps at hr
    split at hr
    · cases hr
    split at hr
    · cases hr
    split at hr <;> cases hr
    simp [Rejection.Names]

theorem walkRejections_nil (ho : ∀ u ∈ input.updates, OwnForward input u)
    (hnew : ∀ u ∈ input.updates, ∀ h, input.repo.Reaches (newHash u.newSHA) h → ¬ Held input.repo h →
      Passes lib input.repo scope h) :
    walkRejections lib input scope = [] ↔ HeldPass lib input scope := by
  constructor
  · intro hn u hu h hh _ c hc
    rw [eq_nil_iff_forall_not_mem]
    intro r hr
    have hm := (mem_walkRejections ho r).2 ⟨u, hu, h, c, hh, hc, hr⟩
    rw [hn] at hm
    cases hm
  · intro hheld
    rw [eq_nil_iff_forall_not_mem]
    intro r hr
    obtain ⟨u, hu, h, c, hh, hc, hr⟩ := (mem_walkRejections ho r).1 hr
    have hp : Passes lib input.repo scope h := by
      by_cases hs : Held input.repo h
      · exact hheld u hu h hh hs
      · exact hnew u hu h hh.reaches hs
    rw [hp c hc] at hr
    cases hr

/-- **A push whose new commits pass is accepted, and no rejection names a commit the server has, exactly when every held
commit that is checked again passes too** (and, for the acceptance, the sizes are within their limits). -/
theorem validate_held_iff (lib : Lib) (limits : Limits) (input : ValidateInput)
    (hown : ∀ u ∈ input.updates, OwnForward input u)
    (hnew : ∀ scope, sessionScope lib input.session = .ok scope → ∀ u ∈ input.updates, ∀ h,
      input.repo.Reaches (newHash u.newSHA) h → ¬ Held input.repo h → Passes lib input.repo scope h) :
    (validate lib limits input = .ok [] ↔ sizeRejections limits input = [] ∧
        ∃ scope, sessionScope lib input.session = .ok scope ∧ HeldPass lib input scope) ∧
      ((∃ rs, validate lib limits input = .ok rs ∧ ∀ r ∈ rs, ∀ h, Held input.repo h → ¬ r.Names h) ↔
        ∃ scope, sessionScope lib input.session = .ok scope ∧ HeldPass lib input scope) := by
  cases hs : sessionScope lib input.session with
  | error e =>
    have he : validate lib limits input = .error (.error e) := by
      unfold validate
      simp only [hs]
    simp [he]
  | ok scope =>
    obtain ⟨rs, hrs, hm⟩ := validate_own limits hs hown
    have hw := walkRejections_nil hown (hnew scope hs)
    have hheld : (∃ s, Except.ok (ε := String) scope = .ok s ∧ HeldPass lib input s) ↔ HeldPass lib input scope := by simp
    rw [hheld, hrs]
    refine ⟨?_, ?_⟩
    · rw [Except.ok.injEq, ← hw]
      simp only [eq_nil_iff_forall_not_mem, hm, not_or, forall_and]
    · constructor
      · rintro ⟨_, hok, hn⟩ u hu h hh hserver c hc
        cases hok
        rw [eq_nil_iff_forall_not_mem]
        intro r hr
        have hin := (hm r).2 (.inr ((mem_walkRejections hown r).2 ⟨u, hu, h, c, hh, hc, hr⟩))
        exact hn r hin h hserver ((Repo.commitObject_eq_some hc).2 ▸ names_of_validateCommit hr)
      · intro hp
        refine ⟨rs, rfl, fun r hr h _ => ?_⟩
        rcases (hm r).1 hr with hr | hr
        · exact not_names_of_size hr h
        · rw [hw.2 hp] at hr
          cases hr

def openSession : Session := ⟨"s", "o", ""⟩

/-- Somebody else's branch is at the second root. -/
def heldInput : ValidateInput :=
  ⟨{ mergeRepo goodMessage [.ofByte 2, .ofByte 1] with references := .ok [⟨"refs/heads/jam/s/b/c", .hash (.ofByte 2)⟩] },
    openSession, "a", [mergePush], 0, 0⟩

theorem validate_held_merge : Held heldInput.repo (.ofByte 2) ∧ Checked heldInput.repo mergePush (.ofByte 2) ∧
    validate silentLib noLimits heldInput = .ok [] ∧
    ∃ scope, sessionScope silentLib openSession = .ok scope ∧ HeldPass silentLib heldInput scope := by
  have hclosed : heldInput.repo.Closed := by decide
  have hnew : heldInput.repo.Complete (newHash mergePush.newSHA) := hclosed.complete (by decide)
  have hp : ∀ c ∈ heldInput.repo.commits, validateCommit silentLib heldInput.repo c ⟨[]⟩ = [] := by decide
  have hscope : sessionScope silentLib openSession = .ok ⟨[]⟩ := rfl
  have hv : validate silentLib noLimits heldInput = .ok [] := rfl
  have hi := validate_held_iff silentLib noLimits heldInput
    (forall_mem_singleton.2 ⟨by decide, fun _ => (Repo.mem_history hnew _).1 (by decide), hnew⟩)
    fun _ hs _ _ _ _ _ c hc => by
      cases hscope.symm.trans hs
      exact hp c (Repo.commitObject_eq_some hc).1
  exact ⟨⟨_, rfl, _, mem_singleton_self _, _, rfl, .refl⟩, .inr ⟨by decide, by decide⟩, hv, (hi.1.1 hv).2⟩

end Prereceive

/-! ## The auto-merger's commits (`automerger/outcomes.go`) -/

namespace Automerger

open Git Trailers

def commitSummary (message : Text) : Text :=
  let msg := Text.trimSpace message
  if '\n' ∈ msg then Text.trimSpace (Text.beforeNewline msg) else msg

def mergeTrailers (source : Commit) (sourceRef : String) (resolvedBy : Option Heuristic) : List Text :=
  let resolves := (lookup source.message.toList "Resolves-Conflict".toList).getD []
  ["Auto-Merger: true".toList, "Source-Commit: ".toList ++ source.hash.text, "Source-Ref: ".toList ++ sourceRef.toList] ++
    resolvedBy.toList.map (fun h => "Auto-Resolved: ".toList ++ h.label.toList) ++
    if resolves ≠ [] then ["Resolves-Conflict: ".toList ++ resolves] else []

/-- `composeMergeMessage`; the heuristic is there when the merge was resolved by one. -/
def composeMergeMessage (source : Commit) (sourceRef : String) (resolvedBy : Option Heuristic) : String :=
  String.ofList ("Auto-merge: ".toList ++ commitSummary source.message.toList ++ "\n\n".toList ++
    ['\n'].intercalate (mergeTrailers source sourceRef resolvedBy) ++ ['\n'])

end Automerger

/-! ## The server's runs -/

namespace Server

open Git Prereceive Githttp Automerger List

def setReference (repo : Repo) (name : String) (h : Hash) : Repo :=
  { repo with references := repo.references.map (fun refs => ⟨name, .hash h⟩ :: refs.filter (fun r => r.name ≠ name)) }

def land (landed : List RefUpdate) (repo : Repo) : Repo :=
  landed.foldl (fun r u => setReference r u.ref (newHash u.newSHA)) repo

def seed (faults : Faults) (sessionID : String) (updates : List RefUpdate) (disk : Repo) : Repo :=
  (seedDraft faults sessionID disk updates).foldl
    (fun r a => setReference r (draftRefName sessionID) (newHash a.update.newSHA)) disk

/-- **What a push is validated on**: its objects over those on disk, with the refs on disk. -/
structure Staged (disk staged : Repo) : Prop where
  commits : ∀ c ∈ disk.commits, c ∈ staged.commits
  tree : ∀ h t, disk.tree h = some t → staged.tree h = some t
  references : staged.references = disk.references

/-- **A step of the server**: an accepted push, of which git moves some refs, or a merge into the draft. -/
inductive Step (lib : Lib) (limits : Limits) (session : Session) : Repo → Repo → Prop where
  | push {disk staged : Repo} (account : String) (updates landed : List RefUpdate) (packBytes currentBytes : Int)
      (faults : Faults) (overlay : Staged disk staged)
      (accepted : validate lib limits ⟨staged, session, account, updates, packBytes, currentBytes⟩ = .ok [])
      (moved : landed.Sublist updates) :
      Step lib limits session disk (seed faults session.id updates (land landed staged))
  | autoMerge {disk merged : Repo} {draft : Hash} {source c : Commit} (sourceRef : String) (resolvedBy : Option Heuristic)
      (tip : disk.reference (draftRefName session.id) = .ok draft) (arrived : source ∈ disk.commits)
      (commits : merged.commits = c :: disk.commits) (parents : c.parents = [draft, source.hash])
      (message : c.message = composeMergeMessage source sourceRef resolvedBy)
      (tree : ∀ h t, disk.tree h = some t → merged.tree h = some t)
      (references : merged.references = (setReference disk (draftRefName session.id) c.hash).references) :
      Step lib limits session disk merged

def Reached (lib : Lib) (limits : Limits) (session : Session) (disk : Repo) : Prop :=
  ∃ start : Repo, start.commits = [] ∧ start.references = .ok [] ∧
    Relation.ReflTransGen (Step lib limits session) start disk

/-! ## Two pushes that are refused -/

/-- **A branch of the pusher's own, all of whose new commits pass, is refused for a commit the server has.** -/
structure RefusedFor (lib : Lib) (limits : Limits) (session : Session) (disk staged : Repo) (account : String) (u : RefUpdate)
    (h : Hash) : Prop where
  reached : Reached lib limits session disk
  overlay : Staged disk staged
  own : OwnForward ⟨staged, session, account, [u], 0, 0⟩ u
  new : ∀ scope, sessionScope lib session = .ok scope → ∀ x, staged.Reaches (newHash u.newSHA) x → ¬ Held staged x →
    Passes lib staged scope x
  held : Held staged h
  refused : ∃ r, validate lib limits ⟨staged, session, account, [u], 0, 0⟩ = .ok [r] ∧ r.Names h

def branchCommit : Commit := ⟨.ofByte 2, [.ofByte 1], .zero, goodMessage, "", ""⟩

def mergeCommit : Commit :=
  ⟨.ofByte 3, [.ofByte 1, .ofByte 2], .zero, composeMergeMessage branchCommit "refs/heads/jam/s/a/b" none, "", ""⟩

def fourCommits (baseMessage : String) : List Commit :=
  [⟨.ofByte 4, [.ofByte 3], .zero, goodMessage, "", ""⟩,
    mergeCommit, branchCommit, ⟨.ofByte 1, [], .zero, baseMessage, "", ""⟩]

theorem fourIds_nodup : [Hash.ofByte 4, Hash.ofByte 3, Hash.ofByte 2, Hash.ofByte 1].Nodup := by decide

theorem fourIds_nonzero : Hash.zero ∉ [Hash.ofByte 4, Hash.ofByte 3, Hash.ofByte 2, Hash.ofByte 1] := by decide

def fourRepo (baseMessage : String) (n : Nat) (refs : List Reference) : Repo where
  commits := (fourCommits baseMessage).drop n
  nodup := by
    rw [map_drop]
    exact fourIds_nodup.sublist (drop_sublist n _)
  nonzero := by
    rw [map_drop]
    exact fun h => fourIds_nonzero (mem_of_mem_drop h)
  tree := fun _ => none
  references := .ok refs
  head := .error .referenceNotFound

theorem fourRepo_staged (baseMessage : String) (n : Nat) (refs : List Reference) :
    Staged (fourRepo baseMessage (n + 1) refs) (fourRepo baseMessage n refs) where
  commits := fun _ hc => (drop_subset_drop_left _ (Nat.le_succ n)) hc
  tree := fun _ _ h => h
  references := rfl

def noFaults : Faults := ⟨none, none, fun _ => none, none⟩

def basePush : RefUpdate := ⟨"refs/heads/jam/s/base", "", "0101010101010101010101010101010101010101"⟩
def branchPush : RefUpdate := ⟨"refs/heads/jam/s/a/b", "", "0202020202020202020202020202020202020202"⟩
def draftPush : RefUpdate := ⟨"refs/heads/jam/s/z/w", "", "0404040404040404040404040404040404040404"⟩

def baseRefs : List Reference :=
  [⟨"refs/heads/jam/s/draft", .hash (.ofByte 1)⟩, ⟨"refs/heads/jam/s/base", .hash (.ofByte 1)⟩]

def branchRefs : List Reference := ⟨"refs/heads/jam/s/a/b", .hash (.ofByte 2)⟩ :: baseRefs

def draftRefs : List Reference :=
  [⟨"refs/heads/jam/s/draft", .hash (.ofByte 3)⟩, ⟨"refs/heads/jam/s/a/b", .hash (.ofByte 2)⟩,
    ⟨"refs/heads/jam/s/base", .hash (.ofByte 1)⟩]

theorem base_reached (baseMessage : String)
    (ha : validate silentLib noLimits ⟨fourRepo baseMessage 3 [], openSession, "a", [basePush], 0, 0⟩ = .ok []) :
    Reached silentLib noLimits openSession (fourRepo baseMessage 3 baseRefs) := by
  refine ⟨fourRepo baseMessage 4 [], rfl, rfl, Relation.ReflTransGen.single ?_⟩
  have hl : seed noFaults openSession.id [basePush] (land [basePush] (fourRepo baseMessage 3 [])) =
      fourRepo baseMessage 3 baseRefs := rfl
  rw [← hl]
  exact Step.push "a" [basePush] [basePush] 0 0 noFaults (fourRepo_staged baseMessage 3 []) ha (List.Sublist.refl _)

theorem draft_reached : Reached silentLib noLimits openSession (fourRepo goodMessage 1 draftRefs) := by
  obtain ⟨start, hc, hr, hb⟩ := base_reached goodMessage (by decide)
  have ha : validate silentLib noLimits ⟨fourRepo goodMessage 2 baseRefs, openSession, "a", [branchPush], 0, 0⟩ = .ok [] := rfl
  have hl : seed noFaults openSession.id [branchPush] (land [branchPush] (fourRepo goodMessage 2 baseRefs)) =
      fourRepo goodMessage 2 branchRefs := rfl
  refine ⟨start, hc, hr, (hb.tail ?_).tail (b := fourRepo goodMessage 2 branchRefs) ?_⟩
  · rw [← hl]
    exact Step.push "a" [branchPush] [branchPush] 0 0 noFaults (fourRepo_staged goodMessage 2 baseRefs) ha
      (List.Sublist.refl _)
  · have ht : (fourRepo goodMessage 2 branchRefs).reference (draftRefName openSession.id) = .ok (.ofByte 1) := by decide
    have harrived : branchCommit ∈ (fourRepo goodMessage 2 branchRefs).commits := by decide
    exact Step.autoMerge "refs/heads/jam/s/a/b" none ht harrived rfl rfl rfl (fun _ _ h => h) rfl

/-- A created branch is refused for the one commit of its history that does not pass, which a ref has. -/
theorem refusedFor_created {disk repo : Repo} {refs : List Reference} {account : String} {u : RefUpdate} {bad : Hash}
    (name : String) (hreached : Reached silentLib noLimits openSession disk) (hstaged : Staged disk repo) (hclosed : repo.Closed)
    (hown : checkRefNamespace repo openSession.id account u.ref = (true, false)) (hold : u.oldSHA = "")
    (hnew : newHash u.newSHA ∈ repo.hashes) (hrefs : repo.references = .ok refs) (ht : ⟨name, .hash bad⟩ ∈ refs)
    (hgood : ∀ c ∈ repo.commits, c.hash ≠ bad → validateCommit silentLib repo c ⟨[]⟩ = [])
    (hr : ∃ r, validate silentLib noLimits ⟨repo, openSession, account, [u], 0, 0⟩ = .ok [r] ∧ r.Names bad) :
    RefusedFor silentLib noLimits openSession disk repo account u bad := by
  have hh : Held repo bad := ⟨refs, hrefs, _, ht, bad, rfl, .refl⟩
  refine ⟨hreached, hstaged, ⟨hown, fun hne => absurd hold hne, hclosed.complete hnew⟩, fun _ hs x _ hf c hc => ?_, hh, hr⟩
  cases hs
  obtain ⟨hm, rfl⟩ := Repo.commitObject_eq_some hc
  exact hgood c hm fun he => hf (he ▸ hh)

set_option maxRecDepth 4000 in
/-- **The first branch on a base without trailers, and a branch on the draft after a merge, are refused** for the base's
commit and for the merge. -/
theorem held_commits_refused :
    RefusedFor silentLib noLimits openSession (fourRepo "start" 3 baseRefs) (fourRepo "start" 2 baseRefs) "a" branchPush
        (.ofByte 1) ∧
      RefusedFor silentLib noLimits openSession (fourRepo goodMessage 1 draftRefs) (fourRepo goodMessage 0 draftRefs) "z"
        draftPush (.ofByte 3) := by
  constructor
  · exact refusedFor_created "refs/heads/jam/s/base" (base_reached "start" (by decide)) (fourRepo_staged "start" 2 baseRefs)
      (by decide) (by decide) rfl (by decide) rfl (by decide) (by decide) ⟨_, rfl, mem_cons_self⟩
  · exact refusedFor_created "refs/heads/jam/s/draft" draft_reached (fourRepo_staged goodMessage 0 draftRefs)
      (by decide) (by decide) rfl (by decide) rfl (by decide) (by decide) ⟨_, rfl, mem_cons_self⟩

end Server
end Jamsesh
