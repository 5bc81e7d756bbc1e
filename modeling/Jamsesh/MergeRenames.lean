import Jamsesh.Resolution
/-!
# MergeRenames — what becomes of a removed path

A rename is filed under its destination alone, so nothing takes its source away.  A path that one side removed and the other
left alone is gone exactly where a deletion is filed under it (`removed_gone_iff`), and a renamed file is at its new path
exactly where what is filed under that path comes to it (`lands_iff`).
-/
namespace Jamsesh.Automerger

open Finmap Git KeyedFold List Option

/-! ## Which paths the merge takes out -/

def Cleared (ours theirs : Option SideChange) : Prop :=
  (ours ≠ none ∨ theirs ≠ none) ∧ (∀ o, ours = some o → o.deleted = true) ∧ ∀ t, theirs = some t → t.deleted = true

/-- Something else than a deletion is filed under the path, or nothing is and the base has it. -/
def Kept (base : Option TreeEntry) (ours theirs : Option SideChange) : Prop :=
  (∃ o, ours = some o ∧ o.deleted = false) ∨ (∃ t, theirs = some t ∧ t.deleted = false) ∨
    (base ≠ none ∧ ours = none ∧ theirs = none)

theorem not_kept_iff {base : Option TreeEntry} {ours theirs : Option SideChange} (hb : base ≠ none) :
    ¬ Kept base ours theirs ↔ Cleared ours theirs := by
  cases ours <;> cases theirs <;> simp [Kept, Cleared, hb]

/-- The sides have filed different changes under the path. -/
def Apart (ours theirs : Option SideChange) : Prop :=
  ∃ o t, ours = some o ∧ theirs = some t ∧ (o.deleted ≠ t.deleted ∨ (o.deleted = false ∧ o.toHash ≠ t.toHash))

/-- What the content merge of two changes leaves at a path: the text is that of `merge-file` or, at a conflict, of the rule
that settles it. -/
def melded (world : World) (p : Path) (base : Option TreeEntry) (o t : SideChange) : Option TreeEntry := do
  let v ← (readVersions world p (entryHash base) o.toHash t.toHash).toOption
  let (merged, numConflicts) ← (world.mergeFile p v.base v.ours v.theirs).toOption
  let (site, text) ← if numConflicts = 0 then some (WriteSite.merged, merged)
    else (tryAutoResolve world.diff v.base v.ours v.theirs).map (fun r => (.resolved, r.1))
  let h ← (world.writeBlob p site text).toOption
  return ⟨h, o.mode⟩

/-- **What is filed under a path comes to an entry**: the one change does, or the content merge of two. -/
def Lands (world : World) (p : Path) (base : Option TreeEntry) (ours theirs : Option SideChange) (e : Option TreeEntry) : Prop :=
  (¬ Apart ours theirs ∧ ∃ sc, ours.or theirs = some sc ∧ sc.entry = e) ∨
    ∃ o t, ours = some o ∧ theirs = some t ∧ o.deleted = false ∧ t.deleted = false ∧ o.toHash ≠ t.toHash ∧
      melded world p base o t = e

variable {p a b : Path}

theorem Settled.put_ne_none_iff {diff : MergeDiff} {e : Effect TreeEntry Note} (h : Settled diff p e)
    (hard : ∀ c, Sum.inl c ∉ e.out) (cur : Option TreeEntry) :
    e.put.getD cur ≠ none ↔ Kept cur (diff.ourChanges.lookup p) (diff.theirChanges.lookup p) := by
  cases h with
  | untouched ho ht => simp [Kept, ho, ht]
  | theirs ho ht | ours ho ht => simp [Kept, ho, ht, ← Bool.not_eq_true, SideChange.deleted_iff]
  | bothDeleted ho ht hod htd => simp [Kept, ho, ht, hod, htd]
  | hard => exact absurd mem_cons_self (hard ⟨p, []⟩)
  | identical ho _ hod | merged ho _ hod | conflicted ho _ hod => simp [Kept, ho, hod]

theorem mem_hardOf {c : Conflict} {log : List Note} : c ∈ hardOf log ↔ Sum.inl c ∈ log := by
  rw [hardOf, mem_filterMap]
  constructor
  · rintro ⟨d | _, hm, hg⟩
    · cases hg
      exact hm
    · cases hg
  · exact fun h => ⟨_, h, rfl⟩

theorem Settled.put_of_conflicted {diff : MergeDiff} {e : Effect TreeEntry Note} (h : Settled diff p e)
    {cf : ConflictedFile} (hin : Sum.inr cf ∈ e.out) : ∃ x, e.put = some (some x) := by
  cases h with
  | conflicted _ _ _ _ _ x => exact ⟨x, rfl⟩
  | hard => cases mem_singleton.1 hin
  | _ => cases hin

theorem Settled.put_of_same {diff : MergeDiff} {e : Effect TreeEntry Note} (h : Settled diff p e)
    (hsame : ¬ Apart (diff.ourChanges.lookup p) (diff.theirChanges.lookup p)) (cur : Option TreeEntry) :
    e.put.getD cur = ((diff.ourChanges.lookup p).or (diff.theirChanges.lookup p)).elim cur SideChange.entry ∧
      ∀ cf, Sum.inr cf ∉ e.out := by
  cases h with
  | untouched ho ht | theirs ho ht | ours ho ht => simp [ho, ht]
  | bothDeleted ho ht hod => simp [ho, (SideChange.deleted_iff _).1 hod]
  | hard ho ht hd => exact absurd ⟨_, _, ho, ht, .inl hd⟩ hsame
  | identical ho ht hod => simp [ho, SideChange.entry_of_not_deleted hod]
  | merged ho ht hod _ hne | conflicted ho ht hod _ hne => exact absurd ⟨_, _, ho, ht, .inr ⟨hod, hne⟩⟩ hsame

theorem no_hard {world : World} {m : FlatTree} {log : List Note} {r : MergeResult}
    (h : conclude world (toState m log) = .ok r) (hkind : r.kind ≠ .hardConflict) (c : Conflict) : Sum.inl c ∉ log := by
  intro hc
  have hc' : c ∈ (toState m log).hardConflicts := mem_hardOf.2 hc
  obtain ⟨_, hr', hk, -⟩ := conclude_hard hc'
  rw [hr'] at h
  cases h
  exact hkind hk

theorem conclude_resolved {world : World} {st : MergeState} {r : MergeResult} (hw : world.Writes .resolved)
    (h : conclude world st = .ok r) (hkind : r.kind ≠ .hardConflict)
    (hnd : (st.conflictedFiles.map ConflictedFile.path).Nodup) {cf : ConflictedFile} (hcf : cf ∈ st.conflictedFiles) :
    Resolved world cf r.mergedEntries := by
  have hwritten : ∀ c ∈ st.conflictedFiles, written world c = true := by
    intro c _
    unfold written
    split
    · rfl
    · rename_i text _ _
      obtain ⟨_, hx⟩ := hw c.path text
      rw [hx]
      rfl
  have htake := takeWhile_eq_self_iff.2 hwritten
  have hno := mt (conclude_kind h).2 hkind
  rw [not_or, Stuck, htake] at hno
  rw [conclude_left h hkind]
  exact resolveLoop_settles world _ _ hnd cf (htake.symm ▸ hcf) (by simpa using fun hu => hno.2 ⟨cf, hcf, hu⟩)

section
variable {world : World} {diff : MergeDiff} {order : List Path} (horder : diff.Order order)

include horder

theorem mergeDiff_ne_none_iff {r : MergeResult} (h : mergeDiff world diff order = .ok r) (hkind : r.kind ≠ .hardConflict)
    (p : Path) : r.mergedEntries.lookup p ≠ none ↔
      Kept (diff.mergedEntries.lookup p) (diff.ourChanges.lookup p) (diff.theirChanges.lookup p) := by
  obtain ⟨m, log, hrun, h⟩ := mergeDiff_run h
  have hr := ran_of_run horder.nodup hrun
  have hm : m.lookup p ≠ none ↔
      Kept (diff.mergedEntries.lookup p) (diff.ourChanges.lookup p) (diff.theirChanges.lookup p) := by
    by_cases hp : p ∈ order
    · rw [hr.entry p hp]
      exact (hr.settled p hp).put_ne_none_iff (fun c hc => no_hard h hkind c (hr.mem_log hp hc)) _
    · obtain ⟨ho, ht⟩ := unchanged_of_not_mem horder hp
      simp [hr.frame p hp, Kept, ho, ht]
  rw [← hm]
  constructor
  · -- an empty path is not in conflict, so nothing after the loop touches it
    refine mt fun hn => ?_
    have hconf : p ∉ (conflictedOf log).map ConflictedFile.path := hr.not_conflicted fun hp _ hin => by
      obtain ⟨x, hx⟩ := (hr.settled p hp).put_of_conflicted hin
      rw [hr.entry p hp, hx] at hn
      cases hn
    rw [conclude_frame h hconf]
    exact hn
  · exact fun hs => isSome_iff_ne_none.1 (conclude_isSome h (isSome_iff_ne_none.2 hs))

theorem mergeDiff_none_iff {r : MergeResult} (h : mergeDiff world diff order = .ok r) (hkind : r.kind ≠ .hardConflict)
    (hbase : diff.mergedEntries.lookup p ≠ none) :
    r.mergedEntries.lookup p = none ↔ Cleared (diff.ourChanges.lookup p) (diff.theirChanges.lookup p) := by
  rw [← not_kept_iff hbase, ← mergeDiff_ne_none_iff horder h hkind, not_not]

theorem mergeDiff_entry {r : MergeResult} (h : mergeDiff world diff order = .ok r)
    (hsame : ¬ Apart (diff.ourChanges.lookup p) (diff.theirChanges.lookup p)) : r.mergedEntries.lookup p =
      ((diff.ourChanges.lookup p).or (diff.theirChanges.lookup p)).elim (diff.mergedEntries.lookup p) SideChange.entry := by
  obtain ⟨m, log, hr, h⟩ := mergeDiff_run h
  have hran := ran_of_run horder.nodup hr
  have hc : p ∉ (conflictedOf log).map ConflictedFile.path :=
    hran.not_conflicted fun hp => ((hran.settled p hp).put_of_same hsame none).2
  rw [conclude_frame h hc, toState_mergedEntries]
  by_cases hp : p ∈ order
  · rw [hran.entry p hp]
    exact ((hran.settled p hp).put_of_same hsame _).1
  · obtain ⟨ho, ht⟩ := unchanged_of_not_mem horder hp
    rw [hran.frame p hp, ho, ht]
    rfl

/-- Of two different changes at a path, a merge without a hard conflict makes the content merge. -/
theorem mergeDiff_melded (hw : world.Writes .resolved) {r : MergeResult} (h : mergeDiff world diff order = .ok r)
    (hkind : r.kind ≠ .hardConflict) {o t : SideChange} (ho : diff.ourChanges.lookup p = some o)
    (ht : diff.theirChanges.lookup p = some t)
    (hapart : o.deleted ≠ t.deleted ∨ (o.deleted = false ∧ o.toHash ≠ t.toHash)) :
    o.deleted = false ∧ t.deleted = false ∧ o.toHash ≠ t.toHash ∧
      r.mergedEntries.lookup p = melded world p (diff.mergedEntries.lookup p) o t := by
  obtain ⟨m, log, hrun, h⟩ := mergeDiff_run h
  have hran := ran_of_run horder.nodup hrun
  have hp : p ∈ order := mem_order_of_changed horder (.inl (by simp [ho]))
  have heff := (run_spec id (pathEffect world diff) order _ m [] log (by simpa using horder.nodup) hrun).effect p hp
  have hentry := hran.entry p hp
  have hlog : ∀ n ∈ (effectAt id (pathEffect world diff) diff.mergedEntries p).out, n ∈ log := fun _ => hran.mem_log hp
  have hnot := hran.not_conflicted (p := p)
  generalize effectAt id (pathEffect world diff) diff.mergedEntries p = e at heff hentry hlog hnot
  have hd : o.deleted = t.deleted := by
    by_contra hd
    cases pathEffect_settled heff with
    | hard => exact no_hard h hkind _ (hlog _ mem_cons_self)
    | _ => simp_all
  obtain ⟨hod, hne⟩ := hapart.resolve_left (not_not.2 hd)
  have htd := hd.symm.trans hod
  refine ⟨hod, htd, hne, ?_⟩
  simp only [pathEffect, ho, ht, hod, htd, Bool.and_self, Bool.or_self, Bool.false_eq_true, if_false, if_neg hne, id] at heff
  obtain ⟨v, ⟨merged, n⟩, x, hv, hm, hx, rfl⟩ := threeWayEffect_ok heff
  by_cases hn : n = 0
  · rw [conclude_frame h (hnot fun _ cf hcf => by simp [hn] at hcf), toState_mergedEntries, hentry]
    have hblob : world.writeBlob p .merged merged = .ok x := by
      cases hb : world.writeBlob p .merged merged <;> simp_all [writeMerged, wrapErr]
    simp [melded, hv, hm, hn, hblob, Except.toOption]
  · have hcf := hlog (.inr ⟨p, v.base, v.ours, v.theirs, o.mode, parseConflictRanges merged⟩) (by simp [hn])
    obtain ⟨text, _, y, htext, hy, hl⟩ := conclude_resolved hw h hkind (hran.nodup horder.nodup) (mem_conflictedOf.2 hcf)
    rw [hl]
    simp [melded, hv, hm, hn, htext, hy, Except.toOption]

end

/-! ## Removed and renamed files -/

def Removed (base ours theirs : Option TreeEntry) : Prop :=
  base ≠ none ∧ ((ours = none ∧ theirs = base) ∨ (theirs = none ∧ ours = base))

/-- The change list has a rename of `a` to `b`: one change with the two names. -/
def Renames (changes : List Change) (a b : Path) : Prop :=
  ∃ ch ∈ changes, ∃ e e', ch.fromEntry = some e ∧ ch.toEntry = some e' ∧ e.name = a ∧ e'.name = b ∧ a ≠ b

/-- **A change list with renames**: a renamed file is gone from its old path. -/
structure RenameDiff (base t : Tree) (changes : List Change) : Prop extends IsDiff base t changes where
  moved : ∀ a b, Renames changes a b → t.entryAt a = none

/-- **Files removed by one side and left alone by the other are gone.** -/
def RemovalsKept (base ours theirs : Tree) (m : FlatTree) : Prop :=
  ∀ p, Removed (base.entryAt p) (ours.entryAt p) (theirs.entryAt p) → m.lookup p = none

/-- A rename of which the other side has left both paths alone. -/
def RenamesAlone (base other : Tree) (changes : List Change) (a b : Path) : Prop :=
  Renames changes a b ∧ other.entryAt a = base.entryAt a ∧ other.entryAt b = base.entryAt b

/-- **Files renamed by one side and left alone by the other** are at their new path, as that side has them, and not at the
old one. -/
def RenamesKept (base side other : Tree) (changes : List Change) (m : FlatTree) : Prop :=
  ∀ a b, RenamesAlone base other changes a b → m.lookup b = side.entryAt b ∧ m.lookup a = none

/-- **Deletions, and nothing else, are filed under the paths that are to go.** -/
def RemovalsFiled (hasBlob : Hash → Bool) (base ours theirs : Tree) (chsO chsT : List Change) : Prop :=
  ∀ p, Removed (base.entryAt p) (ours.entryAt p) (theirs.entryAt p) →
    Cleared (lastFiled hasBlob chsO p) (lastFiled hasBlob chsT p)

/-- **What is filed under the new path of a renamed file comes to that file.** -/
def RenamesFiled (world : World) (base side other : Tree) (changes chsO chsT : List Change) : Prop :=
  ∀ a b, RenamesAlone base other changes a b → Lands world b (base.entryAt b) (lastFiled world.hasBlob chsO b)
    (lastFiled world.hasBlob chsT b) (side.entryAt b)

/-- **A merge of three commits**, with their trees and the change lists of the two sides. -/
structure RenamingMerge (world : World) (repo : Repo) (source draftTip ancestor : Commit) (base ours theirs : Tree)
    (chsO chsT : List Change) : Prop where
  sourceMem : source ∈ repo.commits
  draftMem : draftTip ∈ repo.commits
  ancestorMem : ancestor ∈ repo.commits
  ancestorTree : repo.treeOf ancestor = some base
  draftTree : repo.treeOf draftTip = some ours
  sourceTree : repo.treeOf source = some theirs
  oursDiff : world.diffTree (some base) ours = .ok chsO
  theirsDiff : world.diffTree (some base) theirs = .ok chsT
  oursChanges : RenameDiff base ours chsO
  theirsChanges : RenameDiff base theirs chsT

section
variable {base t : Tree} {changes : List Change} (hdiff : RenameDiff base t changes)

theorem Renames.destination (h : Renames changes a b) : Destination changes b := by
  obtain ⟨ch, hch, e, e', -, ht, -, hb, -⟩ := h
  exact ⟨ch, hch, e', by rw [Change.named, ht]; rfl, hb⟩

include hdiff

theorem RenameDiff.base_isSome (h : Renames changes a b) : base.entryAt a ≠ none := by
  obtain ⟨ch, hch, e, _, hf, -, rfl, -, -⟩ := h
  rw [(hdiff.fromEntry ch hch e hf).2]
  simp

theorem RenameDiff.destination_ne (h : Renames changes a b) : base.entryAt b ≠ t.entryAt b :=
  (hdiff.differs b).2 (.inl h.destination)

end

section
variable {world : World} {base ours theirs : Tree} {diff : MergeDiff} {chsO chsT : List Change} {order : List Path}
  {r : MergeResult} (hmade : MadeFrom world base ours theirs diff chsO chsT) (horder : diff.Order order)
  (h : mergeDiff world diff order = .ok r) (hkind : r.kind ≠ .hardConflict)

include hmade horder h hkind

omit horder h hkind in
theorem filed_lookup (p : Path) : diff.ourChanges.lookup p = lastFiled world.hasBlob chsO p ∧
    diff.theirChanges.lookup p = lastFiled world.hasBlob chsT p := by
  rw [buildSideChanges_lookup p hmade.ourChanges, buildSideChanges_lookup p hmade.theirChanges, lookup_empty, or_none, or_none]
  exact ⟨rfl, rfl⟩

theorem removed_gone_iff (hb : base.entryAt p ≠ none) : r.mergedEntries.lookup p = none ↔
    Cleared (lastFiled world.hasBlob chsO p) (lastFiled world.hasBlob chsT p) := by
  have hf : diff.mergedEntries.lookup p ≠ none := by
    rw [hmade.flat]
    exact hb
  rw [mergeDiff_none_iff horder h hkind hf, (filed_lookup hmade p).1, (filed_lookup hmade p).2]

theorem lands_iff (hw : world.Writes .resolved ∨ ¬ Apart (lastFiled world.hasBlob chsO p) (lastFiled world.hasBlob chsT p))
    {e : Option TreeEntry} (hne : base.entryAt p ≠ e) : r.mergedEntries.lookup p = e ↔
      Lands world p (base.entryAt p) (lastFiled world.hasBlob chsO p) (lastFiled world.hasBlob chsT p) e := by
  have hflat : diff.mergedEntries.lookup p = base.entryAt p := by
    rw [hmade.flat]
    rfl
  rw [← (filed_lookup hmade p).1, ← (filed_lookup hmade p).2] at hw ⊢
  by_cases ha : Apart (diff.ourChanges.lookup p) (diff.theirChanges.lookup p)
  · obtain ⟨o, t, ho, ht, hapart⟩ := id ha
    obtain ⟨hod, htd, hne', hl⟩ := mergeDiff_melded horder (hw.resolve_right (not_not.2 ha)) h hkind ho ht hapart
    rw [hl, hflat]
    rw [ho, ht] at ha ⊢
    simp [Lands, ha, hod, htd, hne']
  · rw [mergeDiff_entry horder h ha, hflat]
    constructor
    · intro he
      refine .inl ⟨ha, ?_⟩
      cases hsc : (diff.ourChanges.lookup p).or (diff.theirChanges.lookup p) with
      | none => exact absurd (by rw [hsc] at he; exact he) hne
      | some sc => exact ⟨sc, rfl, by rw [hsc] at he; exact he⟩
    · rintro (⟨-, sc, hsc, he⟩ | ⟨o, t, ho, ht, hod, -, hne', -⟩)
      · rw [hsc]
        exact he
      · exact absurd ⟨o, t, ho, ht, .inr ⟨hod, hne'⟩⟩ ha

end

/-! ## The merge of three commits -/

section
variable {world : World} {repo : Repo} {source draftTip ancestor : Commit} {base ours theirs : Tree}
  {chsO chsT : List Change} (hmerge : RenamingMerge world repo source draftTip ancestor base ours theirs chsO chsT)

theorem commit_eq_of_hash {a b : Commit} (ha : a ∈ repo.commits) (hb : b ∈ repo.commits) (h : a.hash = b.hash) : a = b :=
  inj_on_of_nodup_map repo.nodup ha hb h

theorem no_rename_of_same {t : Tree} {changes : List Change} (hdiff : RenameDiff base t changes) (h : t = base) :
    ¬ Renames changes a b := fun hab =>
  (hdiff.differs b).2 (.inl hab.destination) (by rw [h])

include hmerge

section
variable {order : List Path} {r : MergeResult} (h : merge world repo source draftTip ancestor order = .ok r)
include h

theorem shortCircuit_keeps (hshort : source.hash = ancestor.hash ∨ draftTip.hash = ancestor.hash) :
    (r.mergedEntries = ours.flat ∧ theirs = base) ∨ (r.mergedEntries = theirs.flat ∧ ours = base) := by
  by_cases hs : source.hash = ancestor.hash
  · have heq : theirs = base := by
      have := hmerge.sourceTree
      rw [commit_eq_of_hash hmerge.sourceMem hmerge.ancestorMem hs, hmerge.ancestorTree] at this
      exact (some.inj this).symm
    simp only [merge, tryShortCircuit, if_pos hs, hmerge.draftTree] at h
    cases h
    exact .inl ⟨rfl, heq⟩
  · have hd := hshort.resolve_left hs
    have heq : ours = base := by
      have := hmerge.draftTree
      rw [commit_eq_of_hash hmerge.draftMem hmerge.ancestorMem hd, hmerge.ancestorTree] at this
      exact (some.inj this).symm
    simp only [merge, tryShortCircuit, if_neg hs, if_pos hd, hmerge.sourceTree] at h
    cases h
    exact .inr ⟨rfl, heq⟩

theorem shortCircuit_all (hs : source.hash = ancestor.hash ∨ draftTip.hash = ancestor.hash) :
    RemovalsKept base ours theirs r.mergedEntries ∧ RenamesKept base ours theirs chsO r.mergedEntries ∧
      RenamesKept base theirs ours chsT r.mergedEntries := by
  rcases shortCircuit_keeps hmerge h hs with ⟨hr, heq⟩ | ⟨hr, heq⟩
  · rw [hr]
    refine ⟨?_, fun a b hab => ⟨rfl, hmerge.oursChanges.moved a b hab.1⟩, fun a b hab =>
      absurd hab.1 (no_rename_of_same hmerge.theirsChanges heq)⟩
    rintro p ⟨hb, ⟨ho, -⟩ | ⟨ht, -⟩⟩
    · exact ho
    · rw [heq] at ht
      exact absurd ht hb
  · rw [hr]
    refine ⟨?_, fun a b hab => absurd hab.1 (no_rename_of_same hmerge.oursChanges heq), fun a b hab =>
      ⟨rfl, hmerge.theirsChanges.moved a b hab.1⟩⟩
    rintro p ⟨hb, ⟨ho, -⟩ | ⟨ht, -⟩⟩
    · rw [heq] at ho
      exact absurd ho hb
    · exact ht

theorem merge_madeFrom (hit : Iterates world repo source draftTip ancestor order)
    (hs : ¬ (source.hash = ancestor.hash ∨ draftTip.hash = ancestor.hash)) :
    ∃ diff, MadeFrom world base ours theirs diff chsO chsT ∧ diff.Order order ∧ mergeDiff world diff order = .ok r := by
  rw [not_or] at hs
  obtain ⟨diff, hd, h⟩ := merge_run hs.1 hs.2 h
  have hdt := hd
  rw [computeMergeDiff_eq hmerge.ancestorTree hmerge.draftTree hmerge.sourceTree] at hdt
  obtain ⟨chsO', chsT', hmade⟩ := diffTrees_ok hdt
  have ho : chsO' = chsO := by
    have := hmade.oursDiff
    rw [hmerge.oursDiff] at this
    exact (Except.ok.inj this).symm
  have ht : chsT' = chsT := by
    have := hmade.theirsDiff
    rw [hmerge.theirsDiff] at this
    exact (Except.ok.inj this).symm
  subst ho ht
  exact ⟨diff, hmade, hit diff hd, h⟩

end

/-- **Removed and renamed files in a merge without a hard conflict**: unless it short-circuits, the files that one side
removed and the other left alone are gone exactly when each has a deletion, and nothing else, filed under its path; and, where
resolved texts can be written or no new path of a renamed file has two different changes filed under it, the renamed files are
at their new paths exactly when what is filed there comes to them. -/
theorem removals_kept_iff {order : List Path} {r : MergeResult}
    (hit : Iterates world repo source draftTip ancestor order)
    (h : merge world repo source draftTip ancestor order = .ok r) (hkind : r.kind ≠ .hardConflict) :
    (RemovalsKept base ours theirs r.mergedEntries ↔ (source.hash = ancestor.hash ∨ draftTip.hash = ancestor.hash) ∨
        RemovalsFiled world.hasBlob base ours theirs chsO chsT) ∧
    ((source.hash = ancestor.hash ∨ draftTip.hash = ancestor.hash) ∨ world.Writes .resolved ∨
        (∀ a b, RenamesAlone base theirs chsO a b ∨ RenamesAlone base ours chsT a b →
          ¬ Apart (lastFiled world.hasBlob chsO b) (lastFiled world.hasBlob chsT b)) →
      (RemovalsKept base ours theirs r.mergedEntries ∧ RenamesKept base ours theirs chsO r.mergedEntries ∧
          RenamesKept base theirs ours chsT r.mergedEntries ↔
        (source.hash = ancestor.hash ∨ draftTip.hash = ancestor.hash) ∨
          (RemovalsFiled world.hasBlob base ours theirs chsO chsT ∧
            RenamesFiled world base ours theirs chsO chsO chsT ∧ RenamesFiled world base theirs ours chsT chsO chsT))) := by
  by_cases hs : source.hash = ancestor.hash ∨ draftTip.hash = ancestor.hash
  · have ha := shortCircuit_all hmerge h hs
    exact ⟨⟨fun _ => .inl hs, fun _ => ha.1⟩, fun _ => ⟨fun _ => .inl hs, fun _ => ha⟩⟩
  · obtain ⟨_, hmade, horder, hrun⟩ := merge_madeFrom hmerge h hit hs
    have hours := hmerge.oursChanges
    have htheirs := hmerge.theirsChanges
    have hgone : RemovalsKept base ours theirs r.mergedEntries ↔ RemovalsFiled world.hasBlob base ours theirs chsO chsT :=
      forall_congr' fun p => forall_congr' fun hp => removed_gone_iff hmade horder hrun hkind hp.1
    refine ⟨by rw [or_iff_right hs, hgone], fun hsame => ?_⟩
    replace hsame := hsame.resolve_left hs
    rw [or_iff_right hs, ← hgone]
    refine and_congr_right fun hk => and_congr (forall₃_congr fun a b hab => ?_) (forall₃_congr fun a b hab => ?_)
    · rw [and_iff_left (hk a ⟨hours.base_isSome hab.1, .inl ⟨hours.moved a b hab.1, hab.2.1⟩⟩)]
      exact lands_iff hmade horder hrun hkind (hsame.imp_right fun hs => hs a b (.inl hab)) (hours.destination_ne hab.1)
    · rw [and_iff_left (hk a ⟨htheirs.base_isSome hab.1, .inr ⟨htheirs.moved a b hab.1, hab.2.1⟩⟩)]
      exact lands_iff hmade horder hrun hkind (hsame.imp_right fun hs => hs a b (.inr hab)) (htheirs.destination_ne hab.1)

end

/-! ## A rename against an edit of another file -/

theorem plainDiff_no_renames (base t : Tree) (a b : Path) : ¬ Renames (plainDiff (some base) t) a b := by
  rintro ⟨_, hch, e, e', he, he', rfl, rfl, hne⟩
  obtain ⟨p, -, rfl⟩ := mem_diff.1 hch
  have h1 := ((base.find_spec p).2 e he).1
  have h2 := ((t.find_spec p).2 e' he').1
  exact hne (h1.trans h2.symm)

theorem plainDiff_renameDiff (base t : Tree) : RenameDiff base t (plainDiff (some base) t) where
  toIsDiff := plainDiff_isDiff base t
  moved := fun a b h => absurd h (plainDiff_no_renames base t a b)

def paths (ch : Change) : List Path := (ch.fromEntry.toList ++ ch.toEntry.toList).map (·.name)

theorem mem_paths {changes : List Change} : p ∈ changes.flatMap paths ↔
    Destination changes p ∨ ∃ ch ∈ changes, ∃ e, ch.fromEntry = some e ∧ e.name = p := by
  simp only [mem_flatMap, paths, List.mem_map, mem_append, mem_toList]
  constructor
  · rintro ⟨ch, hch, e, he | he, rfl⟩
    · exact .inr ⟨ch, hch, e, he, rfl⟩
    · exact .inl ⟨ch, hch, e, by rw [Change.named, he]; rfl, rfl⟩
  · rintro (⟨ch, hch, e, he, rfl⟩ | ⟨ch, hch, e, he, rfl⟩)
    · exact ⟨ch, hch, e, (or_eq_some_iff.1 he).symm.imp And.right id, rfl⟩
    · exact ⟨ch, hch, e, .inl he, rfl⟩

/-- A change list with the paths of the plain one. -/
theorem renameDiff_of_paths {base t : Tree} {changes : List Change}
    (hpaths : (changes.flatMap paths).toFinset = ((plainDiff (some base) t).flatMap paths).toFinset)
    (hentries : ∀ ch ∈ changes, (Change.named ch).isSome ∧
      (∀ e ∈ ch.fromEntry, (e ∈ base.entries ∧ base.entryAt e.name = some e.entry) ∧
        (ch.toEntry.map (·.name) ≠ some e.name → t.entryAt e.name = none)) ∧
      ∀ e ∈ ch.toEntry, e ∈ t.entries ∧ t.entryAt e.name = some e.entry) : RenameDiff base t changes where
  differs p := by
    rw [(plainDiff_isDiff base t).differs p, ← mem_paths, ← mem_paths, ← List.mem_toFinset, ← hpaths, List.mem_toFinset]
  nonempty ch hch := isSome_iff_exists.1 (hentries ch hch).1
  fromEntry ch hch e he := ((hentries ch hch).2.1 e he).1
  toEntry ch hch e he := (hentries ch hch).2.2 e he
  deleted ch hch hto e he := ((hentries ch hch).2.1 e he).2 (by simp [hto])
  moved := by
    rintro a b ⟨ch, hch, e, e', he, he', rfl, rfl, hne⟩
    exact ((hentries ch hch).2.1 e he).2 (by simpa [he'] using hne.symm)

def originalTree : Tree := ⟨.file "a" (regular 1) (.file "c" (regular 2) .nil), rfl⟩
def renamedTree : Tree := ⟨.file "b" (regular 1) (.file "c" (regular 2) .nil), rfl⟩
def editedTree : Tree := ⟨.file "a" (regular 1) (.file "c" (regular 3) .nil), rfl⟩

def pairedRename : Change := ⟨some ⟨"a", "a", regular 1⟩, some ⟨"b", "b", regular 1⟩⟩

def renameWorld : World :=
  { plainWorld with
    diffTree := fun parent t => .ok (if (t.entryAt "b").isSome then [pairedRename] else plainDiff parent t) }

def renameRepo : Repo := threeCommits originalTree renamedTree editedTree

theorem twoFiles_lookup {x y : Path} {a b : TreeEntry} (p : Path) :
    (((∅ : FlatTree).insert x a).insert y b).lookup p = if p = y then some b else if p = x then some a else none := by
  rw [FlatTree.lookup_insert, FlatTree.lookup_insert, lookup_empty]

def renameMerged : FlatTree :=
  (((originalTree.flat).insert "b" (regular 1)).insert "c" (regular 3))

theorem renameRun : ∃ h, merge renameWorld renameRepo source₃ draft₂
    base₁ ["b", "c"] = .ok ⟨.cleanMerge, some h, none, [], renameMerged⟩ := by
  have hm : Placed renameMerged := placed_of_keys (by decide)
  have hw : Stores renameWorld true (fun _ => .ofByte 8) := ⟨fun _ _ => rfl⟩
  exact hm.finish_ok (by decide) hw []

def bothTree : Tree := ⟨.file "a" (regular 1) (.dir "x" (.file "a" (regular 2) .nil) .nil), rfl⟩

def movedTree : Tree := ⟨.file "b" (regular 1) .nil, rfl⟩

def movedChanges : List Change := [pairedRename, ⟨some ⟨"x/a", "a", regular 2⟩, none⟩]

def movedWorld : World :=
  { plainWorld with
    diffTree := fun parent t => .ok (if (t.entryAt "b").isSome then movedChanges else plainDiff parent t) }

def movedMerged : FlatTree := (bothTree.flat.erase "a").insert "b" (regular 1)

def movedRepo : Repo := threeCommits bothTree movedTree (fileTree 1)

theorem movedMerge : RenamingMerge movedWorld movedRepo source₃ draft₂ base₁ bothTree movedTree (fileTree 1) movedChanges
    (plainDiff (some bothTree) (fileTree 1)) where
  sourceMem := by decide
  draftMem := by decide
  ancestorMem := by decide
  ancestorTree := rfl
  draftTree := rfl
  sourceTree := rfl
  oursDiff := rfl
  theirsDiff := rfl
  oursChanges := renameDiff_of_paths (by decide) (by decide)
  theirsChanges := plainDiff_renameDiff _ _

theorem movedRun : ∃ h, merge movedWorld movedRepo source₃ draft₂ base₁ ["a", "b"] =
    .ok ⟨.cleanMerge, some h, none, [], movedMerged⟩ := by
  have hm : Placed movedMerged := placed_of_keys (by decide)
  have hw : Stores movedWorld true (fun _ => .ofByte 8) := ⟨fun _ _ => rfl⟩
  exact hm.finish_ok (by decide) hw []

/-- Both sides delete `x/a`, which is filed under `a`, and the draft renames `a`. -/
theorem removals_kept_iff_moved : ∃ r, merge movedWorld movedRepo source₃ draft₂ base₁ ["a", "b"] = .ok r ∧
    RemovalsKept bothTree movedTree (fileTree 1) r.mergedEntries ∧
      RenamesKept bothTree movedTree (fileTree 1) movedChanges r.mergedEntries := by
  obtain ⟨h, hr⟩ := movedRun
  have hrename : ∀ a b, Renames movedChanges a b → b = "b" := by
    have hnames : ∀ ch ∈ movedChanges, ∀ e ∈ ch.toEntry, e.name = "b" := by decide
    rintro a b ⟨ch, hch, _, e, -, he, -, rfl, -⟩
    exact hnames ch hch e he
  have hnone : lastFiled movedWorld.hasBlob (plainDiff (some bothTree) (fileTree 1)) "b" = none := by decide
  have hwrites : movedWorld.Writes .resolved := fun _ _ => ⟨_, rfl⟩
  have hkept := (removals_kept_iff movedMerge (iterates_of rfl (by decide) (by decide)) hr (by simp)).2 (.inr (.inl hwrites))
  refine ⟨_, hr, (and_assoc.2 (hkept.2 (.inr ⟨?_, ?_, ?_⟩))).1⟩
  · rintro p ⟨hbase, hremoved⟩
    have hp : bothTree.entryAt p = if p = "x/a" then some (regular 2) else if p = "a" then some (regular 1) else none :=
      twoFiles_lookup p
    by_cases hx : p = "x/a"
    · subst hx
      exact absurd hremoved (by decide)
    by_cases ha : p = "a"
    · subst ha
      have hours : ∀ o ∈ lastFiled movedWorld.hasBlob movedChanges "a", o.deleted = true := by decide
      have htheirs : ∀ t ∈ lastFiled movedWorld.hasBlob (plainDiff (some bothTree) (fileTree 1)) "a", t.deleted = true := by decide
      exact ⟨.inl (by decide), hours, htheirs⟩
    · rw [hp, if_neg hx, if_neg ha] at hbase
      exact absurd rfl hbase
  · intro a b hab
    rw [hrename a b hab.1]
    refine .inl ⟨?_, _, rfl, by decide⟩
    rintro ⟨_, _, -, ht, -⟩
    cases hnone.symm.trans ht
  · exact fun a b hab => absurd hab.1 (plainDiff_no_renames _ _ a b)

/-- **A renamed file comes back.**  The draft renames `a` to `b`, the source edits `c`, and the clean merge of the two has
`a` as well as `b`. -/
theorem renamed_file_comes_back : ∃ r,
    merge renameWorld renameRepo source₃ draft₂ base₁ ["b", "c"] = .ok r ∧
      r.kind = .cleanMerge ∧ RenameDiff originalTree renamedTree [pairedRename] ∧ Renames [pairedRename] "a" "b" ∧
      editedTree.entryAt "a" = originalTree.entryAt "a" ∧ editedTree.entryAt "b" = originalTree.entryAt "b" ∧
      r.mergedEntries.lookup "a" = some (regular 1) ∧
      ¬ RemovalsKept originalTree renamedTree editedTree r.mergedEntries := by
  obtain ⟨h, hr⟩ := renameRun
  have hs : renameMerged.lookup "a" = some (regular 1) := by decide
  have hd : RenameDiff originalTree renamedTree [pairedRename] := renameDiff_of_paths (by decide) (by decide)
  refine ⟨_, hr, rfl, hd, ⟨_, mem_cons_self, _, _, rfl, rfl, rfl, rfl, by decide⟩, by decide, by decide, hs, fun hk => ?_⟩
  have hg := hk "a" ⟨by decide, .inl ⟨by decide, by decide⟩⟩
  exact absurd (hs.symm.trans hg) (by simp)

end Jamsesh.Automerger
