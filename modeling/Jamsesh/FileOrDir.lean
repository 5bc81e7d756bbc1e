import Jamsesh.MergeRenames
import Jamsesh.TreeTrip
/-!
# FileOrDir — a path that is a file on one side and a directory on the other

The merge settles each path on its own and never compares it with the paths below it.  Which paths come out is known from the
filed changes (`mergeDiff_ne_none_iff`), and when it is a hard conflict from the contested files (`mergeDiff_kind`); so it can
be said when a path is a file and a directory at once (`kinds_kept_iff`).
-/
namespace Jamsesh.Automerger

open BottomUp Finmap Git KeyedFold List

/-! ## Files and directories -/

def PrefixFree (m : FlatTree) : Prop := ∀ p q, p ∈ m → p ++ "/" ++ q ∉ m

def HasDir (t : Tree) (p : Path) : Prop := ∃ q, t.entryAt (p ++ "/" ++ q) ≠ none

/-- **A directory against a file**: a side makes a directory of a path that was none, where the other side has a file. -/
def DirAgainstFile (base side other : Tree) : Prop := ∃ p, HasDir side p ∧ ¬ HasDir base p ∧ other.entryAt p ≠ none

theorem prefixFree_flat (t : Tree) : PrefixFree t.flat := by
  intro p q hp hq
  obtain ⟨n, hn⟩ := exists_dir_above hq (mem_dirsAbove.2 ⟨q, rfl⟩)
  exact file_not_dir hp n hn

/-- **In a map of valid paths** no path is a file and a directory at once exactly when no directory of its tree has two
entries of one name. -/
theorem prefixFree_iff_nodup {m : FlatTree} (hm : Placed m) : PrefixFree m ↔ ∀ d, (namesAt m d).Nodup := by
  simp only [hm.nodup_names_iff, Clashes, mem_children, mem_dirList, parentDir_eq_some]
  constructor
  · rintro hf d ⟨p, hp, rfl | ⟨_, hp', ha⟩, hne, -⟩
    · exact hne rfl
    · obtain ⟨q, rfl⟩ := mem_dirsAbove.1 ha
      exact hf p q hp hp'
  · intro h p q hp hq
    exact h (dirOf p) ⟨p, hp, .inr ⟨_, hq, mem_dirsAbove.2 ⟨q, rfl⟩⟩, (hm.valid p hp).ne_empty, rfl⟩

/-! ## When a merge is a hard conflict -/

def DeletedAgainst (ours theirs : Option SideChange) : Prop :=
  ∃ o t, ours = some o ∧ theirs = some t ∧ o.deleted ≠ t.deleted

/-- **The conflict at a path**, if `merge-file` finds one between two edits. -/
def contest (world : World) (p : Path) (base : Option TreeEntry) :
    Option SideChange → Option SideChange → Option ConflictedFile
  | some o, some t =>
    if o.deleted || t.deleted || o.toHash = t.toHash then none
    else match readVersions world p (entryHash base) o.toHash t.toHash with
      | .error _ => none
      | .ok v => match world.mergeFile p v.base v.ours v.theirs with
        | .error _ => none
        | .ok (merged, numConflicts) =>
          if numConflicts = 0 then none else some ⟨p, v.base, v.ours, v.theirs, o.mode, parseConflictRanges merged⟩
  | _, _ => none

section
variable {world : World} {diff : MergeDiff} {order : List Path}

theorem threeWayEffect_contest {p : Path} {cur : Option TreeEntry} {o t : SideChange} {e : Effect TreeEntry Note}
    (hod : o.deleted = false) (htd : t.deleted = false) (hne : o.toHash ≠ t.toHash)
    (h : threeWayEffect world p cur o t = .ok e) :
    conflictedOf e.out = (contest world p cur (some o) (some t)).toList ∧ hardOf e.out = [] := by
  obtain ⟨v, out, h, hv, hmf, -, rfl⟩ := threeWayEffect_ok h
  simp only [contest, hod, htd, hne, hv, hmf]
  by_cases hn : out.2 = 0
  · rw [if_pos hn, if_pos hn]
    exact ⟨rfl, rfl⟩
  · rw [if_neg hn, if_neg hn]
    exact ⟨rfl, rfl⟩

/-- **What the round over a path notes**: the conflict at the path, and a hard one for a deletion against something else. -/
theorem pathEffect_notes {p : Path} {cur : Option TreeEntry} {e : Effect TreeEntry Note}
    (h : pathEffect world diff p cur = .ok e) :
    conflictedOf e.out = (contest world p cur (diff.ourChanges.lookup p) (diff.theirChanges.lookup p)).toList ∧
      (hardOf e.out ≠ [] ↔ DeletedAgainst (diff.ourChanges.lookup p) (diff.theirChanges.lookup p)) := by
  have hs := pathEffect_settled h
  have hthree : ∀ {o t}, diff.ourChanges.lookup p = some o → diff.theirChanges.lookup p = some t → o.deleted = false →
      t.deleted = false → o.toHash ≠ t.toHash → conflictedOf e.out = (contest world p cur (some o) (some t)).toList ∧
        (hardOf e.out ≠ [] ↔ DeletedAgainst (some o) (some t)) := by
    intro o t ho ht hod htd hne
    simp only [pathEffect, ho, ht, hod, htd, hne] at h
    obtain ⟨hc, hh⟩ := threeWayEffect_contest hod htd hne h
    exact ⟨hc, by simp [hh, DeletedAgainst, hod, htd]⟩
  cases hs with
  | untouched ho ht | theirs ho ht | ours ho ht => simp [ho, ht, contest, DeletedAgainst, conflictedOf, hardOf]
  | bothDeleted ho ht hod htd => simp [ho, ht, hod, htd, contest, DeletedAgainst, conflictedOf, hardOf]
  | @hard o t _ _ _ => cases hod : o.deleted <;> simp_all [contest, DeletedAgainst, conflictedOf, hardOf]
  | identical ho ht hod htd heq => simp [ho, ht, hod, htd, heq, contest, DeletedAgainst, conflictedOf, hardOf]
  | merged ho ht hod htd hne | conflicted ho ht hod htd hne =>
    rw [ho, ht]
    exact hthree ho ht hod htd hne

/-- **When the merge of two maps of changes is a hard conflict**: a deletion is filed against something else, or the resolution
of the contested files is stuck. -/
theorem mergeDiff_kind (horder : diff.Order order) {r : MergeResult} (h : mergeDiff world diff order = .ok r) :
    r.kind = .hardConflict ↔ (∃ p, DeletedAgainst (diff.ourChanges.lookup p) (diff.theirChanges.lookup p)) ∨
        Stuck world (order.filterMap fun p =>
          contest world p (diff.mergedEntries.lookup p) (diff.ourChanges.lookup p) (diff.theirChanges.lookup p)) := by
  obtain ⟨m, log, hr, h⟩ := mergeDiff_run h
  have hs := run_spec id (pathEffect world diff) order diff.mergedEntries m [] log (by simpa using horder.nodup) hr
  have hl : log = order.flatMap (fun p => (effectAt id (pathEffect world diff) diff.mergedEntries p).out) := by
    simpa using hs.log_eq
  have hn := fun p hp => pathEffect_notes (hs.effect p hp)
  have hc : conflictedOf log = order.filterMap fun p =>
      contest world p (diff.mergedEntries.lookup p) (diff.ourChanges.lookup p) (diff.theirChanges.lookup p) := by
    rw [hl, conflictedOf, filterMap_flatMap, filterMap_eq_flatMap_toList]
    exact flatMap_congr fun p hp => (hn p hp).1
  have hh : hardOf log ≠ [] ↔ ∃ p, DeletedAgainst (diff.ourChanges.lookup p) (diff.theirChanges.lookup p) := by
    have hin : ∀ p, DeletedAgainst (diff.ourChanges.lookup p) (diff.theirChanges.lookup p) → p ∈ order := by
      rintro p ⟨o, t, ho, -⟩
      exact mem_order_of_changed horder (.inl (by simp [ho]))
    rw [hl, hardOf, filterMap_flatMap, ne_eq, flatMap_eq_nil_iff, not_forall]
    constructor
    · rintro ⟨p, hp⟩
      rw [Classical.not_imp] at hp
      exact ⟨p, (hn p hp.1).2.1 hp.2⟩
    · rintro ⟨p, hp⟩
      exact ⟨p, fun ha => (hn p (hin p hp)).2.2 hp (ha (hin p hp))⟩
  rw [conclude_kind h, toState_hardConflicts, toState_conflictedFiles, hc, hh]

end

/-! ## The merge of three commits -/

def filedAt (world : World) (base side : Tree) (p : Path) : Option SideChange :=
  match world.diffTree (some base) side with
  | .error _ => none
  | .ok changes => lastFiled world.hasBlob changes p

/-- **The merge is a hard conflict at some path**, whatever becomes of the others. -/
def HardSomewhere (world : World) (base ours theirs : Tree) (order : List Path) : Prop :=
  (∃ p, DeletedAgainst (filedAt world base ours p) (filedAt world base theirs p)) ∨
    Stuck world (order.filterMap fun p =>
      contest world p (base.entryAt p) (filedAt world base ours p) (filedAt world base theirs p))

def KeptAt (world : World) (base ours theirs : Tree) (p : Path) : Prop :=
  Kept (base.entryAt p) (filedAt world base ours p) (filedAt world base theirs p)

/-- **Files stay files and directories directories**: a result that is no hard conflict has no path as both, and neither side
has made a directory where the other has a file. -/
def KindsKept (base ours theirs : Tree) (r : MergeResult) : Prop :=
  r.kind ≠ .hardConflict →
    PrefixFree r.mergedEntries ∧ ¬ DirAgainstFile base ours theirs ∧ ¬ DirAgainstFile base theirs ours

structure TreesOf (repo : Repo) (source draftTip ancestor : Commit) (base ours theirs : Tree) : Prop where
  ancestorTree : repo.treeOf ancestor = some base
  draftTree : repo.treeOf draftTip = some ours
  sourceTree : repo.treeOf source = some theirs

section
variable {world : World} {repo : Repo} {source draftTip ancestor : Commit} {base ours theirs : Tree} {order : List Path}
  {r : MergeResult} (htrees : TreesOf repo source draftTip ancestor base ours theirs)
  (h : merge world repo source draftTip ancestor order = .ok r)

include htrees h

theorem shortCircuit_result (hshort : source.hash = ancestor.hash ∨ draftTip.hash = ancestor.hash) :
    r.kind = .cleanMerge ∧ (r.mergedEntries = ours.flat ∨ r.mergedEntries = theirs.flat) := by
  by_cases hs : source.hash = ancestor.hash
  · simp only [merge, tryShortCircuit, if_pos hs, htrees.draftTree] at h
    cases h
    exact ⟨rfl, .inl rfl⟩
  simp only [merge, tryShortCircuit, if_neg hs, if_pos (hshort.resolve_left hs), htrees.sourceTree] at h
  cases h
  exact ⟨rfl, .inr rfl⟩

theorem exists_mergeDiff (hit : Iterates world repo source draftTip ancestor order)
    (hs : ¬ (source.hash = ancestor.hash ∨ draftTip.hash = ancestor.hash)) :
    ∃ diff, diff.Order order ∧ mergeDiff world diff order = .ok r ∧ (∀ p, diff.mergedEntries.lookup p = base.entryAt p) ∧
      (∀ p, diff.ourChanges.lookup p = filedAt world base ours p) ∧
      ∀ p, diff.theirChanges.lookup p = filedAt world base theirs p := by
  rw [not_or] at hs
  obtain ⟨diff, hd, h⟩ := merge_run hs.1 hs.2 h
  refine ⟨diff, hit diff hd, h, ?_⟩
  rw [computeMergeDiff_eq htrees.ancestorTree htrees.draftTree htrees.sourceTree] at hd
  obtain ⟨_, _, hm⟩ := diffTrees_ok hd
  refine ⟨fun p => by rw [hm.flat]; rfl, fun p => ?_, fun p => ?_⟩
  · rw [buildSideChanges_lookup p hm.ourChanges, lookup_empty, Option.or_none, filedAt, hm.oursDiff]
  · rw [buildSideChanges_lookup p hm.theirChanges, lookup_empty, Option.or_none, filedAt, hm.theirsDiff]

/-- **When files stay files and directories directories**: some path is a hard conflict on its own; or neither side made a
directory where the other has a file and, without a short-circuit, no two kept paths are one below the other. -/
theorem kinds_kept_iff (hit : Iterates world repo source draftTip ancestor order) :
    KindsKept base ours theirs r ↔
      (¬ (source.hash = ancestor.hash ∨ draftTip.hash = ancestor.hash) ∧ HardSomewhere world base ours theirs order) ∨
        ((¬ DirAgainstFile base ours theirs ∧ ¬ DirAgainstFile base theirs ours) ∧
          ((source.hash = ancestor.hash ∨ draftTip.hash = ancestor.hash) ∨
            ∀ p q, KeptAt world base ours theirs p → ¬ KeptAt world base ours theirs (p ++ "/" ++ q))) := by
  unfold KindsKept
  by_cases hs : source.hash = ancestor.hash ∨ draftTip.hash = ancestor.hash
  · obtain ⟨hk, he⟩ := shortCircuit_result htrees h hs
    have hf : PrefixFree r.mergedEntries := by
      rcases he with heq | heq <;> rw [heq] <;> exact prefixFree_flat _
    simp [hk, hs, hf]
  · obtain ⟨_, ho, hr, hb, hours, ht⟩ := exists_mergeDiff htrees h hit hs
    have hk : r.kind = .hardConflict ↔ HardSomewhere world base ours theirs order := by
      rw [mergeDiff_kind ho hr]
      simp only [hb, hours, ht, HardSomewhere]
    by_cases hh : HardSomewhere world base ours theirs order
    · exact iff_of_true (fun hno => absurd (hk.2 hh) hno) (.inl ⟨hs, hh⟩)
    have hno : r.kind ≠ .hardConflict := mt hk.1 hh
    have hm : ∀ p, p ∈ r.mergedEntries ↔ KeptAt world base ours theirs p := by
      intro p
      rw [KeptAt, ← hb, ← hours, ← ht, ← mergeDiff_ne_none_iff ho hr hno p, mem_iff, Option.ne_none_iff_exists']
    simp only [ne_eq, hno, not_false_eq_true, true_implies, hs, hh, and_false, false_or, PrefixFree, hm]
    exact and_comm

end

theorem slash_ne {s : String} (hs : '/' ∉ s.toList) (p q : Path) : p ++ "/" ++ q ≠ s := by
  rintro rfl
  simp at hs

/-! ## Files in a directory -/

def dirTree (b x : Fin 256) : Tree := ⟨.file "c" (regular b) (.dir "d" (.file "x" (regular x) .nil) .nil), rfl⟩

theorem dirTree_entryAt (b x : Fin 256) (p : Path) : (dirTree b x).entryAt p =
    if p = "d/x" then some (regular x) else if p = "c" then some (regular b) else none := twoFiles_lookup p

theorem dirTree_same {b x b' x' : Fin 256} {p : Path} (h : (dirTree b x).entryAt p ≠ none) : (dirTree b' x').entryAt p ≠ none := by
  rw [dirTree_entryAt] at *
  split at h
  · simp [*]
  · split at h
    · simp [*]
    · exact absurd rfl h

theorem entryWorld_stores : Stores entryWorld true (fun _ => .ofByte 8) := ⟨fun _ _ => rfl⟩

def editsRepo : Repo := threeCommits (dirTree 2 1) (dirTree 3 1) (dirTree 2 4)

def editsMerged : FlatTree := ((dirTree 2 1).flat.insert "c" (regular 3)).insert "x" (regular 4)

/-- The draft edits `c`, the source `d/x`. -/
theorem kinds_kept_iff_edits : ∃ r, merge entryWorld editsRepo source₃ draft₂ base₁ ["c", "x"] = .ok r ∧
    "d/x" ∈ r.mergedEntries ∧ KindsKept (dirTree 2 1) (dirTree 3 1) (dirTree 2 4) r := by
  have hm : Placed editsMerged := placed_of_keys (by decide)
  obtain ⟨h, hr⟩ : ∃ h, merge entryWorld editsRepo source₃ draft₂ base₁ ["c", "x"] =
      .ok ⟨.cleanMerge, some h, none, [], editsMerged⟩ := hm.finish_ok (by decide) entryWorld_stores []
  have hit : Iterates entryWorld editsRepo source₃ draft₂ base₁ ["c", "x"] := iterates_of rfl (by decide) (by decide)
  have hkept : ∀ p, KeptAt entryWorld (dirTree 2 1) (dirTree 3 1) (dirTree 2 4) p → p = "c" ∨ p = "d/x" ∨ p = "x" := by
    intro p hk
    by_contra! hne
    obtain ⟨hc, hd, hx⟩ := hne
    have hours : filedAt entryWorld (dirTree 2 1) (dirTree 3 1) p = none := if_neg fun hp => hc (of_decide_eq_true hp).symm
    have htheirs : filedAt entryWorld (dirTree 2 1) (dirTree 2 4) p = none := if_neg fun hp => hx (of_decide_eq_true hp).symm
    rw [KeptAt, dirTree_entryAt, if_neg hd, if_neg hc, hours, htheirs] at hk
    simp [Kept] at hk
  refine ⟨_, hr, mem_of_lookup_eq_some (show editsMerged.lookup "d/x" = some (regular 1) by decide),
    (kinds_kept_iff ⟨rfl, rfl, rfl⟩ hr hit).2 (.inr ⟨⟨?_, ?_⟩, .inr fun p q hp hq => ?_⟩)⟩
  · rintro ⟨p, ⟨q, hq⟩, hno, -⟩
    exact hno ⟨q, dirTree_same hq⟩
  · rintro ⟨p, ⟨q, hq⟩, hno, -⟩
    exact hno ⟨q, dirTree_same hq⟩
  · have hd : p ++ "/" ++ q = "d/x" := by
      rcases hkept _ hq with hc | hd | hx
      · exact absurd hc (slash_ne (by decide) p q)
      · exact hd
      · exact absurd hx (slash_ne (by decide) p q)
    have hl := congrArg String.toList hd
    rcases hkept p hp with rfl | rfl | rfl <;> simp at hl

/-! ## A directory that becomes a file -/

def flatTree : Tree := ⟨.file "c" (regular 2) (.file "d" (regular 4) .nil), rfl⟩

def swapRepo : Repo := threeCommits (dirTree 2 1) (dirTree 3 1) flatTree

def swapMerged : FlatTree := (((dirTree 2 1).flat.insert "c" (regular 3)).erase "x").insert "d" (regular 4)

/-- **A path comes out as a file and a directory**: the source makes a file of the directory `d`, the draft edits `c`, and the
clean merge has `d` as well as `d/x`. -/
theorem file_and_directory_at_once : ∃ r,
    merge entryWorld swapRepo source₃ draft₂ base₁ ["c", "x", "d"] = .ok r ∧
      r.kind = .cleanMerge ∧ "d" ∈ r.mergedEntries ∧ "d/x" ∈ r.mergedEntries ∧ ¬ (∀ d, (namesAt r.mergedEntries d).Nodup) ∧
      ¬ KindsKept (dirTree 2 1) (dirTree 3 1) flatTree r := by
  have hm : Placed swapMerged := placed_of_keys (by decide)
  obtain ⟨h, hr⟩ : ∃ h, merge entryWorld swapRepo source₃ draft₂ base₁ ["c", "x", "d"] =
      .ok ⟨.cleanMerge, some h, none, [], swapMerged⟩ := hm.finish_ok (by decide) entryWorld_stores []
  have hd : "d" ∈ swapMerged := mem_of_lookup_eq_some (show swapMerged.lookup "d" = some (regular 4) by decide)
  have hx : "d/x" ∈ swapMerged := mem_of_lookup_eq_some (show swapMerged.lookup "d/x" = some (regular 1) by decide)
  have hnot : ¬ PrefixFree swapMerged := fun hf => hf "d" "x" hd hx
  exact ⟨_, hr, rfl, hd, hx, fun hn => hnot ((prefixFree_iff_nodup hm).2 hn), fun hk => hnot (hk (by simp)).1⟩

end Jamsesh.Automerger
