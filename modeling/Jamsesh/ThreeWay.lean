import Jamsesh.MergeDiffs
import Jamsesh.MergeLaws
/-!
# ThreeWay — the merge as a three-way merge of maps

What the merge does to a path depends on the base entry and the two side changes of that path alone (`Settled`).  Where the
side changes say what the sides did (`Describes`), the merged map follows the three-way rule at every path, a deletion against
a change is a hard conflict, and the order of the paths does not show (`merge_three_way`).
-/
namespace Jamsesh.Automerger

open Finmap Git KeyedFold List Option

/-! ## One path -/

/-- **The ways a path is settled**, by who changed it and how. -/
inductive Settled (diff : MergeDiff) (p : Path) : Effect TreeEntry Note → Prop where
  | untouched (ho : diff.ourChanges.lookup p = none) (ht : diff.theirChanges.lookup p = none) : Settled diff p ⟨none, []⟩
  | theirs {t : SideChange} (ho : diff.ourChanges.lookup p = none) (ht : diff.theirChanges.lookup p = some t) :
      Settled diff p ⟨some t.entry, []⟩
  | ours {o : SideChange} (ho : diff.ourChanges.lookup p = some o) (ht : diff.theirChanges.lookup p = none) :
      Settled diff p ⟨some o.entry, []⟩
  | bothDeleted {o t : SideChange} (ho : diff.ourChanges.lookup p = some o) (ht : diff.theirChanges.lookup p = some t)
      (hod : o.deleted = true) (htd : t.deleted = true) : Settled diff p ⟨some none, []⟩
  | hard {o t : SideChange} (ho : diff.ourChanges.lookup p = some o) (ht : diff.theirChanges.lookup p = some t)
      (hd : o.deleted ≠ t.deleted) : Settled diff p ⟨none, [.inl ⟨p, []⟩]⟩
  | identical {o t : SideChange} (ho : diff.ourChanges.lookup p = some o) (ht : diff.theirChanges.lookup p = some t)
      (hod : o.deleted = false) (htd : t.deleted = false) (heq : o.toHash = t.toHash) :
      Settled diff p ⟨some (some ⟨o.toHash, o.mode⟩), []⟩
  | merged {o t : SideChange} (ho : diff.ourChanges.lookup p = some o) (ht : diff.theirChanges.lookup p = some t)
      (hod : o.deleted = false) (htd : t.deleted = false) (hne : o.toHash ≠ t.toHash) (x : TreeEntry) :
      Settled diff p ⟨some (some x), []⟩
  | conflicted {o t : SideChange} (ho : diff.ourChanges.lookup p = some o) (ht : diff.theirChanges.lookup p = some t)
      (hod : o.deleted = false) (htd : t.deleted = false) (hne : o.toHash ≠ t.toHash) (x : TreeEntry)
      (cf : ConflictedFile) (hcf : cf.path = p) : Settled diff p ⟨some (some x), [.inr cf]⟩

variable {log : List Note} {e : Effect TreeEntry Note} {cur : Option TreeEntry} {t : Tree} {sc : SideChange}

theorem mem_conflictedOf {cf : ConflictedFile} : cf ∈ conflictedOf log ↔ Sum.inr cf ∈ log := by
  rw [conflictedOf, mem_filterMap]
  constructor
  · rintro ⟨c | d, hm, hg⟩
    · cases hg
    · cases hg
      exact hm
  · exact fun h => ⟨_, h, rfl⟩

variable {diff : MergeDiff} {p : Path} {world : World} {base : Tree} {order : List Path}

theorem Settled.path_of_conflicted (h : Settled diff p e)
    {cf : ConflictedFile} (hin : Sum.inr cf ∈ e.out) : cf.path = p := by
  cases h with
  | conflicted _ _ _ _ _ x _ hc' =>
    cases mem_singleton.1 hin
    exact hc'
  | hard => cases mem_singleton.1 hin
  | _ => cases hin

theorem pathEffect_settled (h : pathEffect world diff p cur = .ok e) : Settled diff p e := by
  unfold pathEffect at h
  cases ho : diff.ourChanges.lookup p with
  | none =>
    cases ht : diff.theirChanges.lookup p with
    | none => rw [ho, ht] at h; cases h; exact .untouched ho ht
    | some => rw [ho, ht] at h; cases h; exact .theirs ho ht
  | some o =>
    cases ht : diff.theirChanges.lookup p with
    | none => rw [ho, ht] at h; cases h; exact .ours ho ht
    | some t =>
      simp only [ho, ht] at h
      cases hod : o.deleted with
      | true =>
        cases htd : t.deleted with
        | true => simp only [hod, htd] at h; cases h; exact .bothDeleted ho ht hod htd
        | false => simp only [hod, htd] at h; cases h; exact .hard ho ht (by simp [hod, htd])
      | false =>
        cases htd : t.deleted with
        | true => simp only [hod, htd] at h; cases h; exact .hard ho ht (by simp [hod, htd])
        | false =>
          simp only [hod, htd] at h
          by_cases heq : o.toHash = t.toHash
          · rw [if_pos heq] at h; cases h; exact .identical ho ht hod htd heq
          rw [if_neg heq] at h
          obtain ⟨v, out, h, -, -, -, rfl⟩ := threeWayEffect_ok h
          by_cases hn : out.2 = 0
          · rw [if_pos hn]
            exact .merged ho ht hod htd heq _
          · rw [if_neg hn]
            exact .conflicted ho ht hod htd heq _ _ rfl

/-- **A map of side changes that says what a side did**: an entry exactly where the side differs from the base, with what the
side has there. -/
def Describes (changes : SideChanges) (base side : Path → Option TreeEntry) : Prop :=
  ∀ p, (base p = side p ∧ changes.lookup p = none) ∨
    (base p ≠ side p ∧ ∃ sc, changes.lookup p = some sc ∧ sc.entry = side p)

def DeleteVsChange (base ours theirs : Option TreeEntry) : Prop :=
  base ≠ none ∧ ((ours = none ∧ theirs ≠ none ∧ theirs ≠ base) ∨ (theirs = none ∧ ours ≠ none ∧ ours ≠ base))

theorem SideChange.deleted_iff (sc : SideChange) : sc.deleted = true ↔ sc.entry = none := by
  unfold SideChange.entry
  cases sc.deleted <;> simp

theorem SideChange.entry_of_not_deleted (h : sc.deleted = false) :
    sc.entry = some ⟨sc.toHash, sc.mode⟩ := by simp [SideChange.entry, h]

section
variable {diff : MergeDiff} {base ours theirs : Path → Option TreeEntry} (hours : Describes diff.ourChanges base ours)
  (htheirs : Describes diff.theirChanges base theirs) {p : Path}

theorem Describes.none_iff {changes : SideChanges} {base side : Path → Option TreeEntry} (h : Describes changes base side) :
    changes.lookup p = none ↔ base p = side p := by
  rcases h p with ⟨heq, hn⟩ | ⟨hne, _, hs, -⟩
  · simp [heq, hn]
  · simp [hne, hs]

theorem Describes.entry {changes : SideChanges} {base side : Path → Option TreeEntry} (h : Describes changes base side)
    (hs : changes.lookup p = some sc) : base p ≠ side p ∧ sc.entry = side p := by
  rcases h p with ⟨-, hn⟩ | ⟨hne, _, hs', he⟩
  · rw [hn] at hs; cases hs
  · rw [hs'] at hs; cases hs; exact ⟨hne, he⟩

include hours htheirs

theorem settled_agree (h : Settled diff p e) (hcase : theirs p = base p ∨ ours p = base p ∨ ours p = theirs p) :
    e.out = [] ∧ e.put.getD (base p) = if theirs p = base p then ours p else theirs p := by
  have hoe : ∀ {o}, diff.ourChanges.lookup p = some o → base p ≠ ours p ∧ o.entry = ours p := hours.entry
  have hte : ∀ {t}, diff.theirChanges.lookup p = some t → base p ≠ theirs p ∧ t.entry = theirs p := htheirs.entry
  -- when both sides changed the path, they must have made the same change
  have hb : ∀ {o t}, diff.ourChanges.lookup p = some o → diff.theirChanges.lookup p = some t →
      ¬ theirs p = base p ∧ o.entry = theirs p ∧ t.entry = theirs p := by
    intro o t ho ht
    refine ⟨fun hc => (hte ht).1 hc.symm, ?_, (hte ht).2⟩
    rcases hcase with hc | hc | hc
    · exact absurd hc.symm (hte ht).1
    · exact absurd hc.symm (hoe ho).1
    · exact (hoe ho).2.trans hc
  cases h with
  | untouched ho ht =>
    have h1 := hours.none_iff.1 ho
    have h2 := htheirs.none_iff.1 ht
    simp [← h2, h1]
  | theirs _ ht => exact ⟨rfl, by rw [if_neg fun hc => (hte ht).1 hc.symm]; exact (hte ht).2⟩
  | ours ho ht => exact ⟨rfl, by rw [if_pos (htheirs.none_iff.1 ht).symm]; exact (hoe ho).2⟩
  | bothDeleted ho ht _ htd =>
    obtain ⟨hn, -, h2⟩ := hb ho ht
    rw [if_neg hn, ← h2, (SideChange.deleted_iff _).1 htd]
    exact ⟨rfl, rfl⟩
  | hard ho ht hd =>
    obtain ⟨-, h1, h2⟩ := hb ho ht
    refine absurd ?_ hd
    rw [Bool.eq_iff_iff, SideChange.deleted_iff, SideChange.deleted_iff, h1, h2]
  | identical ho ht hod =>
    obtain ⟨hn, h1, -⟩ := hb ho ht
    rw [if_neg hn, ← h1, SideChange.entry_of_not_deleted hod]
    exact ⟨rfl, rfl⟩
  | merged ho ht hod htd hne | conflicted ho ht hod htd hne =>
    obtain ⟨-, h1, h2⟩ := hb ho ht
    rw [SideChange.entry_of_not_deleted hod] at h1
    rw [SideChange.entry_of_not_deleted htd, ← h1] at h2
    exact absurd (congrArg TreeEntry.hash (some.inj h2)).symm hne

theorem settled_deleteVsChange (h : Settled diff p e)
    (hc : DeleteVsChange (base p) (ours p) (theirs p)) : e.out = [.inl ⟨p, []⟩] := by
  obtain ⟨hb, hc⟩ := hc
  have hob : base p ≠ ours p := by
    rcases hc with ⟨ho, -, -⟩ | ⟨-, -, ho⟩
    · rw [ho]; exact hb
    · exact ho.symm
  have htb : base p ≠ theirs p := by
    rcases hc with ⟨-, -, ht⟩ | ⟨ht, -, -⟩
    · exact ht.symm
    · rw [ht]; exact hb
  have hd : ∀ {o t : SideChange}, diff.ourChanges.lookup p = some o → diff.theirChanges.lookup p = some t →
      o.deleted ≠ t.deleted := by
    intro o t ho ht heq
    have hi := Bool.eq_iff_iff.1 heq
    rw [SideChange.deleted_iff, SideChange.deleted_iff, (hours.entry ho).2, (htheirs.entry ht).2] at hi
    rcases hc with ⟨h1, h2, -⟩ | ⟨h1, h2, -⟩
    · exact h2 (hi.1 h1)
    · exact h2 (hi.2 h1)
  cases h with
  | untouched ho | theirs ho => exact absurd (hours.none_iff.1 ho) hob
  | ours _ ht => exact absurd (htheirs.none_iff.1 ht) htb
  | bothDeleted ho ht hod htd | identical ho ht hod htd | merged ho ht hod htd
  | conflicted ho ht hod htd => exact absurd (hod.trans htd.symm) (hd ho ht)
  | hard => rfl

end

/-! ## The whole loop -/

theorem mergeDiff_eq (world : World) (diff : MergeDiff) (order : List Path) :
    mergeDiff world diff order
      = match run id (pathEffect world diff) order diff.mergedEntries [] with
        | .error e => .error e
        | .ok r => conclude world (toState r.1 r.2) := by
  have ha : applyChangesPerPath world diff order
      = (run id (pathEffect world diff) order diff.mergedEntries []).map (fun r => toState r.1 r.2) :=
    applyPaths_eq world diff order diff.mergedEntries []
  rw [mergeDiff, ha]
  cases run id (pathEffect world diff) order diff.mergedEntries [] with
  | error | ok => rfl

theorem mergeDiff_run {r : MergeResult}
    (h : mergeDiff world diff order = .ok r) : ∃ m log, run id (pathEffect world diff) order diff.mergedEntries [] = .ok (m, log) ∧
      conclude world (toState m log) = .ok r := by
  rw [mergeDiff_eq] at h
  cases hr : run id (pathEffect world diff) order diff.mergedEntries [] with
  | error => rw [hr] at h; cases h
  | ok ml =>
    rw [hr] at h
    exact ⟨ml.1, ml.2, rfl, h⟩

/-- **The loop's outcome**: each path settled on its own, from what the base has there. -/
structure Ran (world : World) (diff : MergeDiff) (order : List Path) (m : FlatTree) (log : List Note)
    (es : Path → Effect TreeEntry Note) : Prop where
  settled : ∀ p ∈ order, Settled diff p (es p)
  entry : ∀ p ∈ order, m.lookup p = (es p).put.getD (diff.mergedEntries.lookup p)
  frame : ∀ p, p ∉ order → m.lookup p = diff.mergedEntries.lookup p
  log_eq : log = order.flatMap (fun p => (es p).out)

theorem ran_of_run (hnd : order.Nodup) {m : FlatTree}
    (h : run id (pathEffect world diff) order diff.mergedEntries [] = .ok (m, log)) :
    Ran world diff order m log (effectAt id (pathEffect world diff) diff.mergedEntries) := by
  have hs := run_spec id (pathEffect world diff) order diff.mergedEntries m [] log (by simpa using hnd) h
  refine ⟨fun p hp => pathEffect_settled (hs.effect p hp), hs.entry, fun p hp => ?_, by simpa using hs.log_eq⟩
  exact hs.frame p (by simpa using hp)

theorem conflicted_sublist {diff : MergeDiff} {es : Path → Effect TreeEntry Note} : ∀ (order : List Path),
    (∀ p ∈ order, Settled diff p (es p)) →
    ((conflictedOf (order.flatMap (fun p => (es p).out))).map ConflictedFile.path).Sublist order
  | [], _ => List.Sublist.refl _
  | p :: order, h => by
    have ih := conflicted_sublist order (fun q hq => h q (mem_cons_of_mem p hq))
    have hp := h p mem_cons_self
    have ha : ∀ a b : List Note, conflictedOf (a ++ b) = conflictedOf a ++ conflictedOf b := fun a b => by
      simp [conflictedOf]
    rw [flatMap_cons, ha, map_append]
    generalize es p = e at hp
    cases hp with
    | conflicted _ _ _ _ _ x cf hcf =>
      rw [← hcf]
      exact ih.cons_cons cf.path
    | _ => exact ih.cons p

section
variable {m : FlatTree} {es : Path → Effect TreeEntry Note} (hr : Ran world diff order m log es)

include hr

theorem Ran.mem_log (hp : p ∈ order) {n : Note} (hn : n ∈ (es p).out) : n ∈ log := by
  rw [hr.log_eq]
  exact mem_flatMap.2 ⟨p, hp, hn⟩

theorem Ran.not_conflicted (hp : p ∈ order → ∀ cf, Sum.inr cf ∉ (es p).out) :
    p ∉ (conflictedOf log).map ConflictedFile.path := by
  intro hm
  obtain ⟨cf, hcf, rfl⟩ := mem_map.1 hm
  rw [hr.log_eq, mem_conflictedOf] at hcf
  obtain ⟨q, hq, hin⟩ := mem_flatMap.1 hcf
  obtain rfl := (hr.settled q hq).path_of_conflicted hin
  exact hp hq cf hin

theorem Ran.nodup (hnd : order.Nodup) : ((conflictedOf log).map ConflictedFile.path).Nodup := by
  rw [hr.log_eq]
  exact (conflicted_sublist order hr.settled).nodup hnd

end

section
variable {world : World} {diff : MergeDiff} {order : List Path} (horder : diff.Order order)

include horder

theorem mem_order_of_changed (h : diff.ourChanges.lookup p ≠ none ∨ diff.theirChanges.lookup p ≠ none) : p ∈ order := by
  rw [horder.mem, MergeDiff.pathSet, Finset.mem_union, Finmap.mem_keys, Finmap.mem_keys]
  rcases h with h | h
  · exact .inl (Finmap.mem_iff.2 (ne_none_iff_exists'.1 h))
  · exact .inr (Finmap.mem_iff.2 (ne_none_iff_exists'.1 h))

theorem unchanged_of_not_mem (h : p ∉ order) : diff.ourChanges.lookup p = none ∧ diff.theirChanges.lookup p = none := by
  constructor
  · by_contra hne
    exact h (mem_order_of_changed horder (.inl hne))
  · by_contra hne
    exact h (mem_order_of_changed horder (.inr hne))

variable {base ours theirs : Path → Option TreeEntry} (hbase : ∀ p, diff.mergedEntries.lookup p = base p)
  (hours : Describes diff.ourChanges base ours) (htheirs : Describes diff.theirChanges base theirs)

include hbase hours htheirs

theorem mergeDiff_agree {r : MergeResult} (h : mergeDiff world diff order = .ok r)
    (hcase : theirs p = base p ∨ ours p = base p ∨ ours p = theirs p) :
    r.mergedEntries.lookup p = if theirs p = base p then ours p else theirs p := by
  obtain ⟨m, log, hrun, h⟩ := mergeDiff_run h
  have hr := ran_of_run horder.nodup hrun
  have hc : p ∉ (conflictedOf log).map ConflictedFile.path := hr.not_conflicted fun hp _ hin => by
    rw [(settled_agree hours htheirs (hr.settled p hp) hcase).1] at hin
    cases hin
  rw [conclude_frame h hc, toState_mergedEntries]
  by_cases hp : p ∈ order
  · rw [hr.entry p hp, hbase, (settled_agree hours htheirs (hr.settled p hp) hcase).2]
  · obtain ⟨ho, ht⟩ := unchanged_of_not_mem horder hp
    rw [hr.frame p hp, hbase, if_pos (htheirs.none_iff.1 ht).symm, hours.none_iff.1 ho]

theorem mergeDiff_hard (hcase : DeleteVsChange (base p) (ours p) (theirs p)) :
    (∀ r, mergeDiff world diff order = .ok r → r.kind = .hardConflict ∧ ⟨p, []⟩ ∈ r.conflicts) ∧
      ((∀ q ∈ order, ∃ e, pathEffect world diff q (base q) = .ok e) → ∃ r, mergeDiff world diff order = .ok r) := by
  have hp : p ∈ order := by
    refine mem_order_of_changed horder (.inl fun hn => ?_)
    have heq := hours.none_iff.1 hn
    obtain ⟨hb, ⟨ho, -, -⟩ | ⟨-, -, ho⟩⟩ := hcase
    · exact hb (heq.trans ho)
    · exact ho heq.symm
  have hconclude : ∀ {m log}, run id (pathEffect world diff) order diff.mergedEntries [] = .ok (m, log) →
      ∃ r, conclude world (toState m log) = .ok r ∧ r.kind = .hardConflict ∧ ⟨p, []⟩ ∈ r.conflicts := by
    intro m _ hrun
    have hran := ran_of_run horder.nodup hrun
    refine conclude_hard ?_
    rw [toState_hardConflicts, hran.log_eq, hardOf, mem_filterMap]
    refine ⟨.inl ⟨p, []⟩, mem_flatMap.2 ⟨p, hp, ?_⟩, rfl⟩
    rw [settled_deleteVsChange hours htheirs (hran.settled p hp) hcase]
    exact mem_cons_self
  constructor
  · intro r h
    obtain ⟨m, _, hrun, h⟩ := mergeDiff_run h
    obtain ⟨_, hr', hk, hc⟩ := hconclude hrun
    obtain rfl := Except.ok.inj (hr'.symm.trans h)
    exact ⟨hk, hc⟩
  · intro ht
    obtain ⟨_, hrun⟩ := run_total id (pathEffect world diff) order diff.mergedEntries []
      (by simpa using horder.nodup) (fun q hq => by rw [id, hbase]; exact ht q hq)
    obtain ⟨r, hr, -⟩ := hconclude hrun
    exact ⟨r, by rw [mergeDiff_eq, hrun]; exact hr⟩

omit hbase hours htheirs in
theorem mergeDiff_same (hw : world.Writes .resolved) {order' : List Path} (ho' : diff.Order order') :
    SameOutcome (mergeDiff world diff order) (mergeDiff world diff order') := by
  have hperm : order.Perm order' :=
    (perm_ext_iff_of_nodup horder.nodup ho'.nodup).2 fun p => by rw [horder.mem, ho'.mem]
  rw [mergeDiff_eq, mergeDiff_eq]
  cases hr : run id (pathEffect world diff) order diff.mergedEntries [] with
  | error =>
    cases hr' : run id (pathEffect world diff) order' diff.mergedEntries [] with
    | error => exact trivial
    | ok =>
      obtain ⟨log, hl, -⟩ := run_perm id (pathEffect world diff) hperm.symm (by simpa using ho'.nodup) hr'
      rw [hr] at hl
      cases hl
  | ok r =>
    obtain ⟨m, log⟩ := r
    obtain ⟨log', hr', hp⟩ := run_perm id (pathEffect world diff) hperm (by simpa using horder.nodup) hr
    rw [hr']
    exact conclude_same hw hp ((ran_of_run horder.nodup hr).nodup horder.nodup)

end

/-! ## Diffs that list the differing paths one by one -/

def report (base t : Tree) (p : Path) : Change :=
  ⟨(base.entryAt p).map (ChangeEntry.mk p p), (t.entryAt p).map (ChangeEntry.mk p p)⟩

/-- **A plain change list**: the differing paths and no others, each named in full and by one change. -/
def ListsExactly (base t : Tree) (changes : List Change) : Prop :=
  ∀ ch, ch ∈ changes ↔ ∃ p, base.entryAt p ≠ t.entryAt p ∧ ch = report base t p

def FilesOnly (t : Tree) : Prop := ∀ e ∈ t.entries, e.entry.mode.isFile = true

instance (t : Tree) : Decidable (FilesOnly t) :=
  inferInstanceAs (Decidable (∀ e ∈ t.entries, e.entry.mode.isFile = true))

theorem FilesOnly.entryAt (h : FilesOnly t) {x : TreeEntry} (hx : t.entryAt p = some x) : x.mode.isFile = true := by
  obtain ⟨e, he, -, rfl⟩ := Tree.entryAt_eq_some hx
  exact h e he

theorem report_filesOnly (hb : FilesOnly base) (ht : FilesOnly t) (p : Path) : Change.FilesOnly (report base t p) := by
  constructor
  · intro e he
    obtain ⟨x, hx, rfl⟩ := map_eq_some_iff.1 he
    exact hb.entryAt hx
  · intro e he
    obtain ⟨x, hx, rfl⟩ := map_eq_some_iff.1 he
    exact ht.entryAt hx

theorem report_sideChange (hb : FilesOnly base) (ht : FilesOnly t)
    (hne : base.entryAt p ≠ t.entryAt p) {hasBlob : Hash → Bool}
    (h : Files hasBlob (report base t p) sc) : effectivePath sc = p ∧ sc.entry = t.entryAt p := by
  rw [files_eq (report_filesOnly hb ht p) h]
  have hp : p ≠ "" := by
    rintro rfl
    exact hne (by rw [Tree.entryAt_empty, Tree.entryAt_empty])
  cases hte : t.entryAt p with
  | none =>
    cases hbe : base.entryAt p with
    | none => exact absurd (hbe.trans hte.symm) hne
    | some => simp [report, hte, hbe, sideChange, effectivePath, ChangeEntry.file, SideChange.entry]
  | some => simp [report, hte, sideChange, effectivePath, ChangeEntry.file, SideChange.entry, hp]

theorem describes_of_lists (hb : FilesOnly base) (ht : FilesOnly t) {changes : List Change}
    (hl : ListsExactly base t changes) {hasBlob : Hash → Bool} {side : String} {m : SideChanges}
    (h : buildSideChanges hasBlob side changes ∅ = .ok m) : Describes m base.entryAt t.entryAt := by
  -- an entry of the map is that of a differing path
  have he : ∀ p sc, m.lookup p = some sc → base.entryAt p ≠ t.entryAt p ∧ sc.entry = t.entryAt p := by
    intro p _ hsc
    rcases buildSideChanges_some h hsc with hin | ⟨ch, hm, hf, hk⟩
    · rw [lookup_empty] at hin; cases hin
    · obtain ⟨q, hq, rfl⟩ := (hl ch).1 hm
      obtain ⟨hp, he⟩ := report_sideChange hb ht hq hf
      obtain rfl : q = p := hp.symm.trans hk
      exact ⟨hq, he⟩
  intro p
  by_cases hne : base.entryAt p = t.entryAt p
  · refine .inl ⟨hne, ?_⟩
    by_contra hs
    obtain ⟨sc, hsc⟩ := ne_none_iff_exists'.1 hs
    exact (he p sc hsc).1 hne
  · refine .inr ⟨hne, ?_⟩
    obtain ⟨sc, hf, hs⟩ := buildSideChanges_isSome h _ ((hl _).2 ⟨p, hne, rfl⟩)
    rw [(report_sideChange hb ht hne hf).1] at hs
    obtain ⟨sc, hsc⟩ := isSome_iff_exists.1 hs
    exact ⟨sc, hsc, (he p sc hsc).2⟩

/-! ## The merge of three commits -/

/-- **A merge that runs on plain diffs of files**: three commits, none of which short-circuits the merge, with their trees;
the diffs list the differing paths one by one. -/
structure PlainMerge (world : World) (repo : Repo) (source draftTip ancestor : Commit) (base ours theirs : Tree) : Prop where
  ancestorTree : repo.treeOf ancestor = some base
  draftTree : repo.treeOf draftTip = some ours
  sourceTree : repo.treeOf source = some theirs
  sourceNew : source.hash ≠ ancestor.hash
  draftNew : draftTip.hash ≠ ancestor.hash
  baseFiles : FilesOnly base
  oursFiles : FilesOnly ours
  theirsFiles : FilesOnly theirs
  oursList : ∀ changes, world.diffTree (some base) ours = .ok changes → ListsExactly base ours changes
  theirsList : ∀ changes, world.diffTree (some base) theirs = .ok changes → ListsExactly base theirs changes

def Iterates (world : World) (repo : Repo) (source draftTip ancestor : Commit) (order : List Path) : Prop :=
  ∀ diff, computeMergeDiff world repo ancestor draftTip source = .ok diff → diff.Order order

theorem iterates_of {repo : Repo} {source draftTip ancestor : Commit}
    (hd : computeMergeDiff world repo ancestor draftTip source = .ok diff) (hnd : order.Nodup)
    (hset : diff.pathSet = order.toFinset) : Iterates world repo source draftTip ancestor order := by
  intro _ hd'
  cases hd.symm.trans hd'
  exact ⟨hnd, fun p => by rw [hset, List.mem_toFinset]⟩

/-- The three trees' blobs are there and can be read, and blobs, diffs and `merge-file` work. -/
structure World.Works (world : World) (base ours theirs : Tree) : Prop where
  blobs : ∀ t ∈ [base, ours, theirs], ∀ p e, t.entryAt p = some e → world.hasBlob e.hash = true
  reads : ∀ p role h, world.hasBlob h = true → ∃ text, world.readBlob p role h = .ok text
  writes : ∀ site, world.Writes site
  diffs : ∀ t ∈ [ours, theirs], ∃ changes, world.diffTree (some base) t = .ok changes
  mergeFiles : ∀ p a b c, ∃ r, world.mergeFile p a b c = .ok r

theorem wrapErr_ok {α : Type} {ctx : String} {x : Except GitErr α} {a : α} (h : x = .ok a) : wrapErr ctx x = .ok a := by
  rw [h]
  rfl

section
variable {world : World} {repo : Repo} {source draftTip ancestor : Commit} {base ours theirs : Tree}
  (hplain : PlainMerge world repo source draftTip ancestor base ours theirs)

include hplain

theorem PlainMerge.diff_spec (h : computeMergeDiff world repo ancestor draftTip source = .ok diff) :
    (∀ p, diff.mergedEntries.lookup p = base.entryAt p) ∧ Describes diff.ourChanges base.entryAt ours.entryAt ∧
      Describes diff.theirChanges base.entryAt theirs.entryAt := by
  rw [computeMergeDiff_eq hplain.ancestorTree hplain.draftTree hplain.sourceTree] at h
  obtain ⟨_, _, hm⟩ := diffTrees_ok h
  refine ⟨fun p => by rw [hm.flat]; rfl, ?_, ?_⟩
  · exact describes_of_lists hplain.baseFiles hplain.oursFiles (hplain.oursList _ hm.oursDiff) hm.ourChanges
  · exact describes_of_lists hplain.baseFiles hplain.theirsFiles (hplain.theirsList _ hm.theirsDiff) hm.theirChanges

omit hplain in
theorem buildSideChanges_works (hb : FilesOnly base) (ht : FilesOnly t)
    (hblobs : ∀ t' ∈ [base, t], ∀ p e, t'.entryAt p = some e → world.hasBlob e.hash = true) {changes : List Change}
    (hl : ListsExactly base t changes) (side : String) :
    ∃ m, buildSideChanges world.hasBlob side changes ∅ = .ok m := by
  refine buildSideChanges_total _ (fun ch hch => ?_)
  obtain ⟨p, hne, rfl⟩ := (hl ch).1 hch
  refine files_total (report_filesOnly hb ht p) ?_ ?_
  · by_contra hn
    simp only [report, ne_eq, map_eq_none_iff, not_or, not_not] at hn
    exact hne (hn.1.trans hn.2.symm)
  · rintro e (he | he)
    · obtain ⟨x, hx, rfl⟩ := map_eq_some_iff.1 he
      exact hblobs base (by simp) p x hx
    · obtain ⟨x, hx, rfl⟩ := map_eq_some_iff.1 he
      exact hblobs t (by simp) p x hx

theorem PlainMerge.diff_total (hw : world.Works base ours theirs) :
    ∃ diff, computeMergeDiff world repo ancestor draftTip source = .ok diff := by
  obtain ⟨_, hdo⟩ := hw.diffs ours (by simp)
  obtain ⟨_, hdt⟩ := hw.diffs theirs (by simp)
  have hb : ∀ t ∈ [ours, theirs], ∀ t' ∈ [base, t], ∀ p e, t'.entryAt p = some e → world.hasBlob e.hash = true :=
    fun t ht t' ht' => hw.blobs t' (by simp at ht ht' ⊢; grind)
  obtain ⟨_, hbo⟩ := buildSideChanges_works hplain.baseFiles hplain.oursFiles (hb ours (by simp))
    (hplain.oursList _ hdo) "ours"
  obtain ⟨_, hbt⟩ := buildSideChanges_works hplain.baseFiles hplain.theirsFiles (hb theirs (by simp))
    (hplain.theirsList _ hdt) "theirs"
  rw [computeMergeDiff_eq hplain.ancestorTree hplain.draftTree hplain.sourceTree]
  refine ⟨_, diffTrees_total hdo hdt hbo hbt (fun e he hs => ?_)⟩
  have hf := hplain.baseFiles e he
  rw [hs] at hf
  cases hf

omit hplain in
theorem blobContent_works (hw : world.Works base ours theirs) {h : Hash}
    (hb : h ≠ .zero → world.hasBlob h = true) (p : Path) (role : Role) : ∃ text, blobContent world p role h = .ok text := by
  unfold blobContent
  by_cases hz : h = .zero
  · rw [if_pos hz]
    exact ⟨_, rfl⟩
  · rw [if_neg hz]
    exact hw.reads p role h (hb hz)

omit hplain in
theorem threeWayEffect_works (hw : world.Works base ours theirs) {o t : SideChange}
    (hc : entryHash cur ≠ .zero → world.hasBlob (entryHash cur) = true) (ho : world.hasBlob o.toHash = true)
    (ht : world.hasBlob t.toHash = true) (p : Path) : ∃ e, threeWayEffect world p cur o t = .ok e := by
  obtain ⟨tb, htb⟩ := blobContent_works hw hc p .base
  obtain ⟨tx, hto⟩ := blobContent_works hw (fun _ => ho) p .ours
  obtain ⟨tt, htt⟩ := blobContent_works hw (fun _ => ht) p .theirs
  obtain ⟨r, hr⟩ := hw.mergeFiles p tb tx tt
  have hread : readVersions world p (entryHash cur) o.toHash t.toHash = .ok ⟨tb, tx, tt⟩ := by
    unfold readVersions
    rw [wrapErr_ok htb, wrapErr_ok hto, wrapErr_ok htt]
    rfl
  unfold threeWayEffect
  simp only [hread, hr]
  split
  · obtain ⟨h, hh⟩ := hw.writes .merged p r.1
    simp only [writeMerged, wrapErr_ok hh]
    exact ⟨_, rfl⟩
  · obtain ⟨h, hh⟩ := hw.writes .conflict p r.1
    simp only [writeMerged, wrapErr_ok hh]
    exact ⟨_, rfl⟩

omit hplain in
theorem pathEffect_works (hw : world.Works base ours theirs)
    (hours : Describes diff.ourChanges base.entryAt ours.entryAt)
    (htheirs : Describes diff.theirChanges base.entryAt theirs.entryAt) (p : Path) :
    ∃ e, pathEffect world diff p (base.entryAt p) = .ok e := by
  unfold pathEffect
  cases ho : diff.ourChanges.lookup p with
  | none => cases diff.theirChanges.lookup p <;> exact ⟨_, rfl⟩
  | some o =>
    cases ht : diff.theirChanges.lookup p with
    | none => exact ⟨_, rfl⟩
    | some t =>
      simp only
      split
      · exact ⟨_, rfl⟩
      split
      · exact ⟨_, rfl⟩
      rename_i hd
      simp only [Bool.or_eq_true, not_or, Bool.not_eq_true] at hd
      split
      · exact ⟨_, rfl⟩
      have hblobO : world.hasBlob o.toHash = true := hw.blobs ours (by simp) p ⟨o.toHash, o.mode⟩
        (by rw [← (hours.entry ho).2, SideChange.entry_of_not_deleted hd.1])
      have hblobT : world.hasBlob t.toHash = true := hw.blobs theirs (by simp) p ⟨t.toHash, t.mode⟩
        (by rw [← (htheirs.entry ht).2, SideChange.entry_of_not_deleted hd.2])
      have hblobB : entryHash (base.entryAt p) ≠ .zero → world.hasBlob (entryHash (base.entryAt p)) = true := by
        cases hb : base.entryAt p with
        | none => exact fun h => absurd rfl h
        | some x => exact fun _ => hw.blobs base (by simp) p x hb
      exact threeWayEffect_works hw hblobB hblobO hblobT p

/-- **The merge is a three-way merge of maps**: in a clean or auto-resolved result a path that one side left alone is as the
other side has it, and one on which the sides agree as both have it; a deletion against a change is a hard conflict that names
the path, and it is returned when objects and subprocesses work; and the order of the paths does not show, as long as resolved
texts can be written. -/
theorem merge_three_way :
    (∀ order r, Iterates world repo source draftTip ancestor order →
        merge world repo source draftTip ancestor order = .ok r → r.kind ≠ .hardConflict → ∀ p,
          (theirs.entryAt p = base.entryAt p → r.mergedEntries.lookup p = ours.entryAt p) ∧
          (ours.entryAt p = base.entryAt p → r.mergedEntries.lookup p = theirs.entryAt p) ∧
          (ours.entryAt p = theirs.entryAt p → r.mergedEntries.lookup p = ours.entryAt p)) ∧
      (∀ order p, Iterates world repo source draftTip ancestor order →
        DeleteVsChange (base.entryAt p) (ours.entryAt p) (theirs.entryAt p) →
          (∀ r, merge world repo source draftTip ancestor order = .ok r → r.kind = .hardConflict ∧ ⟨p, []⟩ ∈ r.conflicts) ∧
          (world.Works base ours theirs → ∃ r, merge world repo source draftTip ancestor order = .ok r)) ∧
      (world.Writes .resolved → ∀ order order', Iterates world repo source draftTip ancestor order →
        Iterates world repo source draftTip ancestor order' → SameOutcome (merge world repo source draftTip ancestor order)
            (merge world repo source draftTip ancestor order')) := by
  refine ⟨?_, ?_, ?_⟩
  · intro _ r hit h _ p
    obtain ⟨diff, hd, h⟩ := merge_run hplain.sourceNew hplain.draftNew h
    obtain ⟨hbase, hours, htheirs⟩ := hplain.diff_spec hd
    have ha := fun hc => mergeDiff_agree (hit diff hd) hbase hours htheirs h (p := p) hc
    refine ⟨fun hp => ?_, fun hp => ?_, fun hp => ?_⟩
    · rw [ha (.inl hp), if_pos hp]
    · rw [ha (.inr (.inl hp))]
      split
      · rename_i ht
        rw [hp, ht]
      · rfl
    · rw [ha (.inr (.inr hp)), hp]
      simp
  · intro _ p hit hc
    constructor
    · intro r h
      obtain ⟨diff, hd, h⟩ := merge_run hplain.sourceNew hplain.draftNew h
      obtain ⟨hbase, hours, htheirs⟩ := hplain.diff_spec hd
      exact (mergeDiff_hard (hit diff hd) hbase hours htheirs hc).1 r h
    · intro hworks
      obtain ⟨diff, hd⟩ := hplain.diff_total hworks
      obtain ⟨hbase, hours, htheirs⟩ := hplain.diff_spec hd
      rw [merge_eq_mergeDiff hplain.sourceNew hplain.draftNew, hd]
      exact (mergeDiff_hard (hit diff hd) hbase hours htheirs hc).2
        (fun q _ => pathEffect_works hworks hours htheirs q)
  · intro hw _ _ hit hi'
    rw [merge_eq_mergeDiff hplain.sourceNew hplain.draftNew, merge_eq_mergeDiff hplain.sourceNew hplain.draftNew]
    cases hd : computeMergeDiff world repo ancestor draftTip source with
    | error => exact trivial
    | ok diff => exact mergeDiff_same (hit diff hd) hw (hi' diff hd)

end

/-- **The order in which a merge comes to the paths does not show**, whatever the diffs list, as long as resolved texts can be
written. -/
theorem merge_order {world : World} {repo : Repo} {source draftTip ancestor : Commit} {order' : List Path}
    (hw : world.Writes .resolved) (hit : Iterates world repo source draftTip ancestor order)
    (hi' : Iterates world repo source draftTip ancestor order') :
    SameOutcome (merge world repo source draftTip ancestor order) (merge world repo source draftTip ancestor order') := by
  unfold merge
  cases tryShortCircuit repo source draftTip ancestor with
  | some r =>
    cases r with
    | error => exact trivial
    | ok => exact ⟨rfl, rfl, rfl, rfl, .refl _⟩
  | none =>
    cases hd : computeMergeDiff world repo ancestor draftTip source with
    | error => exact trivial
    | ok diff => exact mergeDiff_same (hit diff hd) hw (hi' diff hd)

/-! ## Merges of one file and of two -/

def fullDiff (base t : Tree) : List Change :=
  ((base.entries ++ t.entries).map (·.name)).dedup.filterMap (fun p =>
    if base.entryAt p = t.entryAt p then none else some (report base t p))

theorem fullDiff_lists (base t : Tree) : ListsExactly base t (fullDiff base t) := fun _ => mem_diff

def plainWorld : World where
  diffTree := fun parent t => .ok (fullDiff (parent.getD Tree.empty) t)
  hasBlob := fun _ => true
  readBlob := fun _ _ _ => .ok []
  writeBlob := fun _ _ _ => .ok (.ofByte 7)
  writeTree := fun _ _ _ => .ok (.ofByte 8)
  mergeFile := fun _ _ _ _ => .ok ([], 1)
  diff := fun _ _ => .error "no diff"

/-- The names of a diff's entries are those in their directories. -/
def entryWorld : World := { plainWorld with diffTree := fun parent t => .ok (plainDiff parent t) }

def regular (b : Fin 256) : TreeEntry := ⟨.ofByte b, .regular⟩

def fileTree (b : Fin 256) : Tree := ⟨.file "a" ⟨.ofByte b, .regular⟩ .nil, rfl⟩

def base₁ : Commit := ⟨.ofByte 1, [], .ofByte 1, "", "", ""⟩
def draft₂ : Commit := ⟨.ofByte 2, [.ofByte 1], .ofByte 2, "", "", ""⟩
def source₃ : Commit := ⟨.ofByte 3, [.ofByte 1], .ofByte 3, "", "", ""⟩

/-- The base `01…`, and the draft `02…` and the source `03…` on it. -/
def threeCommits (base ours theirs : Tree) : Repo where
  commits := [base₁, draft₂, source₃]
  nodup := by decide
  nonzero := by decide
  tree := fun h => if h = .ofByte 2 then some ours else if h = .ofByte 1 then some base else some theirs
  references := .ok []
  head := .error .referenceNotFound

theorem threeCommits_plain {base ours theirs : Tree}
    (hdiff : ∀ parent t, world.diffTree parent t = .ok (fullDiff (parent.getD Tree.empty) t)) (hb : FilesOnly base)
    (ho : FilesOnly ours) (ht : FilesOnly theirs) :
    PlainMerge world (threeCommits base ours theirs) source₃ draft₂ base₁ base ours theirs where
  ancestorTree := rfl
  draftTree := rfl
  sourceTree := rfl
  sourceNew := by decide
  draftNew := by decide
  baseFiles := hb
  oursFiles := ho
  theirsFiles := ht
  oursList := fun _ h => by cases (hdiff _ _).symm.trans h; exact fullDiff_lists _ _
  theirsList := fun _ h => by cases (hdiff _ _).symm.trans h; exact fullDiff_lists _ _

def fileRepo : Repo := threeCommits (fileTree 1) Tree.empty (fileTree 3)

theorem merge_three_way_deleted : ∃ r,
    merge plainWorld fileRepo source₃ draft₂ base₁ ["a"] = .ok r ∧ r.kind = .hardConflict ∧ ⟨"a", []⟩ ∈ r.conflicts := by
  have hplain : PlainMerge plainWorld fileRepo source₃ draft₂ base₁ (fileTree 1) Tree.empty (fileTree 3) :=
    threeCommits_plain (fun _ _ => rfl) (by decide) (by decide) (by decide)
  have hit : Iterates plainWorld fileRepo source₃ draft₂ base₁ ["a"] := iterates_of rfl (by decide) (by decide)
  have hc : DeleteVsChange ((fileTree 1).entryAt "a") (Tree.empty.entryAt "a") ((fileTree 3).entryAt "a") :=
    ⟨by decide, .inl ⟨rfl, by decide, by decide⟩⟩
  obtain ⟨-, hh, -⟩ := merge_three_way hplain
  obtain ⟨hn, hreturns⟩ := hh ["a"] "a" hit hc
  obtain ⟨r, hr⟩ := hreturns ⟨fun _ _ _ _ _ => rfl, fun _ _ _ _ => ⟨_, rfl⟩, fun _ _ _ => ⟨_, rfl⟩,
    fun _ _ => ⟨_, rfl⟩, fun _ _ _ _ => ⟨_, rfl⟩⟩
  exact ⟨r, hr, hn r hr⟩

def blanksMarkers : Text := "<<<<<<< ours\nx \n=======\nx\t\n>>>>>>> theirs\n".toList

/-- The draft adds a blank at the end of the line; the source adds a tab in the file `a`, and elsewhere another line.  `stores`
says whether a resolved text is written. -/
def blanksWorld (stores : Bool) : World :=
  { plainWorld with
    readBlob := fun p role _ => .ok (match role with
      | .base => "x\n".toList
      | .ours => "x \n".toList
      | .theirs => if p = "a" then "x\t\n".toList else "x\ny\n".toList)
    writeBlob := fun _ site _ => match site with
      | .resolved => if stores then .ok (.ofByte 9) else .error ⟨"no space left on device"⟩
      | _ => .ok (.ofByte 7)
    mergeFile := fun _ _ _ _ => .ok (blanksMarkers, 1) }

def pairTree (b : Fin 256) : Tree := ⟨.file "a" ⟨.ofByte b, .regular⟩ (.file "b" ⟨.ofByte (b + 3), .regular⟩ .nil), rfl⟩

def pairRepo : Repo := threeCommits (pairTree 1) (pairTree 2) (pairTree 3)

theorem merge_order_pair : SameOutcome (merge (blanksWorld true) pairRepo source₃ draft₂ base₁ ["a", "b"])
    (merge (blanksWorld true) pairRepo source₃ draft₂ base₁ ["b", "a"]) :=
  merge_order (fun _ _ => ⟨_, rfl⟩) (iterates_of rfl (by decide) (by decide)) (iterates_of rfl (by decide) (by decide))

/-- **A lost write makes the order show**: no rule settles `b`, and the text that settles `a` cannot be written.  With `a` first
the loop ends there, and the merge is not in conflict; with `b` first it is. -/
theorem order_shows :
    PlainMerge (blanksWorld false) pairRepo source₃ draft₂ base₁ (pairTree 1) (pairTree 2) (pairTree 3) ∧
      Iterates (blanksWorld false) pairRepo source₃ draft₂ base₁ ["a", "b"] ∧
      Iterates (blanksWorld false) pairRepo source₃ draft₂ base₁ ["b", "a"] ∧
      ¬ SameOutcome (merge (blanksWorld false) pairRepo source₃ draft₂ base₁ ["a", "b"])
        (merge (blanksWorld false) pairRepo source₃ draft₂ base₁ ["b", "a"]) := by
  refine ⟨threeCommits_plain (fun _ _ => rfl) (by decide) (by decide) (by decide), iterates_of rfl (by decide) (by decide),
    iterates_of rfl (by decide) (by decide), ?_⟩
  have hfirst : ∃ m files, merge (blanksWorld false) pairRepo source₃ draft₂ base₁ ["a", "b"] =
      finish (blanksWorld false) ⟨m, [], files⟩ := ⟨_, _, rfl⟩
  have hlast : ∃ m c, merge (blanksWorld false) pairRepo source₃ draft₂ base₁ ["b", "a"] =
      .ok ⟨.hardConflict, none, none, [c], m⟩ := ⟨_, _, rfl⟩
  obtain ⟨m, files, hm⟩ := hfirst
  obtain ⟨_, c, hc⟩ := hlast
  rw [hm, hc, finish]
  cases buildTree (blanksWorld false) true m with
  | error => exact id
  | ok => exact fun hs => by cases hs.1

end Jamsesh.Automerger
