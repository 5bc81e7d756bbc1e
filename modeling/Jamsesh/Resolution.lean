import Jamsesh.TreeBuild
/-!
# Resolution — what becomes of the conflicted files

`resolveConflicts` puts resolved texts in the place of the markers, up to the first write that fails (`resolveLoop_spec`), and
`Merge` reads the error of a resolved result only.  So a failure is reported exactly when nothing was unresolved before it and
the tree of the map as it is cannot be written either (`failures_reported_iff`).
-/
namespace Jamsesh.Automerger

open Finmap Git KeyedFold List

/-! ## The loop -/

def written (world : World) (cf : ConflictedFile) : Bool :=
  match tryAutoResolve world.diff cf.base cf.ours cf.theirs with
  | none => true
  | some (resolved, _) => (world.writeBlob cf.path .resolved resolved).isOk

def unresolved (world : World) (cf : ConflictedFile) : Bool := (tryAutoResolve world.diff cf.base cf.ours cf.theirs).isNone

def ConflictedFile.conflict (cf : ConflictedFile) : Conflict := ⟨cf.path, cf.ranges⟩

/-- **The loop meets a file that no rule settles**, before a write fails. -/
def Stuck (world : World) (cfs : List ConflictedFile) : Prop :=
  ∃ cf ∈ cfs.takeWhile (written world), unresolved world cf = true

/-- **A conflicted file is resolved in a map**: its entry is the blob of the text that settles it. -/
def Resolved (world : World) (cf : ConflictedFile) (m : FlatTree) : Prop :=
  ∃ resolved heuristic h, tryAutoResolve world.diff cf.base cf.ours cf.theirs = some (resolved, heuristic) ∧
    world.writeBlob cf.path .resolved resolved = .ok h ∧ m.lookup cf.path = some ⟨h, cf.mode⟩

section
variable (world : World)

theorem resolveLoop_unresolved {cf : ConflictedFile} (h : unresolved world cf = true) (cfs : List ConflictedFile)
    (acc : ResolveState) : written world cf = true ∧ resolveLoop world (cf :: cfs) acc = resolveLoop world cfs
        ⟨{ acc.state with hardConflicts := acc.state.hardConflicts ++ [cf.conflict] }, acc.worst, false⟩ := by
  have hn := Option.isNone_iff_eq_none.1 h
  simp only [written, resolveLoop, hn, true_and]
  rfl

theorem resolveLoop_resolved {cf : ConflictedFile} (h : unresolved world cf = false) (cfs : List ConflictedFile)
    (acc : ResolveState) : ∃ resolved heuristic,
      tryAutoResolve world.diff cf.base cf.ours cf.theirs = some (resolved, heuristic) ∧
      ((∃ e, world.writeBlob cf.path .resolved resolved = .error e ∧ written world cf = false ∧
          resolveLoop world (cf :: cfs) acc = (⟨acc.state, worse acc.worst heuristic, acc.allResolved⟩, false)) ∨
        (∃ x, world.writeBlob cf.path .resolved resolved = .ok x ∧ written world cf = true ∧
          resolveLoop world (cf :: cfs) acc = resolveLoop world cfs
            ⟨acc.state.setEntry cf.path (some ⟨x, cf.mode⟩), worse acc.worst heuristic, acc.allResolved⟩)) := by
  unfold unresolved at h
  cases hr : tryAutoResolve world.diff cf.base cf.ours cf.theirs with
  | none => rw [hr] at h; cases h
  | some r =>
    obtain ⟨resolved, heuristic⟩ := r
    refine ⟨resolved, heuristic, rfl, ?_⟩
    cases hw : world.writeBlob cf.path .resolved resolved with
    | error e => exact .inl ⟨e, rfl, by simp only [written, hr, hw]; rfl, by simp only [resolveLoop, hr, hw]⟩
    | ok x => exact .inr ⟨x, rfl, by simp only [written, hr, hw]; rfl, by simp only [resolveLoop, hr, hw]⟩

/-- **What the loop comes to**: it ends when every write goes through, and up to the first that fails it notes the files that
no rule settles. -/
theorem resolveLoop_spec : ∀ (cfs : List ConflictedFile) (acc : ResolveState),
    (resolveLoop world cfs acc).2 = cfs.all (written world) ∧
    (resolveLoop world cfs acc).1.allResolved = (acc.allResolved && !(cfs.takeWhile (written world)).any (unresolved world)) ∧
    (resolveLoop world cfs acc).1.state.hardConflicts = acc.state.hardConflicts ++
      ((cfs.takeWhile (written world)).filter (unresolved world)).map ConflictedFile.conflict
  | [], acc => by simp [resolveLoop]
  | cf :: cfs, acc => by
    cases hu : unresolved world cf with
    | true =>
      obtain ⟨hw, hs⟩ := resolveLoop_unresolved world hu cfs acc
      obtain ⟨he, ha, hh⟩ := resolveLoop_spec cfs
        ⟨{ acc.state with hardConflicts := acc.state.hardConflicts ++ [cf.conflict] }, acc.worst, false⟩
      rw [hs, he, ha, hh, takeWhile_cons_of_pos hw, filter_cons_of_pos hu]
      simp [hw, hu]
    | false =>
      obtain ⟨_, heuristic, -, ⟨e, -, hw, hs⟩ | ⟨x, -, hw, hs⟩⟩ := resolveLoop_resolved world hu cfs acc
      · rw [hs, takeWhile_cons_of_neg (by simp [hw])]
        simp [hw]
      obtain ⟨he, ha, hh⟩ := resolveLoop_spec cfs
        ⟨acc.state.setEntry cf.path (some ⟨x, cf.mode⟩), worse acc.worst heuristic, acc.allResolved⟩
      rw [hs, he, ha, hh, takeWhile_cons_of_pos hw, filter_cons_of_neg (by simp [hu])]
      simp [hw, hu, MergeState.setEntry]

theorem resolveLoop_settles : ∀ (cfs : List ConflictedFile) (acc : ResolveState), (cfs.map ConflictedFile.path).Nodup →
    ∀ cf ∈ cfs.takeWhile (written world), unresolved world cf = false →
      Resolved world cf (resolveLoop world cfs acc).1.state.mergedEntries
  | [], _, _, _, hcf, _ => by cases hcf
  | cf' :: cfs, acc, hn, cf, hcf, hu => by
    obtain ⟨hnot, hn⟩ := nodup_cons.1 hn
    cases hu' : unresolved world cf' with
    | true =>
      obtain ⟨hw, hs⟩ := resolveLoop_unresolved world hu' cfs acc
      rw [takeWhile_cons_of_pos hw] at hcf
      rcases mem_cons.1 hcf with rfl | hcf
      · rw [hu'] at hu
        cases hu
      · rw [hs]
        exact resolveLoop_settles cfs _ hn cf hcf hu
    | false =>
      obtain ⟨resolved, heuristic, hr, ⟨e, -, hw, -⟩ | ⟨x, hx, hw, hs⟩⟩ := resolveLoop_resolved world hu' cfs acc
      · rw [takeWhile_cons_of_neg (by simp [hw])] at hcf
        cases hcf
      rw [takeWhile_cons_of_pos hw] at hcf
      rw [hs]
      rcases mem_cons.1 hcf with rfl | hcf
      · refine ⟨resolved, heuristic, x, hr, hx, ?_⟩
        rw [resolveLoop_frame world cfs _ hnot]
        exact Map.lookup_set_self _ _ _
      · exact resolveLoop_settles cfs _ hn cf hcf hu

end

/-! ## The end of the merge -/

def leftState (world : World) (st : MergeState) : MergeState := (resolveLoop world st.conflictedFiles ⟨st, none, true⟩).1.state

def resolvesAll (world : World) (cfs : List ConflictedFile) : Bool :=
  cfs.all (fun cf => written world cf && !unresolved world cf)

section
variable {world : World} {st : MergeState}

theorem resolvesAll_iff {cfs : List ConflictedFile} :
    resolvesAll world cfs = true ↔ cfs.all (written world) = true ∧ ¬ Stuck world cfs := by
  unfold resolvesAll Stuck
  constructor
  · intro h
    have hb : ∀ cf ∈ cfs, written world cf = true ∧ unresolved world cf = false := fun cf hcf => by
      have hcf := all_eq_true.1 h cf hcf
      rwa [Bool.and_eq_true, Bool.not_eq_true'] at hcf
    refine ⟨all_eq_true.2 fun cf hcf => (hb cf hcf).1, ?_⟩
    rintro ⟨cf, hcf, hu⟩
    rw [(hb cf (takeWhile_subset _ hcf)).2] at hu
    cases hu
  · rintro ⟨hw, hs⟩
    rw [takeWhile_eq_self_iff.2 (all_eq_true.1 hw)] at hs
    refine all_eq_true.2 fun cf hcf => ?_
    rw [all_eq_true.1 hw cf hcf, Bool.true_and, Bool.not_eq_true', ← Bool.not_eq_true]
    exact fun hu => hs ⟨cf, hcf, hu⟩

theorem stuck_iff_hard (hh : st.hardConflicts = []) :
    Stuck world st.conflictedFiles ↔ (leftState world st).hardConflicts ≠ [] := by
  rw [leftState, (resolveLoop_spec world st.conflictedFiles ⟨st, none, true⟩).2.2, hh, nil_append, ne_eq,
    map_eq_nil_iff, filter_eq_nil_iff]
  simp [Stuck]

/-- **The merge after a resolution**: the tree of the resolved files, or what `finish` makes of the state the loop leaves. -/
theorem conclude_resolving (hc : st.conflictedFiles ≠ []) (hh : st.hardConflicts = []) :
    conclude world st = if resolvesAll world st.conflictedFiles then
        match buildTree world false (leftState world st).mergedEntries with
        | .error _ => finish world (leftState world st)
        | .ok h => .ok ⟨.safeAutoResolve, some h, (resolveLoop world st.conflictedFiles ⟨st, none, true⟩).1.worst, [],
            (leftState world st).mergedEntries⟩
      else finish world (leftState world st) := by
  obtain ⟨hend, ha, -⟩ := resolveLoop_spec world st.conflictedFiles ⟨st, none, true⟩
  have hany : (st.conflictedFiles.takeWhile (written world)).any (unresolved world) = true ↔ Stuck world st.conflictedFiles :=
    any_eq_true
  unfold conclude leftState
  rw [if_pos (length_pos_iff.2 hc), if_pos (by rw [hh]; rfl)]
  unfold resolveConflicts
  cases hl : resolveLoop world st.conflictedFiles ⟨st, none, true⟩ with
  | mk acc ended =>
    rw [hl] at hend ha
    rw [Bool.true_and] at ha
    by_cases hr : resolvesAll world st.conflictedFiles = true
    · obtain ⟨hw, hs⟩ := resolvesAll_iff.1 hr
      have he : ended = true := hend.trans hw
      have hresolved : acc.allResolved = true := by rw [ha, Bool.not_eq_true', ← Bool.not_eq_true, hany]; exact hs
      subst he
      rw [if_pos hr]
      simp only [hresolved]
      cases buildTree world false acc.state.mergedEntries <;> rfl
    · rw [if_neg hr]
      cases ended with
      | false => rfl
      | true =>
        have hresolved : acc.allResolved = false := by
          rw [ha, Bool.not_eq_false', hany]
          by_contra hs
          exact hr (resolvesAll_iff.2 ⟨hend.symm, hs⟩)
        simp only [hresolved, Bool.not_false, if_true]

theorem finish_of_hard (world : World) (h : st.hardConflicts ≠ []) :
    ∃ r, finish world st = .ok r ∧ r.kind = .hardConflict := by
  obtain ⟨c, hc⟩ := exists_mem_of_ne_nil _ h
  exact ⟨_, finish_hard hc, rfl⟩

theorem finish_of_none (world : World) (h : st.hardConflicts = []) :
    (∃ x, buildTree world true st.mergedEntries = .ok x ∧
        finish world st = .ok ⟨.cleanMerge, some x, none, [], st.mergedEntries⟩) ∨
      ((∃ e, buildTree world true st.mergedEntries = .error e) ∧ ∃ e, finish world st = .error e) := by
  unfold finish
  rw [if_neg (by simp [h])]
  cases buildTree world true st.mergedEntries with
  | error e => exact .inr ⟨⟨e, rfl⟩, _, rfl⟩
  | ok x => exact .inl ⟨x, rfl, rfl⟩

theorem finish_kind {r : MergeResult} (h : finish world st = .ok r) : r.kind = .hardConflict ↔ st.hardConflicts ≠ [] := by
  by_cases hh : st.hardConflicts = []
  · rcases finish_of_none world hh with ⟨x, -, hx⟩ | ⟨-, e, he⟩
    · cases hx.symm.trans h
      simp [hh]
    · rw [he] at h
      cases h
  · obtain ⟨_, hr', hk⟩ := finish_of_hard world hh
    cases hr'.symm.trans h
    simp [hk, hh]

/-- **When a merge ends in a hard conflict**: one was found while the paths were settled, or the resolution is stuck. -/
theorem conclude_kind {r : MergeResult} (h : conclude world st = .ok r) :
    r.kind = .hardConflict ↔ st.hardConflicts ≠ [] ∨ Stuck world st.conflictedFiles := by
  by_cases hh : st.hardConflicts = []
  · by_cases hc : st.conflictedFiles = []
    · rw [conclude_clean st (by simp [hc])] at h
      rw [finish_kind h]
      simp [hc, Stuck]
    rw [conclude_resolving hc hh] at h
    rw [stuck_iff_hard hh, or_iff_right (not_not.2 hh)]
    split at h
    · rename_i hr
      have hf := (resolvesAll_iff.1 hr).2
      rw [stuck_iff_hard hh] at hf
      split at h
      · exact finish_kind h
      · cases h
        simp only [hf, reduceCtorEq]
    · exact finish_kind h
  · obtain ⟨c, hc⟩ := exists_mem_of_ne_nil _ hh
    obtain ⟨_, hr', hk, -⟩ := conclude_hard hc
    cases hr'.symm.trans h
    simp [hk, hh]

theorem conclude_left {r : MergeResult} (h : conclude world st = .ok r) (hkind : r.kind ≠ .hardConflict) :
    r.mergedEntries = (leftState world st).mergedEntries := by
  have hno := mt (conclude_kind h).2 hkind
  rw [not_or, not_not] at hno
  by_cases hc : st.conflictedFiles = []
  · rw [conclude_clean st (by simp [hc])] at h
    rw [finish_frame h, leftState, hc, resolveLoop]
  rw [conclude_resolving hc hno.1] at h
  split at h
  · split at h
    · exact finish_frame h
    · cases h
      rfl
  · exact finish_frame h

end

/-! ## Failures -/

/-- **The state that the merge hands to its end**: it does not short-circuit, and settles its paths. -/
def Settles (world : World) (repo : Repo) (source draftTip ancestor : Commit) (order : List Path) (st : MergeState) : Prop :=
  tryShortCircuit repo source draftTip ancestor = none ∧
    ∃ diff, computeMergeDiff world repo ancestor draftTip source = .ok diff ∧ applyChangesPerPath world diff order = .ok st

/-- **A failure during resolution**: of the write of a resolved text, or of the tree of the resolved files. -/
def ResolutionFails (world : World) (st : MergeState) : Prop :=
  st.hardConflicts = [] ∧ ((∃ cf ∈ st.conflictedFiles, written world cf = false) ∨
    (st.conflictedFiles ≠ [] ∧ resolvesAll world st.conflictedFiles = true ∧
      ∃ e, buildTree world false (leftState world st).mergedEntries = .error e))

/-- **No failure is lost**: without a hard conflict every conflicted file is resolved, and whatever fails while the paths are
settled or the conflicts resolved is the merge's own failure. -/
structure FailuresReported (world : World) (repo : Repo) (source draftTip ancestor : Commit) (order : List Path) : Prop where
  resolved : ∀ st r, Settles world repo source draftTip ancestor order st →
    merge world repo source draftTip ancestor order = .ok r → r.kind ≠ .hardConflict →
      ∀ cf ∈ st.conflictedFiles, Resolved world cf r.mergedEntries
  settling : ∀ diff e, tryShortCircuit repo source draftTip ancestor = none →
    computeMergeDiff world repo ancestor draftTip source = .ok diff → applyChangesPerPath world diff order = .error e →
      merge world repo source draftTip ancestor order = .error e
  resolution : ∀ st, Settles world repo source draftTip ancestor order st → ResolutionFails world st →
    ∃ e, merge world repo source draftTip ancestor order = .error e

section
variable {world : World} {repo : Repo} {source draftTip ancestor : Commit} {order : List Path} {st : MergeState}

theorem merge_settling {diff : MergeDiff} (hs : tryShortCircuit repo source draftTip ancestor = none)
    (hdiff : computeMergeDiff world repo ancestor draftTip source = .ok diff) :
    merge world repo source draftTip ancestor order = applyChangesPerPath world diff order >>= conclude world := by
  rw [merge, hs]
  simp only [hdiff]
  rfl

theorem Settles.merge_eq (h : Settles world repo source draftTip ancestor order st) :
    merge world repo source draftTip ancestor order = conclude world st := by
  obtain ⟨hs, _, hd, hst⟩ := h
  rw [merge_settling hs hd, hst]
  rfl

theorem Settles.nodup (h : Settles world repo source draftTip ancestor order st)
    (hit : Iterates world repo source draftTip ancestor order) : (st.conflictedFiles.map ConflictedFile.path).Nodup := by
  obtain ⟨-, diff, hd, hst⟩ := h
  have hn := (hit diff hd).nodup
  have ha : applyChangesPerPath world diff order
      = (run id (pathEffect world diff) order diff.mergedEntries []).map (fun r => toState r.1 r.2) :=
    applyPaths_eq world diff order diff.mergedEntries []
  rw [ha] at hst
  cases hr : run id (pathEffect world diff) order diff.mergedEntries [] with
  | error => rw [hr] at hst; cases hst
  | ok =>
    rw [hr] at hst
    cases hst
    exact (ran_of_run hn hr).nodup hn

/-- **After a failed resolution** the merge is a hard conflict if the loop was stuck, and the tree of what is there if not. -/
theorem conclude_failed (hfails : ResolutionFails world st) :
    (∃ e, conclude world st = .error e) ↔
      ¬ Stuck world st.conflictedFiles ∧ ∃ e, buildTree world true (leftState world st).mergedEntries = .error e := by
  obtain ⟨hh, hfails⟩ := hfails
  have hc : st.conflictedFiles ≠ [] := by
    rcases hfails with ⟨_, hcf, -⟩ | ⟨hc, -⟩
    · exact ne_nil_of_mem hcf
    · exact hc
  have hf : conclude world st = finish world (leftState world st) := by
    rw [conclude_resolving hc hh]
    rcases hfails with ⟨cf, hcf, hw⟩ | ⟨-, hr, e, he⟩
    · refine if_neg fun hr => ?_
      have := all_eq_true.1 (resolvesAll_iff.1 hr).1 cf hcf
      rw [hw] at this
      cases this
    · rw [if_pos hr, he]
  rw [hf, stuck_iff_hard hh, not_not]
  by_cases hl : (leftState world st).hardConflicts = []
  · rcases finish_of_none world hl with ⟨x, hx, hr⟩ | ⟨herr, hr⟩
    · simp [hx, hr]
    · exact ⟨fun _ => ⟨hl, herr⟩, fun _ => hr⟩
  · obtain ⟨r, hr, -⟩ := finish_of_hard world hl
    simp [hl, hr]

/-- **When no failure of the merge is lost**: a failed resolution was not stuck before it failed, and the second attempt to
write the tree fails too. -/
theorem failures_reported_iff (hit : Iterates world repo source draftTip ancestor order) :
    FailuresReported world repo source draftTip ancestor order ↔
      ∀ st, Settles world repo source draftTip ancestor order st → ResolutionFails world st →
        ¬ Stuck world st.conflictedFiles ∧ ∃ e, buildTree world true (leftState world st).mergedEntries = .error e := by
  constructor
  · intro h st hst hf
    have herr := h.resolution st hst hf
    rw [hst.merge_eq] at herr
    exact (conclude_failed hf).1 herr
  · intro h
    have hreported : ∀ st, Settles world repo source draftTip ancestor order st → ResolutionFails world st →
        ∃ e, conclude world st = .error e := fun st hst hf => (conclude_failed hf).2 (h st hst hf)
    refine ⟨fun st r hst hr hk cf hcf => ?_, fun _ e hs hd hfail => ?_, fun st hst hf => ?_⟩
    · rw [hst.merge_eq] at hr
      obtain ⟨hh, hfree⟩ := not_or.1 (mt (conclude_kind hr).2 hk)
      -- a write that failed would have been reported
      have ha : ∀ cf ∈ st.conflictedFiles, written world cf = true := by
        intro cf hcf
        by_contra hw
        obtain ⟨e, he⟩ := hreported st hst ⟨not_not.1 hh, .inl ⟨cf, hcf, Bool.eq_false_iff.2 hw⟩⟩
        rw [he] at hr
        cases hr
      have ht := takeWhile_eq_self_iff.2 ha
      rw [conclude_left hr hk]
      refine resolveLoop_settles world st.conflictedFiles _ (hst.nodup hit) cf (by rwa [ht]) ?_
      rw [Bool.eq_false_iff]
      exact fun hu => hfree ⟨cf, by rwa [ht], hu⟩
    · rw [merge_settling hs hd, hfail]
      rfl
    · rw [hst.merge_eq]
      exact hreported st hst hf

end

/-! ## Trailing blanks on both sides -/

def blanksRepo : Repo := threeCommits (fileTree 1) (fileTree 2) (fileTree 3)

def blanksFile : ConflictedFile := ⟨"a", "x\n".toList, "x \n".toList, "x\t\n".toList, .regular, [⟨1, 5⟩]⟩

def blanksState : MergeState := ⟨(fileTree 1).flat.insert "a" (regular 7), [], [blanksFile]⟩

section
variable (stores : Bool)

theorem blanks_settles {st : MergeState} : Settles (blanksWorld stores) blanksRepo source₃
    draft₂ base₁ ["a"] st ↔ st = blanksState := by
  constructor
  · rintro ⟨-, _, hd, hst⟩
    cases hd
    cases hst
    rfl
  · rintro rfl
    exact ⟨rfl, _, rfl, rfl⟩

end

theorem failures_reported_iff_blanks :
    FailuresReported (blanksWorld true) blanksRepo source₃ draft₂ base₁
      ["a"] := by
  refine (failures_reported_iff (iterates_of rfl (by decide) (by decide))).2 fun _ hst hf => ?_
  cases (blanks_settles true).1 hst
  obtain ⟨-, ⟨_, hcf, hw⟩ | ⟨-, -, e, he⟩⟩ := hf
  · cases mem_singleton.1 hcf
    exact absurd hw (by decide)
  -- the map that the loop leaves has the resolved text at `a`
  have hl : (leftState (blanksWorld true) blanksState).mergedEntries =
      ((fileTree 1).flat.insert "a" (regular 7)).insert "a" (regular 9) := rfl
  rw [hl, insert_insert] at he
  have hm : Placed ((fileTree 1).flat.insert "a" (regular 9)) := placed_of_keys (by decide)
  have hw : Stores (blanksWorld true) false (fun _ => .ofByte 8) := ⟨fun _ _ => rfl⟩
  obtain ⟨h, hh⟩ := hm.buildTree_ok (by decide) hw
  rw [hh] at he
  cases he

/-- **A lost write leaves the conflict markers in a clean merge**: the rule for blanks settles the conflict, and the resolved
text cannot be stored. -/
theorem markers_in_clean_merge : ∃ r,
    merge (blanksWorld false) blanksRepo source₃ draft₂ base₁ ["a"]
        = .ok r ∧
      r.kind = .cleanMerge ∧ (blanksWorld false).writeBlob "a" .conflict blanksMarkers = .ok (.ofByte 7) ∧
      r.mergedEntries.lookup "a" = some ⟨.ofByte 7, .regular⟩ ∧
      ¬ FailuresReported (blanksWorld false) blanksRepo source₃ draft₂ base₁
        ["a"] := by
  have hst := (blanks_settles false).2 rfl
  have hm : Placed blanksState.mergedEntries := placed_of_keys (by decide)
  have hw : Stores (blanksWorld false) true (fun _ => .ofByte 8) := ⟨fun _ _ => rfl⟩
  obtain ⟨h, hrun⟩ : ∃ h, conclude (blanksWorld false) blanksState =
      .ok ⟨.cleanMerge, some h, none, [], blanksState.mergedEntries⟩ := hm.finish_ok (by decide) hw _
  refine ⟨_, hst.merge_eq.trans hrun, rfl, rfl, lookup_insert _, fun hr => ?_⟩
  obtain ⟨e, he⟩ := hr.resolution _ hst ⟨rfl, .inl ⟨blanksFile, mem_cons_self, by decide⟩⟩
  rw [hst.merge_eq, hrun] at he
  cases he

end Jamsesh.Automerger
