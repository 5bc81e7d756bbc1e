import Jamsesh.Merge
/-!
# MergeLaws — the two loops of the merge, and that their order does not show

The loop over the paths is a keyed loop (`KeyedFold`), so each path is settled from the base entry and the two side changes
alone, whatever the order (`pathEffect`, `applyPaths_eq`).  So is that over the conflicted files as long as its writes go
through (`resolveLoop_eq`), and what follows reads the conflicts as a set (`conclude_same`).
-/
namespace Jamsesh.Automerger

open Git KeyedFold List

/-! ## The loop over the paths -/

abbrev Note := Conflict ⊕ ConflictedFile

def hardOf (log : List Note) : List Conflict := log.filterMap Sum.getLeft?
def conflictedOf (log : List Note) : List ConflictedFile := log.filterMap Sum.getRight?

def toState (m : FlatTree) (log : List Note) : MergeState := ⟨m, hardOf log, conflictedOf log⟩

@[simp] theorem toState_mergedEntries (m : FlatTree) (log : List Note) : (toState m log).mergedEntries = m := rfl
@[simp] theorem toState_set (m : FlatTree) (log : List Note) (p : Path) (e : Option TreeEntry) :
    (toState m log).setEntry p e = toState (Map.set m p e) log := rfl

theorem toState_hardConflicts (m : FlatTree) (log : List Note) : (toState m log).hardConflicts = hardOf log := rfl
@[simp] theorem toState_conflictedFiles (m : FlatTree) (log : List Note) :
    (toState m log).conflictedFiles = conflictedOf log := rfl

def threeWayEffect (world : World) (path : Path) (cur : Option TreeEntry) (ourCh theirCh : SideChange) :
    Except String (Effect TreeEntry Note) :=
  match readVersions world path (entryHash cur) ourCh.toHash theirCh.toHash with
  | .error e => .error e
  | .ok v =>
    match world.mergeFile path v.base v.ours v.theirs with
    | .error e => .error ("automerger: merge-file " ++ path ++ ": " ++ e)
    | .ok (merged, numConflicts) =>
      if numConflicts = 0 then (writeMerged world path .merged merged).map (fun h => ⟨some (some ⟨h, ourCh.mode⟩), []⟩)
      else (writeMerged world path .conflict merged).map (fun h =>
        ⟨some (some ⟨h, ourCh.mode⟩),
          [.inr ⟨path, v.base, v.ours, v.theirs, ourCh.mode, parseConflictRanges merged⟩]⟩)

/-- **What the round over a path does**, given the entry the base has there. -/
def pathEffect (world : World) (diff : MergeDiff) (path : Path) (cur : Option TreeEntry) :
    Except String (Effect TreeEntry Note) :=
  match diff.ourChanges.lookup path, diff.theirChanges.lookup path with
  | none, some theirCh => .ok ⟨some theirCh.entry, []⟩
  | some ourCh, none => .ok ⟨some ourCh.entry, []⟩
  | some ourCh, some theirCh =>
    if ourCh.deleted && theirCh.deleted then .ok ⟨some none, []⟩
    else if ourCh.deleted || theirCh.deleted then .ok ⟨none, [.inl ⟨path, []⟩]⟩
    else if ourCh.toHash = theirCh.toHash then .ok ⟨some (some ⟨ourCh.toHash, ourCh.mode⟩), []⟩
    else threeWayEffect world path cur ourCh theirCh
  | none, none => .ok ⟨none, []⟩

/-- The content merge of a path: three blobs, what `merge-file` makes of them, and the blob that is written of it. -/
theorem threeWayEffect_ok {world : World} {p : Path} {cur : Option TreeEntry} {o t : SideChange} {e : Effect TreeEntry Note}
    (h : threeWayEffect world p cur o t = .ok e) : ∃ v out x, readVersions world p (entryHash cur) o.toHash t.toHash = .ok v ∧
      world.mergeFile p v.base v.ours v.theirs = .ok out ∧ (out.2 = 0 → writeMerged world p .merged out.1 = .ok x) ∧
      e = ⟨some (some ⟨x, o.mode⟩),
        if out.2 = 0 then [] else [.inr ⟨p, v.base, v.ours, v.theirs, o.mode, parseConflictRanges out.1⟩]⟩ := by
  unfold threeWayEffect at h
  split at h
  · cases h
  rename_i v hv
  split at h
  · cases h
  rename_i merged n hm
  split at h
  · rename_i hn
    cases hw : writeMerged world p .merged merged with
    | error => rw [hw] at h; cases h
    | ok x =>
      rw [hw] at h
      cases h
      exact ⟨v, _, x, hv, hm, fun _ => hw, by rw [if_pos hn]⟩
  · rename_i hn
    cases hw : writeMerged world p .conflict merged with
    | error => rw [hw] at h; cases h
    | ok x =>
      rw [hw] at h
      cases h
      exact ⟨v, _, x, hv, hm, fun hz => absurd hz hn, by rw [if_neg hn]⟩

theorem toState_hard (m : FlatTree) (log : List Note) (c : Conflict) :
    { toState m log with hardConflicts := (toState m log).hardConflicts ++ [c] } = toState m (log ++ [.inl c]) := by
  simp [toState, hardOf, conflictedOf]

theorem toState_conflicted (m : FlatTree) (log : List Note) (cf : ConflictedFile) :
    { toState m log with conflictedFiles := (toState m log).conflictedFiles ++ [cf] } = toState m (log ++ [.inr cf]) := by
  simp [toState, hardOf, conflictedOf]

def afterEffect (m : FlatTree) (log : List Note) (p : Path) (r : Except String (Effect TreeEntry Note)) :
    Except String MergeState :=
  match r with
  | .error e => .error e
  | .ok e => .ok (toState (e.on m p) (log ++ e.out))

theorem runThreeWayMerge_eq (world : World) (m : FlatTree) (log : List Note) (p : Path) (ourCh theirCh : SideChange) :
    runThreeWayMerge world (toState m log) p ourCh theirCh
      = afterEffect m log p (threeWayEffect world p (m.lookup p) ourCh theirCh) := by
  unfold runThreeWayMerge threeWayEffect
  rw [toState_mergedEntries]
  cases readVersions world p (entryHash (m.lookup p)) ourCh.toHash theirCh.toHash with
  | error => rfl
  | ok v =>
    simp only
    cases world.mergeFile p v.base v.ours v.theirs with
    | error => rfl
    | ok r =>
      by_cases hr : r.2 = 0
      · simp only [if_pos hr]
        cases writeMerged world p .merged r.1 with
        | error => rfl
        | ok => simp [afterEffect, Effect.on, Except.map, toState_set]
      · simp only [if_neg hr]
        cases writeMerged world p .conflict r.1 with
        | error => rfl
        | ok h => exact congrArg Except.ok (toState_conflicted (Map.set m p (some ⟨h, ourCh.mode⟩)) log _)

theorem applyPath_eq (world : World) (diff : MergeDiff) (m : FlatTree) (log : List Note) (p : Path) :
    applyPath world diff (toState m log) p = afterEffect m log p (pathEffect world diff p (m.lookup p)) := by
  unfold applyPath pathEffect
  cases diff.ourChanges.lookup p with
  | none =>
    cases diff.theirChanges.lookup p with
    | none => simp [afterEffect, Effect.on]
    | some => simp [afterEffect, Effect.on, toState_set]
  | some ourCh =>
    cases diff.theirChanges.lookup p with
    | none => simp [afterEffect, Effect.on, toState_set]
    | some theirCh =>
      simp only [mergeBothModifiedPath]
      split
      · simp [afterEffect, Effect.on, toState_set]
      split
      · rw [toState_hard]
        rfl
      · split
        · simp [afterEffect, Effect.on, toState_set]
        · exact runThreeWayMerge_eq world m log p ourCh theirCh

theorem applyPaths_eq (world : World) (diff : MergeDiff) : ∀ (ps : List Path) (m : FlatTree) (log : List Note),
    applyPaths world diff ps (toState m log)
      = (run id (pathEffect world diff) ps m log).map (fun r => toState r.1 r.2)
  | [], m, log => rfl
  | p :: ps, m, log => by
    rw [applyPaths, applyPath_eq, run]
    cases h : pathEffect world diff p (m.lookup p) with
    | error => simp [afterEffect, h, bind, Except.bind, Except.map]
    | ok =>
      simp only [id_eq, h]
      exact applyPaths_eq world diff ps _ _

/-! ## The loop over the conflicted files -/

/-- What the loop finds for a file: that it stays in conflict, or the rule that settled it. -/
abbrev Verdict := Conflict ⊕ Heuristic

def resolveEffect (world : World) (cf : ConflictedFile) (_ : Option TreeEntry) : Except GitErr (Effect TreeEntry Verdict) :=
  match tryAutoResolve world.diff cf.base cf.ours cf.theirs with
  | none => .ok ⟨none, [.inl ⟨cf.path, cf.ranges⟩]⟩
  | some (resolved, heuristic) =>
    (world.writeBlob cf.path .resolved resolved).map (fun h => ⟨some (some ⟨h, cf.mode⟩), [.inr heuristic]⟩)

def toResolveState (st : MergeState) (m : FlatTree) (log : List Verdict) : ResolveState where
  state := ⟨m, st.hardConflicts ++ log.filterMap Sum.getLeft?, st.conflictedFiles⟩
  worst := (log.filterMap Sum.getRight?).foldl worse none
  allResolved := !log.any Sum.isLeft

theorem toResolveState_hard (st : MergeState) (m : FlatTree) (log : List Verdict) (c : Conflict) :
    toResolveState st m (log ++ [.inl c]) = ⟨{ (toResolveState st m log).state with
      hardConflicts := (toResolveState st m log).state.hardConflicts ++ [c] }, (toResolveState st m log).worst, false⟩ := by
  simp [toResolveState, filterMap_cons]

theorem toResolveState_resolved (st : MergeState) (m : FlatTree) (log : List Verdict) (h : Heuristic) :
    toResolveState st m (log ++ [.inr h]) = ⟨(toResolveState st m log).state, worse (toResolveState st m log).worst h,
      (toResolveState st m log).allResolved⟩ := by
  simp [toResolveState]

theorem resolveLoop_eq (world : World) (st : MergeState) : ∀ (cfs : List ConflictedFile) (m m' : FlatTree)
    (log log' : List Verdict), run ConflictedFile.path (resolveEffect world) cfs m log = .ok (m', log') →
    resolveLoop world cfs (toResolveState st m log) = (toResolveState st m' log', true)
  | [], m, m', log, log', h => by
    cases h
    rfl
  | cf :: cfs, m, m', log, log', h => by
    rw [run] at h
    rw [resolveLoop]
    cases hr : tryAutoResolve world.diff cf.base cf.ours cf.theirs with
    | none =>
      simp only [resolveEffect, hr] at h
      have ih := resolveLoop_eq world st cfs _ m' _ log' h
      rw [toResolveState_hard] at ih
      exact ih
    | some r =>
      obtain ⟨resolved, _⟩ := r
      simp only [resolveEffect, hr] at h
      cases hw : world.writeBlob cf.path .resolved resolved with
      | error => simp [hw, Except.map] at h
      | ok =>
        simp only [hw] at h
        have ih := resolveLoop_eq world st cfs _ m' _ log' h
        rw [toResolveState_resolved] at ih
        simp only [hw]
        exact ih

theorem resolveLoop_frame (world : World) {p : Path} : ∀ (cfs : List ConflictedFile) (acc : ResolveState),
    p ∉ cfs.map ConflictedFile.path →
    (resolveLoop world cfs acc).1.state.mergedEntries.lookup p = acc.state.mergedEntries.lookup p
  | [], _, _ => rfl
  | cf :: cfs, acc, h => by
    rw [map_cons, mem_cons, not_or] at h
    rw [resolveLoop]
    split
    · exact resolveLoop_frame world cfs _ h.2
    split
    · rfl
    · rw [resolveLoop_frame world cfs _ h.2]
      exact Map.lookup_set_ne _ h.1 _

theorem resolveLoop_isSome (world : World) {p : Path} : ∀ (cfs : List ConflictedFile) (acc : ResolveState),
    (acc.state.mergedEntries.lookup p).isSome →
    ((resolveLoop world cfs acc).1.state.mergedEntries.lookup p).isSome
  | [], _, h => h
  | cf :: cfs, acc, h => by
    rw [resolveLoop]
    split
    · exact resolveLoop_isSome world cfs _ h
    split
    · exact h
    refine resolveLoop_isSome world cfs _ ?_
    by_cases hp : p = cf.path
    · subst hp
      exact Option.isSome_iff_exists.2 ⟨_, Finmap.lookup_insert _⟩
    · rw [← h]
      exact congrArg Option.isSome (Map.lookup_set_ne _ hp _)

theorem worse_right_comm (w : Option Heuristic) (a b : Heuristic) : worse (worse w a) b = worse (worse w b) a := by
  cases w with
  | none => cases a <;> cases b <;> rfl
  | some w => cases w <;> cases a <;> cases b <;> rfl

instance : RightCommutative worse := ⟨worse_right_comm⟩

variable {world : World} {st : MergeState} {r : MergeResult}

/-! ## The end of the merge -/

theorem finish_frame (h : finish world st = .ok r) : r.mergedEntries = st.mergedEntries := by
  unfold finish at h
  split at h
  · cases h; rfl
  · split at h
    · cases h
    · cases h; rfl

theorem conclude_entries (h : conclude world st = .ok r) : r.mergedEntries = st.mergedEntries ∨
      r.mergedEntries = (resolveLoop world st.conflictedFiles ⟨st, none, true⟩).1.state.mergedEntries := by
  unfold conclude at h
  split at h
  · split at h
    · right
      unfold resolveConflicts at h
      cases hl : resolveLoop world st.conflictedFiles ⟨st, none, true⟩ with
      | mk acc ended =>
        rw [hl] at h
        cases ended with
        | false => exact finish_frame h
        | true =>
          simp only at h
          by_cases ha : acc.allResolved = true
          · cases hb : buildTree world false acc.state.mergedEntries with
            | error =>
              simp only [ha, hb] at h
              exact finish_frame h
            | ok =>
              simp only [ha, hb] at h
              cases h
              rfl
          · simp only [ha] at h
            exact finish_frame h
    · have he := finish_frame h
      exact .inl he
  · exact .inl (finish_frame h)

theorem conclude_frame (h : conclude world st = .ok r) {p : Path}
    (hp : p ∉ st.conflictedFiles.map ConflictedFile.path) : r.mergedEntries.lookup p = st.mergedEntries.lookup p := by
  rcases conclude_entries h with hr | hr
  · rw [hr]
  · rw [hr]
    exact resolveLoop_frame world st.conflictedFiles ⟨st, none, true⟩ hp

theorem conclude_isSome (h : conclude world st = .ok r) {p : Path}
    (hp : (st.mergedEntries.lookup p).isSome) : (r.mergedEntries.lookup p).isSome := by
  rcases conclude_entries h with hr | hr
  · rw [hr]
    exact hp
  · rw [hr]
    exact resolveLoop_isSome world st.conflictedFiles ⟨st, none, true⟩ hp

theorem finish_hard {c : Conflict} (hc : c ∈ st.hardConflicts) :
    finish world st = .ok ⟨.hardConflict, none, none, st.hardConflicts, st.mergedEntries⟩ := by
  unfold finish
  rw [if_pos (length_pos_of_mem hc)]

theorem conclude_hard {c : Conflict} (hc : c ∈ st.hardConflicts) :
    ∃ r, conclude world st = .ok r ∧ r.kind = .hardConflict ∧ c ∈ r.conflicts := by
  unfold conclude
  have hp : st.hardConflicts.length ≠ 0 := Nat.ne_of_gt (length_pos_of_mem hc)
  simp only [if_neg hp]
  split
  · exact ⟨_, finish_hard (mem_append_left _ hc), rfl, mem_append_left _ hc⟩
  · exact ⟨_, finish_hard hc, rfl, hc⟩

/-! ## The order does not show -/

def World.Writes (world : World) (site : WriteSite) : Prop := ∀ p content, ∃ h, world.writeBlob p site content = .ok h

/-- **Two results that differ at most in the order of their conflicts** (or two failures). -/
def SameOutcome : Except String MergeResult → Except String MergeResult → Prop
  | .ok a, .ok b => a.kind = b.kind ∧ a.mergedEntries = b.mergedEntries ∧ a.mergedTreeSHA = b.mergedTreeSHA ∧
      a.heuristic = b.heuristic ∧ a.conflicts.Perm b.conflicts
  | .error _, .error _ => True
  | _, _ => False

theorem finish_same (world : World) {st₁ st₂ : MergeState} (hm : st₁.mergedEntries = st₂.mergedEntries)
    (hh : st₁.hardConflicts.Perm st₂.hardConflicts) : SameOutcome (finish world st₁) (finish world st₂) := by
  unfold finish
  rw [hm, hh.length_eq]
  split
  · exact ⟨rfl, rfl, rfl, rfl, hh⟩
  · cases buildTree world true st₂.mergedEntries with
    | error => exact trivial
    | ok => exact ⟨rfl, rfl, rfl, rfl, List.Perm.refl _⟩

/-- The end of the second loop: the tree of the resolved files, or what `finish` makes of the state. -/
def settle (world : World) (acc : ResolveState) : Except String MergeResult :=
  if !acc.allResolved then finish world acc.state
  else match buildTree world false acc.state.mergedEntries with
    | .error _ => finish world acc.state
    | .ok h => .ok ⟨.safeAutoResolve, some h, acc.worst, [], acc.state.mergedEntries⟩

theorem conclude_settle (st : MergeState) {m : FlatTree} {log : List Verdict}
    (hc : st.conflictedFiles.length > 0) (hh : st.hardConflicts.length = 0)
    (hr : run ConflictedFile.path (resolveEffect world) st.conflictedFiles st.mergedEntries [] = .ok (m, log)) :
    conclude world st = settle world (toResolveState st m log) := by
  have hs : (⟨st, none, true⟩) = toResolveState st st.mergedEntries [] := by simp [toResolveState]
  unfold conclude settle
  rw [if_pos hc, if_pos hh]
  simp only [resolveConflicts, hs, resolveLoop_eq world st _ _ _ _ _ hr]
  by_cases ha : (toResolveState st m log).allResolved = true
  · simp only [ha]
    cases buildTree world false (toResolveState st m log).state.mergedEntries with
    | error | ok => rfl
  · simp only [ha, Bool.not_false, if_true]

theorem conclude_clean (st : MergeState) (hc : ¬ st.conflictedFiles.length > 0) : conclude world st = finish world st := by
  unfold conclude
  rw [if_neg hc]

theorem conclude_both (st : MergeState) (hc : st.conflictedFiles.length > 0) (hh : ¬ st.hardConflicts.length = 0) :
    conclude world st = finish world { st with
      hardConflicts := st.hardConflicts ++ st.conflictedFiles.map (fun cf => ⟨cf.path, cf.ranges⟩) } := by
  unfold conclude
  rw [if_pos hc, if_neg hh]

theorem settle_same (world : World) {a₁ a₂ : ResolveState} (hm : a₁.state.mergedEntries = a₂.state.mergedEntries)
    (hh : a₁.state.hardConflicts.Perm a₂.state.hardConflicts) (hw : a₁.worst = a₂.worst)
    (hall : a₁.allResolved = a₂.allResolved) : SameOutcome (settle world a₁) (settle world a₂) := by
  unfold settle
  rw [hall, hm]
  split
  · exact finish_same world hm hh
  · cases buildTree world false a₂.state.mergedEntries with
    | error => exact finish_same world hm hh
    | ok => exact ⟨rfl, rfl, rfl, hw, List.Perm.refl _⟩

theorem resolve_total (hw : world.Writes .resolved) (cf : ConflictedFile) (cur : Option TreeEntry) :
    ∃ e, resolveEffect world cf cur = .ok e := by
  unfold resolveEffect
  cases tryAutoResolve world.diff cf.base cf.ours cf.theirs with
  | none => exact ⟨_, rfl⟩
  | some r =>
    obtain ⟨h, hh⟩ := hw cf.path r.1
    simp only [hh]
    exact ⟨_, rfl⟩

theorem conclude_same (hw : world.Writes .resolved) {m : FlatTree} {log₁ log₂ : List Note} (hp : log₁.Perm log₂)
    (hnd : ((conflictedOf log₁).map ConflictedFile.path).Nodup) :
    SameOutcome (conclude world (toState m log₁)) (conclude world (toState m log₂)) := by
  have hhard : (hardOf log₁).Perm (hardOf log₂) := hp.filterMap _
  have hconf : (conflictedOf log₁).Perm (conflictedOf log₂) := hp.filterMap _
  by_cases hc : (conflictedOf log₁).length > 0
  · have hc₂ : (conflictedOf log₂).length > 0 := hconf.length_eq ▸ hc
    by_cases hh : (hardOf log₁).length = 0
    · have hh₂ : (hardOf log₂).length = 0 := hhard.length_eq ▸ hh
      obtain ⟨⟨_, _⟩, hr₁⟩ := run_total ConflictedFile.path (resolveEffect world) (conflictedOf log₁) m [] hnd
        (fun cf _ => resolve_total hw cf _)
      obtain ⟨_, hr₂, hv⟩ := run_perm ConflictedFile.path (resolveEffect world) hconf hnd hr₁
      rw [conclude_settle (toState m log₁) hc hh hr₁, conclude_settle (toState m log₂) hc₂ hh₂ hr₂]
      refine settle_same world rfl (hhard.append (hv.filterMap _)) ((hv.filterMap _).foldl_eq none) ?_
      exact congrArg (!·) (hv.any_eq)
    · have hh₂ : ¬ (hardOf log₂).length = 0 := hhard.length_eq ▸ hh
      rw [conclude_both (toState m log₁) hc hh, conclude_both (toState m log₂) hc₂ hh₂]
      exact finish_same world rfl (hhard.append (hconf.map _))
  · have hc₂ : ¬ (conflictedOf log₂).length > 0 := hconf.length_eq ▸ hc
    rw [conclude_clean (toState m log₁) hc, conclude_clean (toState m log₂) hc₂]
    exact finish_same world rfl hhard

end Jamsesh.Automerger
