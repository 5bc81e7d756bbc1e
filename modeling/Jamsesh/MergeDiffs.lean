import Jamsesh.Merge
/-!
# MergeDiffs — from trees and change lists to the maps the merge works on

`flattenTree` yields the tree's map, unless there is a submodule (`flattenTree_ok`, `flattenTree_total`).  What
`buildSideChanges` has under a path is a change filed there, and every change leaves something where it is filed
(`buildSideChanges_some`, `buildSideChanges_isSome`).
-/
namespace Jamsesh.Automerger

open Finmap Git List

/-! ## The flat base -/

theorem flattenTreeInto_ok : ∀ (n : Node) (pre : String) (out m : FlatTree), flattenTreeInto n pre out = .ok m →
    m = FlatTree.addAll out (n.entries pre)
  | .nil, _, _, _, h => by
    cases h
    rfl
  | .file name entry rest, pre, out, m, h => by
    rw [flattenTreeInto] at h
    split at h
    · cases h
    · exact flattenTreeInto_ok rest pre _ m h
  | .dir name sub rest, pre, out, m, h => by
    rw [flattenTreeInto] at h
    cases hs : flattenTreeInto sub (joinPath pre name) out with
    | error => rw [hs] at h; cases h
    | ok =>
      rw [hs] at h
      have hsub := flattenTreeInto_ok sub _ _ _ hs
      have hr := flattenTreeInto_ok rest pre _ _ h
      rw [hr, hsub]
      exact (foldl_append ..).symm

theorem flattenTreeInto_total : ∀ (n : Node) (pre : String) (out : FlatTree),
    (∀ e ∈ n.entries pre, e.entry.mode ≠ .submodule) → ∃ m, flattenTreeInto n pre out = .ok m
  | .nil, _, out, _ => ⟨out, rfl⟩
  | .file name entry rest, pre, out, h => by
    rw [flattenTreeInto, if_neg (h _ mem_cons_self)]
    exact flattenTreeInto_total rest pre _ (fun e he => h e (mem_cons_of_mem _ he))
  | .dir name sub rest, pre, out, h => by
    obtain ⟨out', hs⟩ := flattenTreeInto_total sub (joinPath pre name) out
      (fun e he => h e (mem_append_left _ he))
    rw [flattenTreeInto, hs]
    exact flattenTreeInto_total rest pre out' (fun e he => h e (mem_append_right _ he))

theorem flattenTree_ok {t : Tree} {m : FlatTree} (h : flattenTree t = .ok m) : m = t.flat :=
  flattenTreeInto_ok t.root "" ∅ m h

theorem flattenTree_total {t : Tree} (h : ∀ e ∈ t.entries, e.entry.mode ≠ .submodule) : flattenTree t = .ok t.flat := by
  obtain ⟨m, hm⟩ := flattenTreeInto_total t.root "" ∅ h
  rw [← flattenTree_ok hm]
  exact hm

/-! ## Filing the changes -/

def Files (hasBlob : Hash → Bool) (ch : Change) (sc : SideChange) : Prop :=
  ∃ src tgt, changeFiles hasBlob ch = .ok (src, tgt) ∧ sc = sideChange src tgt

variable {ch : Change} {world : World} {base ours theirs : Tree}

section
variable {hasBlob : Hash → Bool} {side : String}

theorem buildSideChanges_cons {chs : List Change} {out m : SideChanges}
    (h : buildSideChanges hasBlob side (ch :: chs) out = .ok m) :
    ∃ sc, Files hasBlob ch sc ∧ buildSideChanges hasBlob side chs (out.insert (effectivePath sc) sc) = .ok m := by
  rw [buildSideChanges] at h
  split at h
  · cases h
  · rename_i src tgt hf
    exact ⟨_, ⟨src, tgt, hf, rfl⟩, h⟩

theorem buildSideChanges_some : ∀ {chs : List Change} {out m : SideChanges},
    buildSideChanges hasBlob side chs out = .ok m → ∀ {p sc}, m.lookup p = some sc →
      out.lookup p = some sc ∨ ∃ ch ∈ chs, Files hasBlob ch sc ∧ effectivePath sc = p
  | [], _, _, h, p, sc, hp => by
    cases h
    exact .inl hp
  | ch :: chs, out, m, h, p, sc, hp => by
    obtain ⟨sc', hf, h⟩ := buildSideChanges_cons h
    rcases buildSideChanges_some h hp with hin | ⟨ch', hm, hf', hk⟩
    · by_cases hpk : p = effectivePath sc'
      · subst hpk
        rw [lookup_insert] at hin
        cases hin
        exact .inr ⟨ch, mem_cons_self, hf, rfl⟩
      · rw [lookup_insert_of_ne _ hpk] at hin
        exact .inl hin
    · exact .inr ⟨ch', mem_cons_of_mem ch hm, hf', hk⟩

theorem buildSideChanges_keeps : ∀ {chs : List Change} {out m : SideChanges},
    buildSideChanges hasBlob side chs out = .ok m → ∀ {p}, (out.lookup p).isSome → (m.lookup p).isSome
  | [], _, _, h, p, hp => by
    cases h
    exact hp
  | ch :: chs, out, m, h, p, hp => by
    obtain ⟨sc', _, h⟩ := buildSideChanges_cons h
    refine buildSideChanges_keeps h ?_
    by_cases hpk : p = effectivePath sc'
    · rw [hpk, lookup_insert]
      rfl
    · rw [lookup_insert_of_ne _ hpk]
      exact hp

theorem buildSideChanges_isSome : ∀ {chs : List Change} {out m : SideChanges},
    buildSideChanges hasBlob side chs out = .ok m → ∀ ch ∈ chs,
      ∃ sc, Files hasBlob ch sc ∧ (m.lookup (effectivePath sc)).isSome
  | [], _, _, _, ch, hch => by cases hch
  | ch :: chs, out, m, h, ch', hch => by
    obtain ⟨sc', hf, hr⟩ := buildSideChanges_cons h
    rcases mem_cons.1 hch with rfl | hch
    · refine ⟨sc', hf, buildSideChanges_keeps hr ?_⟩
      rw [lookup_insert]
      rfl
    · exact buildSideChanges_isSome hr ch' hch

theorem buildSideChanges_total : ∀ {chs : List Change} (out : SideChanges), (∀ ch ∈ chs, ∃ sc, Files hasBlob ch sc) →
    ∃ m, buildSideChanges hasBlob side chs out = .ok m
  | [], out, _ => ⟨out, rfl⟩
  | ch :: chs, out, h => by
    obtain ⟨_, _, _, hf, -⟩ := h ch mem_cons_self
    rw [buildSideChanges, hf]
    exact buildSideChanges_total _ (fun ch' hch => h ch' (mem_cons_of_mem ch hch))

end

def filed (hasBlob : Hash → Bool) (ch : Change) : Option SideChange :=
  match changeFiles hasBlob ch with
  | .ok (src, tgt) => some (sideChange src tgt)
  | .error _ => none

def lastFiled (hasBlob : Hash → Bool) : List Change → Path → Option SideChange
  | [], _ => none
  | ch :: chs, p => (lastFiled hasBlob chs p).or ((filed hasBlob ch).filter (fun sc => effectivePath sc = p))

theorem buildSideChanges_lookup {hasBlob : Hash → Bool} {side : String} (p : Path) :
    ∀ {chs : List Change} {out m : SideChanges}, buildSideChanges hasBlob side chs out = .ok m →
      m.lookup p = (lastFiled hasBlob chs p).or (out.lookup p)
  | [], out, m, h => by
    cases h
    rfl
  | ch :: chs, out, m, h => by
    obtain ⟨_, ⟨src, tgt, hf, rfl⟩, hr⟩ := buildSideChanges_cons h
    rw [buildSideChanges_lookup p hr, lastFiled, Option.or_assoc]
    congr 1
    by_cases hp : effectivePath (sideChange src tgt) = p
    · subst hp
      rw [lookup_insert]
      simp [filed, hf, Option.filter]
    · rw [lookup_insert_of_ne _ (Ne.symm hp)]
      simp [filed, hf, hp, Option.filter]

/-! ## The files of a change -/

def ChangeEntry.file (e : ChangeEntry) : File := ⟨e.entryName, e.entry.hash, e.entry.mode⟩

variable {hasBlob : Hash → Bool} {repo : Repo} {source draftTip ancestor : Commit}

theorem changeFile_ok {e : ChangeEntry} (hm : e.entry.mode.isFile = true) {f : Option File}
    (h : changeFile hasBlob e = .ok f) : f = some (ChangeEntry.file e) := by
  unfold changeFile at h
  rw [if_neg (by simp [hm])] at h
  split at h
  · cases h; rfl
  · cases h

theorem changeFile_total {e : ChangeEntry} (hm : e.entry.mode.isFile = true)
    (hb : hasBlob e.entry.hash = true) : changeFile hasBlob e = .ok (some (ChangeEntry.file e)) := by
  simp [changeFile, hm, hb, ChangeEntry.file]

def Change.FilesOnly (ch : Change) : Prop :=
  (∀ e, ch.fromEntry = some e → e.entry.mode.isFile = true) ∧ (∀ e, ch.toEntry = some e → e.entry.mode.isFile = true)

theorem files_eq (hfiles : Change.FilesOnly ch) {sc : SideChange} (h : Files hasBlob ch sc) :
    sc = sideChange (ch.fromEntry.map ChangeEntry.file) (ch.toEntry.map ChangeEntry.file) := by
  obtain ⟨_, _, hf, rfl⟩ := h
  unfold changeFiles at hf
  cases ht : ch.toEntry with
  | none =>
    cases hs : ch.fromEntry with
    | none => rw [ht, hs] at hf; cases hf
    | some f =>
      rw [ht, hs] at hf
      cases hcf : changeFile hasBlob f with
      | error => simp only [hcf] at hf; cases hf
      | ok =>
        simp only [hcf] at hf
        cases hf
        rw [changeFile_ok (hfiles.1 f hs) hcf]
        rfl
  | some t =>
    cases hs : ch.fromEntry with
    | none =>
      rw [ht, hs] at hf
      cases hct : changeFile hasBlob t with
      | error => simp only [hct] at hf; cases hf
      | ok =>
        simp only [hct] at hf
        cases hf
        rw [changeFile_ok (hfiles.2 t ht) hct]
        rfl
    | some f =>
      rw [ht, hs] at hf
      cases hct : changeFile hasBlob t with
      | error => simp only [hct] at hf; cases hf
      | ok =>
        obtain rfl := changeFile_ok (hfiles.2 t ht) hct
        cases hcf : changeFile hasBlob f with
        | error => simp only [hct, hcf] at hf; cases hf
        | ok =>
          obtain rfl := changeFile_ok (hfiles.1 f hs) hcf
          simp only [hct, hcf] at hf
          cases hf
          rfl

theorem files_total (hf : Change.FilesOnly ch) (hne : ch.fromEntry ≠ none ∨ ch.toEntry ≠ none)
    (hb : ∀ e, ch.fromEntry = some e ∨ ch.toEntry = some e → hasBlob e.entry.hash = true) :
    ∃ sc, Files hasBlob ch sc := by
  unfold Files changeFiles
  cases ht : ch.toEntry with
  | none =>
    cases hs : ch.fromEntry with
    | none => simp [ht, hs] at hne
    | some f =>
      simp only [changeFile_total (hf.1 f hs) (hb f (.inl hs))]
      exact ⟨_, _, _, rfl, rfl⟩
  | some t =>
    have hct := changeFile_total (hf.2 t ht) (hb t (.inr ht))
    cases hs : ch.fromEntry with
    | none =>
      simp only [hct]
      exact ⟨_, _, _, rfl, rfl⟩
    | some f =>
      simp only [hct, changeFile_total (hf.1 f hs) (hb f (.inl hs))]
      exact ⟨_, _, _, rfl, rfl⟩

/-! ## The three inputs of the loop -/

structure MadeFrom (world : World) (base ours theirs : Tree) (diff : MergeDiff) (chsO chsT : List Change) : Prop where
  oursDiff : world.diffTree (some base) ours = .ok chsO
  theirsDiff : world.diffTree (some base) theirs = .ok chsT
  ourChanges : buildSideChanges world.hasBlob "ours" chsO ∅ = .ok diff.ourChanges
  theirChanges : buildSideChanges world.hasBlob "theirs" chsT ∅ = .ok diff.theirChanges
  flat : diff.mergedEntries = base.flat

theorem diffTrees_ok {diff : MergeDiff}
    (h : diffTrees world base ours theirs = .ok diff) : ∃ chsO chsT, MadeFrom world base ours theirs diff chsO chsT := by
  unfold diffTrees at h
  cases hdo : world.diffTree (some base) ours with
  | error => simp only [hdo] at h; cases h
  | ok chsO =>
    cases hdt : world.diffTree (some base) theirs with
    | error => simp only [hdo, hdt] at h; cases h
    | ok chsT =>
      cases hbo : buildSideChanges world.hasBlob "ours" chsO ∅ with
      | error => simp only [hdo, hdt, hbo, wrapErr, bind, Except.bind] at h; cases h
      | ok =>
        cases hbt : buildSideChanges world.hasBlob "theirs" chsT ∅ with
        | error => simp only [hdo, hdt, hbo, hbt, wrapErr, bind, Except.bind] at h; cases h
        | ok =>
          cases hfl : flattenTree base with
          | error => simp only [hdo, hdt, hbo, hbt, hfl, wrapErr, bind, Except.bind] at h; cases h
          | ok =>
            simp only [hdo, hdt, hbo, hbt, hfl, wrapErr, bind, Except.bind] at h
            cases h
            exact ⟨chsO, chsT, hdo, hdt, hbo, hbt, flattenTree_ok hfl⟩

theorem diffTrees_total {chsO chsT : List Change} {mo mt : SideChanges}
    (hdo : world.diffTree (some base) ours = .ok chsO) (hdt : world.diffTree (some base) theirs = .ok chsT)
    (hbo : buildSideChanges world.hasBlob "ours" chsO ∅ = .ok mo)
    (hbt : buildSideChanges world.hasBlob "theirs" chsT ∅ = .ok mt)
    (hfl : ∀ e ∈ base.entries, e.entry.mode ≠ .submodule) :
    diffTrees world base ours theirs = .ok ⟨mo, mt, base.flat⟩ := by
  unfold diffTrees
  simp only [hdo, hdt, hbo, hbt, flattenTree_total hfl, wrapErr, bind, Except.bind]

theorem computeMergeDiff_eq (hb : repo.treeOf ancestor = some base) (ho : repo.treeOf draftTip = some ours)
    (ht : repo.treeOf source = some theirs) :
    computeMergeDiff world repo ancestor draftTip source = diffTrees world base ours theirs := by
  unfold computeMergeDiff requireTree
  rw [hb, ho, ht]
  rfl

theorem merge_eq_mergeDiff (hs : source.hash ≠ ancestor.hash) (hd : draftTip.hash ≠ ancestor.hash) (order : List Path) :
    merge world repo source draftTip ancestor order
      = match computeMergeDiff world repo ancestor draftTip source with
        | .error e => .error e
        | .ok diff => mergeDiff world diff order := by
  unfold merge tryShortCircuit
  simp only [if_neg hs, if_neg hd]
  cases computeMergeDiff world repo ancestor draftTip source with
  | error | ok => rfl

theorem merge_run {order : List Path} {r : MergeResult}
    (hs : source.hash ≠ ancestor.hash) (hd : draftTip.hash ≠ ancestor.hash)
    (h : merge world repo source draftTip ancestor order = .ok r) :
    ∃ diff, computeMergeDiff world repo ancestor draftTip source = .ok diff ∧ mergeDiff world diff order = .ok r := by
  rw [merge_eq_mergeDiff hs hd] at h
  cases hdiff : computeMergeDiff world repo ancestor draftTip source with
  | error => rw [hdiff] at h; cases h
  | ok diff =>
    rw [hdiff] at h
    exact ⟨diff, rfl, h⟩

end Jamsesh.Automerger
