import Jamsesh.ThreeWay
/-!
# MergeNames — under which path a change is filed

A change is filed under the name that `Change.Files` gives its file, the tree entry's own.  That is the full path for a file at
the root and for no other (`keyedByPath_iff`): the change of `d/f` is filed under `f`.
-/
namespace Jamsesh.Automerger

open Git KeyedFold Option

/-! ## Own names and full paths -/

theorem joinPath_root (name : String) : joinPath "" name = name := by simp [joinPath]

theorem slash_mem_joinPath {pre : String} (h : pre ≠ "") (name : String) : '/' ∈ (joinPath pre name).toList := by
  simp [joinPath, h]

theorem Node.entries_names : ∀ (n : Node) (pre : String), n.wellFormed = true → ∀ e ∈ n.entries pre,
    Node.validName e.entryName = true ∧ (pre = "" → e.name = e.entryName ∨ '/' ∈ e.name.toList) ∧
      (pre ≠ "" → '/' ∈ e.name.toList)
  | .nil, _, _, e, he => by cases he
  | .file name entry rest, pre, h, e, he => by
    simp only [Node.wellFormed, Bool.and_eq_true] at h
    rcases List.mem_cons.1 he with rfl | he
    · refine ⟨h.1.1.1, fun hp => .inl ?_, fun hp => slash_mem_joinPath hp name⟩
      subst hp
      exact joinPath_root name
    · exact Node.entries_names rest pre h.2 e he
  | .dir name sub rest, pre, h, e, he => by
    simp only [Node.wellFormed, Bool.and_eq_true] at h
    rcases List.mem_append.1 he with he | he
    · obtain ⟨h1, -, h3⟩ := Node.entries_names sub (joinPath pre name) h.1.2 e he
      have hs := h3 (joinPath_ne_empty h.1.1.1)
      exact ⟨h1, fun _ => .inr hs, fun _ => hs⟩
    · exact Node.entries_names rest pre h.2 e he

variable {e : ChangeEntry} {hasBlob : Hash → Bool} {m : SideChanges}

theorem Tree.entry_names {t : Tree} (h : e ∈ t.entries) :
    Node.validName e.entryName = true ∧ (e.name = e.entryName ∨ '/' ∈ e.name.toList) := by
  obtain ⟨h1, h2, -⟩ := Node.entries_names t.root "" t.wf e h
  exact ⟨h1, h2 rfl⟩

theorem validName_ne_empty {name : String} (h : Node.validName name = true) : name ≠ "" := by
  simp_all [Node.validName]

theorem validName_no_slash {name : String} (h : Node.validName name = true) : '/' ∉ name.toList := by
  simp only [Node.validName, Bool.and_eq_true, Bool.not_eq_true', List.contains_eq_mem, decide_eq_false_iff_not] at h
  exact h.2

/-! ## What a diff reports -/

def Change.named (ch : Change) : Option ChangeEntry := ch.toEntry.or ch.fromEntry

/-- `p` is the path of a change, the destination for a rename. -/
def Destination (changes : List Change) (p : Path) : Prop := ∃ ch ∈ changes, ∃ e, Change.named ch = some e ∧ e.name = p

/-- **A change list of two trees**: their differing paths, by entries of the trees under their own and their full names;
whether a deletion and an insertion are paired into a rename is left open. -/
structure IsDiff (base t : Tree) (changes : List Change) : Prop where
  differs : ∀ p, base.entryAt p ≠ t.entryAt p ↔
    Destination changes p ∨ ∃ ch ∈ changes, ∃ e, ch.fromEntry = some e ∧ e.name = p
  nonempty : ∀ ch ∈ changes, ∃ e, Change.named ch = some e
  fromEntry : ∀ ch ∈ changes, ∀ e, ch.fromEntry = some e → e ∈ base.entries ∧ base.entryAt e.name = some e.entry
  toEntry : ∀ ch ∈ changes, ∀ e, ch.toEntry = some e → e ∈ t.entries ∧ t.entryAt e.name = some e.entry
  deleted : ∀ ch ∈ changes, ch.toEntry = none → ∀ e, ch.fromEntry = some e → t.entryAt e.name = none

section
variable {base t : Tree} {changes : List Change} (hdiff : IsDiff base t changes)

include hdiff

theorem IsDiff.named_names {ch : Change} (hch : ch ∈ changes) (he : Change.named ch = some e) :
    Node.validName e.entryName = true ∧ (e.name = e.entryName ∨ '/' ∈ e.name.toList) := by
  unfold Change.named at he
  cases ht : ch.toEntry with
  | none =>
    rw [ht] at he
    exact Tree.entry_names (hdiff.fromEntry ch hch e he).1
  | some =>
    rw [ht] at he
    cases he
    exact Tree.entry_names (hdiff.toEntry ch hch e ht).1

theorem IsDiff.filed {ch : Change} (hch : ch ∈ changes) (hfiles : Change.FilesOnly ch)
    (he : Change.named ch = some e) {sc : SideChange} (hf : Files hasBlob ch sc) :
    effectivePath sc = e.entryName ∧ sc.entry = t.entryAt e.name := by
  have hne := validName_ne_empty (hdiff.named_names hch he).1
  rw [files_eq hfiles hf]
  unfold Change.named at he
  cases ht : ch.toEntry with
  | none =>
    rw [ht] at he
    have he' : ch.fromEntry = some e := he
    rw [hdiff.deleted ch hch ht e he']
    simp [he', sideChange, effectivePath, ChangeEntry.file, SideChange.entry]
  | some =>
    rw [ht] at he
    cases he
    rw [(hdiff.toEntry ch hch e ht).2]
    simp [sideChange, effectivePath, ChangeEntry.file, SideChange.entry, hne]

theorem IsDiff.found {side : String} (hfiles : ∀ ch ∈ changes, Change.FilesOnly ch)
    (hm : buildSideChanges hasBlob side changes ∅ = .ok m) {p : Path} {sc : SideChange} (hp : m.lookup p = some sc) :
    ∃ ch ∈ changes, ∃ e, Change.named ch = some e ∧ e.entryName = p ∧ sc.entry = t.entryAt e.name := by
  rcases buildSideChanges_some hm hp with hin | ⟨ch, hch, hf, hk⟩
  · rw [Finmap.lookup_empty] at hin; cases hin
  · obtain ⟨e, he⟩ := hdiff.nonempty ch hch
    obtain ⟨hkey, hentry⟩ := hdiff.filed hch (hfiles ch hch) he hf
    exact ⟨ch, hch, e, he, hkey.symm.trans hk, hentry⟩

theorem IsDiff.lookup_iff {side : String} (hfiles : ∀ ch ∈ changes, Change.FilesOnly ch)
    (hname : ∀ ch ∈ changes, ∀ e, Change.named ch = some e → e.name = e.entryName)
    (hm : buildSideChanges hasBlob side changes ∅ = .ok m) (p : Path) :
    ((m.lookup p).isSome ↔ Destination changes p) ∧ ∀ sc, m.lookup p = some sc → sc.entry = t.entryAt p := by
  refine ⟨⟨fun hp => ?_, ?_⟩, fun _ hsc => ?_⟩
  · obtain ⟨_, hsc⟩ := isSome_iff_exists.1 hp
    obtain ⟨ch, hch, e, he, hn, -⟩ := hdiff.found hfiles hm hsc
    exact ⟨ch, hch, e, he, (hname ch hch e he).trans hn⟩
  · rintro ⟨ch, hch, e, he, rfl⟩
    obtain ⟨_, hf, hs⟩ := buildSideChanges_isSome hm ch hch
    rw [(hdiff.filed hch (hfiles ch hch) he hf).1, ← hname ch hch e he] at hs
    exact hs
  · obtain ⟨ch, hch, e, he, hn, hentry⟩ := hdiff.found hfiles hm hsc
    rw [hentry, hname ch hch e he, hn]

end

/-! ## Keys and paths -/

/-- **Changes are kept by full path**: the keys are the paths of the changes, different for different paths, and the loop
reads the base and writes the merged map at the path of the change. -/
structure KeyedByPath (hasBlob : Hash → Bool) (base t : Tree) (changes : List Change) (m : SideChanges) : Prop where
  keys : ∀ p, (m.lookup p).isSome ↔ Destination changes p
  apart : ∀ ch ∈ changes, ∀ ch' ∈ changes, ∀ e e' sc sc', Change.named ch = some e → Change.named ch' = some e' →
    Files hasBlob ch sc → Files hasBlob ch' sc' → effectivePath sc = effectivePath sc' → e.name = e'.name
  reads : ∀ ch ∈ changes, ∀ e sc, Change.named ch = some e → Files hasBlob ch sc →
    base.flat.lookup (effectivePath sc) = base.entryAt e.name
  writes : ∀ world order, (MergeDiff.mk m ∅ base.flat).Order order →
    ∃ st, applyChangesPerPath world ⟨m, ∅, base.flat⟩ order = .ok st ∧
      (∀ p, Destination changes p → st.mergedEntries.lookup p = t.entryAt p) ∧
      ∀ p, ¬ Destination changes p → st.mergedEntries.lookup p = base.entryAt p

theorem applyChangesPerPath_one_side (world : World) {flat : FlatTree} {order : List Path}
    (horder : (MergeDiff.mk m ∅ flat).Order order) :
    ∃ st, applyChangesPerPath world ⟨m, ∅, flat⟩ order = .ok st ∧ ∀ p, st.mergedEntries.lookup p = match m.lookup p with
        | some sc => sc.entry
        | none => flat.lookup p := by
  have heff : ∀ p cur, pathEffect world ⟨m, ∅, flat⟩ p cur = .ok ⟨(m.lookup p).map (·.entry), []⟩ := by
    intro p _
    unfold pathEffect
    rw [Finmap.lookup_empty]
    cases m.lookup p <;> rfl
  obtain ⟨⟨m', log⟩, hr⟩ := run_total id (pathEffect world ⟨m, ∅, flat⟩) order flat [] (by simpa using horder.nodup)
    (fun p _ => ⟨_, heff p _⟩)
  have hs := run_spec id (pathEffect world ⟨m, ∅, flat⟩) order flat m' [] log (by simpa using horder.nodup) hr
  refine ⟨toState m' log, ?_, fun p => ?_⟩
  · have ha := applyPaths_eq world ⟨m, ∅, flat⟩ order flat []
    rw [hr] at ha
    exact ha
  · rw [toState_mergedEntries]
    by_cases hp : p ∈ order
    · have hentry := hs.entry p hp
      have he := hs.effect p hp
      rw [heff] at he
      rw [← Except.ok.inj he] at hentry
      rw [show m'.lookup p = m'.lookup (id p) from rfl, hentry]
      cases m.lookup p <;> rfl
    · have hn : m.lookup p = none := by
        by_contra hne
        refine hp ((horder.mem p).2 ?_)
        rw [MergeDiff.pathSet, Finset.mem_union, Finmap.mem_keys]
        exact .inl (Finmap.mem_iff.2 (ne_none_iff_exists'.1 hne))
      rw [hn]
      exact hs.frame p (by simpa using hp)

/-- **Changes are kept by full path exactly when each changed file lies at the root of the repository.** -/
theorem keyedByPath_iff {hasBlob : Hash → Bool} {side : String} {base t : Tree} {changes : List Change}
    (hdiff : IsDiff base t changes) (hfiles : ∀ ch ∈ changes, Change.FilesOnly ch) {m : SideChanges}
    (hm : buildSideChanges hasBlob side changes ∅ = .ok m) :
    KeyedByPath hasBlob base t changes m ↔ ∀ ch ∈ changes, ∀ e, Change.named ch = some e → '/' ∉ e.name.toList := by
  constructor
  · intro hk ch hch e he hs
    obtain ⟨_, hsc⟩ := isSome_iff_exists.1 ((hk.keys e.name).2 ⟨ch, hch, e, he, rfl⟩)
    obtain ⟨_, hc', _, he', hn, -⟩ := hdiff.found hfiles hm hsc
    have hv := validName_no_slash (hdiff.named_names hc' he').1
    rw [hn] at hv
    exact hv hs
  · intro hr
    have hn : ∀ ch ∈ changes, ∀ e, Change.named ch = some e → e.name = e.entryName := fun ch hch e he =>
      (hdiff.named_names hch he).2.resolve_right (hr ch hch e he)
    have hkey : ∀ ch ∈ changes, ∀ e sc, Change.named ch = some e → Files hasBlob ch sc → effectivePath sc = e.name :=
      fun ch hch e _ he hf => (hdiff.filed hch (hfiles ch hch) he hf).1.trans (hn ch hch e he).symm
    have hl := hdiff.lookup_iff hfiles hn hm
    refine ⟨fun p => (hl p).1, ?_, ?_, ?_⟩
    · intro ch hch ch' hc' e e' sc sc' he he' hf hf' heq
      rw [← hkey ch hch e sc he hf, ← hkey ch' hc' e' sc' he' hf', heq]
    · intro ch hch e sc he hf
      rw [hkey ch hch e sc he hf]
      rfl
    · intro world _ ho
      obtain ⟨st, hst, hentries⟩ := applyChangesPerPath_one_side world ho
      refine ⟨st, hst, fun p hp => ?_, fun p hp => ?_⟩
      · obtain ⟨sc, hsc⟩ := isSome_iff_exists.1 ((hl p).1.2 hp)
        rw [hentries, hsc]
        exact (hl p).2 sc hsc
      · have hnone : m.lookup p = none := by
          by_contra hne
          exact hp ((hl p).1.1 (isSome_iff_ne_none.2 hne))
        rw [hentries, hnone]
        rfl

/-! ## Two trees -/

theorem plainDiff_isDiff (base t : Tree) : IsDiff base t (plainDiff (some base) t) := by
  have hfind : ∀ (s : Tree) {p e}, s.find p = some e → e.name = p ∧ e ∈ s.entries ∧ s.entryAt e.name = some e.entry := by
    intro s p e he
    obtain ⟨h1, h2⟩ := s.find_spec p
    rw [he] at h1
    obtain ⟨rfl, hmem⟩ := h2 e he
    exact ⟨rfl, hmem, h1.symm⟩
  have hnamed : ∀ {p e}, Change.named ⟨base.find p, t.find p⟩ = some e → e.name = p := by
    intro p e he
    rcases or_eq_some_iff.1 he with he | ⟨-, he⟩
    · exact (hfind t he).1
    · exact (hfind base he).1
  have hsome : ∀ {p}, base.entryAt p ≠ t.entryAt p → ∃ e, Change.named ⟨base.find p, t.find p⟩ = some e := by
    intro p hne
    refine ne_none_iff_exists'.1 fun hn => hne ?_
    obtain ⟨ht, hb⟩ := or_eq_none_iff.1 hn
    rw [← (base.find_spec p).1, ← (t.find_spec p).1]
    exact congrArg (Option.map (·.entry)) (hb.trans ht.symm)
  refine ⟨fun q => ⟨fun hne => ?_, ?_⟩, ?_, ?_, ?_, ?_⟩
  · obtain ⟨e, he⟩ := hsome hne
    exact .inl ⟨_, mem_diff.2 ⟨q, hne, rfl⟩, e, he, hnamed he⟩
  · rintro (⟨_, hch, e, he, rfl⟩ | ⟨_, hch, e, he, rfl⟩) <;> obtain ⟨p, _, rfl⟩ := mem_diff.1 hch
    · rwa [hnamed he]
    · rwa [(hfind base he).1]
  all_goals
    intro ch hch
    obtain ⟨p, hne, rfl⟩ := mem_diff.1 hch
  · exact hsome hne
  · exact fun e he => (hfind base he).2
  · exact fun e he => (hfind t he).2
  · intro hto e he
    rw [(hfind base he).1, ← (t.find_spec p).1]
    exact congrArg (Option.map (·.entry)) hto

theorem keyedByPath_root :
    KeyedByPath (fun _ => true) (fileTree 1) (fileTree 3) (plainDiff (some (fileTree 1)) (fileTree 3))
        ((∅ : SideChanges).insert "a" ⟨.ofByte 1, .ofByte 3, "a", "a", .regular, false, false⟩) ↔
      ∀ ch ∈ plainDiff (some (fileTree 1)) (fileTree 3), ∀ e, Change.named ch = some e → '/' ∉ e.name.toList := by
  have hfiles : ∀ ch ∈ plainDiff (some (fileTree 1)) (fileTree 3), Change.FilesOnly ch := by
    intro ch hch
    obtain ⟨hf, ht⟩ := And.intro ((plainDiff_isDiff _ _).fromEntry ch hch) ((plainDiff_isDiff _ _).toEntry ch hch)
    have h1 : FilesOnly (fileTree 1) := by decide
    have h3 : FilesOnly (fileTree 3) := by decide
    exact ⟨fun e he => h1 e (hf e he).1, fun e he => h3 e (ht e he).1⟩
  have hb : buildSideChanges (fun _ => true) "ours" (plainDiff (some (fileTree 1)) (fileTree 3)) ∅
      = .ok ((∅ : SideChanges).insert "a" ⟨.ofByte 1, .ofByte 3, "a", "a", .regular, false, false⟩) := rfl
  exact keyedByPath_iff (plainDiff_isDiff _ _) hfiles hb

def nestedTree (a b : Fin 256) : Tree :=
  ⟨.dir "d" (.file "f" ⟨.ofByte a, .regular⟩ .nil) (.dir "e" (.file "f" ⟨.ofByte b, .regular⟩ .nil) .nil), rfl⟩

/-- **Two nested files of one name share a key**: the edits of `d/f` and of `e/f` are both filed under `f`, so that one of
them is lost and neither is found at its path. -/
theorem nested_changes_share_key :
    ∃ m, buildSideChanges (fun _ => true) "ours" (plainDiff (some (nestedTree 1 2)) (nestedTree 3 4)) ∅ = .ok m ∧
      ¬ KeyedByPath (fun _ => true) (nestedTree 1 2) (nestedTree 3 4)
        (plainDiff (some (nestedTree 1 2)) (nestedTree 3 4)) m := by
  refine ⟨_, rfl, fun hk => ?_⟩
  have hne : (nestedTree 1 2).entryAt "d/f" ≠ (nestedTree 3 4).entryAt "d/f" := by decide
  have hd : Destination (plainDiff (some (nestedTree 1 2)) (nestedTree 3 4)) "d/f" := by
    rcases ((plainDiff_isDiff (nestedTree 1 2) (nestedTree 3 4)).differs "d/f").1 hne with h | ⟨ch, hch, e, he, hn⟩
    · exact h
    have ha : ∀ ch ∈ plainDiff (some (nestedTree 1 2)) (nestedTree 3 4),
        ch.toEntry.map (·.name) = ch.fromEntry.map (·.name) := by decide
    have := ha ch hch
    rw [he] at this
    obtain ⟨e', he', hn'⟩ := map_eq_some_iff.1 this
    exact ⟨ch, hch, e', by rw [Change.named, he']; rfl, hn'.trans hn⟩
  exact absurd ((hk.keys "d/f").2 hd) (by decide)

end Jamsesh.Automerger
