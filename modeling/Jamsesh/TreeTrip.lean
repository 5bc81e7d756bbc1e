import Jamsesh.TreeBuild
/-!
# TreeTrip — a tree that is flattened and built again

Flattened, the files of a directory are those whose path ends in it, and where no directory is empty the directories are those
above some file.  The hash comes back exactly where there is no submodule, and no directory has a name beside it that sorts
before its slash (`round_trip_iff`).
-/
namespace Jamsesh
namespace Git

open List

/-! ## The directories of a tree -/

def Node.files : Node → List (String × TreeEntry)
  | nil => []
  | file name entry rest => (name, entry) :: rest.files
  | dir _ _ rest => rest.files

def Node.subs : Node → List (String × Node)
  | nil => []
  | file _ _ rest => rest.subs
  | dir name sub rest => (name, sub) :: rest.subs

def Node.subdirs : Node → Path → List (Path × Node)
  | nil, _ => []
  | file _ _ rest, pre => rest.subdirs pre
  | dir name sub rest, pre => (joinPath pre name, sub) :: (sub.subdirs (joinPath pre name) ++ rest.subdirs pre)

def Tree.dirs (t : Tree) : List (Path × Node) := ("", t.root) :: t.root.subdirs ""

def Node.sortNames : Node → List String
  | nil => []
  | file name _ rest => name :: rest.sortNames
  | dir name _ rest => (name ++ "/") :: rest.sortNames

/-- **A tree as git writes it**: its entries in git's order, no directory but the root empty. -/
structure Tree.Valid (t : Tree) : Prop where
  canonical : ∀ x ∈ t.dirs, x.2.sortNames.Pairwise (· < ·)
  populated : ∀ x ∈ t.root.subdirs "", x.2 ≠ .nil

theorem Node.mem_subdirs {z : Path × Node} (n : Node) (pre : Path) :
    z ∈ n.subdirs pre ↔ ∃ y ∈ (pre, n) :: n.subdirs pre, ∃ s ∈ y.2.subs, z = (joinPath y.1 s.1, s.2) := by
  induction n generalizing pre with
  | nil => simp [Node.subdirs, Node.subs]
  | file _ _ _ hr =>
    specialize hr pre
    simp only [mem_cons, or_and_right, exists_or, exists_eq_left] at hr ⊢
    exact hr
  | dir name _ _ hs hr =>
    specialize hs (joinPath pre name)
    specialize hr pre
    simp only [Node.subdirs, Node.subs, mem_cons, mem_append, or_and_right, exists_or, exists_eq_left] at hs hr ⊢
    rw [hs, hr]
    exact iff_of_eq (by ac_rfl)

theorem Node.mem_entries {e : ChangeEntry} (n : Node) (pre : Path) :
    e ∈ n.entries pre ↔ ∃ y ∈ (pre, n) :: n.subdirs pre, ∃ f ∈ y.2.files, e = ⟨joinPath y.1 f.1, f.1, f.2⟩ := by
  induction n generalizing pre with
  | nil => simp [Node.subdirs, Node.files, Node.entries]
  | file _ _ _ hr =>
    specialize hr pre
    simp only [Node.subdirs, Node.files, Node.entries, mem_cons, or_and_right, exists_or, exists_eq_left] at hr ⊢
    rw [hr, or_assoc]
  | dir name _ _ hs hr =>
    specialize hs (joinPath pre name)
    specialize hr pre
    simp only [Node.subdirs, Node.entries, mem_cons, mem_append, or_and_right, exists_or, exists_eq_left] at hs hr ⊢
    rw [hs, hr]
    exact iff_of_eq (by ac_rfl)

theorem Node.names_perm : ∀ n : Node, n.names.Perm (n.files.map Prod.fst ++ n.subs.map Prod.fst)
  | .nil => .refl _
  | .file name _ rest => (Node.names_perm rest).cons name
  | .dir name _ rest => ((Node.names_perm rest).cons name).trans perm_middle.symm

theorem Node.mem_names {t : String} {n : Node} : t ∈ n.names ↔ (∃ e, (t, e) ∈ n.files) ∨ ∃ sub, (t, sub) ∈ n.subs := by
  rw [n.names_perm.mem_iff]
  simp

structure Node.Proper (n : Node) : Prop where
  nodup : n.names.Nodup
  file : ∀ f ∈ n.files, Node.validName f.1 = true ∧ f.2.mode ≠ .dir
  sub : ∀ s ∈ n.subs, Node.validName s.1 = true ∧ s.2.wellFormed = true

theorem Node.proper_of_wellFormed : ∀ {n : Node}, n.wellFormed = true → n.Proper
  | .nil, _ => ⟨nodup_nil, (fun _ h => by cases h), (fun _ h => by cases h)⟩
  | .file name entry rest, h => by
    simp only [Node.wellFormed, Bool.and_eq_true, Bool.not_eq_true', contains_eq_mem, decide_eq_false_iff_not,
      decide_eq_true_eq] at h
    obtain ⟨⟨⟨hn, hm⟩, hf⟩, hr⟩ := h
    have ih := Node.proper_of_wellFormed hr
    exact ⟨nodup_cons.2 ⟨hf, ih.nodup⟩, forall_mem_cons.2 ⟨⟨hn, hm⟩, ih.file⟩, ih.sub⟩
  | .dir name sub rest, h => by
    simp only [Node.wellFormed, Bool.and_eq_true, Bool.not_eq_true', contains_eq_mem, decide_eq_false_iff_not] at h
    obtain ⟨⟨⟨hn, hf⟩, hs⟩, hr⟩ := h
    have ih := Node.proper_of_wellFormed hr
    exact ⟨nodup_cons.2 ⟨hf, ih.nodup⟩, ih.file, forall_mem_cons.2 ⟨⟨hn, hs⟩, ih.sub⟩⟩

section
variable {n : Node} (hn : n.names.Nodup) {name : String}

include hn

theorem Node.files_unique {e e' : TreeEntry} (h : (name, e) ∈ n.files) (h' : (name, e') ∈ n.files) : e = e' := by
  have hfiles := (nodup_append.1 (n.names_perm.nodup_iff.1 hn)).1
  exact congrArg Prod.snd (inj_on_of_nodup_map hfiles h h' rfl)

theorem Node.subs_unique {s s' : Node} (h : (name, s) ∈ n.subs) (h' : (name, s') ∈ n.subs) : s = s' := by
  have hsubs := (nodup_append.1 (n.names_perm.nodup_iff.1 hn)).2.1
  exact congrArg Prod.snd (inj_on_of_nodup_map hsubs h h' rfl)

theorem Node.file_not_sub {e : TreeEntry} {s : Node} (h : (name, e) ∈ n.files) : (name, s) ∉ n.subs := fun hs =>
  (nodup_append.1 (n.names_perm.nodup_iff.1 hn)).2.2 name (mem_map_of_mem h) name (mem_map_of_mem hs) rfl

end

section
open Automerger

variable {t : Tree}

theorem Tree.mem_dirs {x : Path × Node} :
    x ∈ t.dirs ↔ x = ("", t.root) ∨ ∃ y ∈ t.dirs, ∃ s ∈ y.2.subs, x = (joinPath y.1 s.1, s.2) := by
  unfold Tree.dirs
  rw [mem_cons, Node.mem_subdirs]

theorem Node.subdirs_induction {P : Path × Node → Prop} (hsub : ∀ y, P y → ∀ s ∈ y.2.subs, P (joinPath y.1 s.1, s.2))
    (n : Node) (pre : Path) (h : ∀ s ∈ n.subs, P (joinPath pre s.1, s.2)) : ∀ x ∈ n.subdirs pre, P x := by
  induction n generalizing pre with
  | nil => exact fun x hx => by cases hx
  | file _ _ _ hr => exact hr pre h
  | dir name _ _ hd hr =>
    obtain ⟨hh, ht⟩ := forall_mem_cons.1 h
    intro x hx
    rcases mem_cons.1 hx with rfl | hx
    · exact hh
    · rcases mem_append.1 hx with hx | hx
      · exact hd (joinPath pre name) (fun s hs => hsub _ hh s hs) x hx
      · exact hr pre ht x hx

theorem Tree.dirs_induction {P : Path × Node → Prop} (hr : P ("", t.root))
    (hsub : ∀ y ∈ t.dirs, P y → ∀ s ∈ y.2.subs, P (joinPath y.1 s.1, s.2)) : ∀ x ∈ t.dirs, P x := by
  have hstep : ∀ y, y ∈ t.dirs ∧ P y → ∀ s ∈ y.2.subs,
      (joinPath y.1 s.1, s.2) ∈ t.dirs ∧ P (joinPath y.1 s.1, s.2) := fun y hy s hs =>
    ⟨Tree.mem_dirs.2 (.inr ⟨y, hy.1, s, hs, rfl⟩), hsub y hy.1 hy.2 s hs⟩
  have hstart : ("", t.root) ∈ t.dirs ∧ P ("", t.root) := ⟨mem_cons_self, hr⟩
  intro x hx
  rcases mem_cons.1 hx with rfl | hx
  · exact hr
  · exact (Node.subdirs_induction hstep t.root "" (hstep _ hstart) x hx).2

theorem Tree.proper : ∀ x ∈ t.dirs, x.2.Proper := by
  have hwf : ∀ x ∈ t.dirs, x.2.wellFormed = true :=
    Tree.dirs_induction t.wf (fun y _ hy s hs => ((Node.proper_of_wellFormed hy).sub s hs).2)
  exact fun x hx => Node.proper_of_wellFormed (hwf x hx)

theorem Tree.validDir : ∀ x ∈ t.dirs, x.1 = "" ∨ ValidPath x.1 :=
  Tree.dirs_induction (.inl rfl) (fun y hy hv s hs => .inr (validPath_joinPath hv ((Tree.proper y hy).sub s hs).1))

theorem Tree.dirs_unique : ∀ x ∈ t.dirs, ∀ y ∈ t.dirs, y.1 = x.1 → y = x := by
  refine Tree.dirs_induction (fun y hy heq => ?_) (fun x hx ih s hs y hy heq => ?_)
  · obtain rfl | ⟨z, hz, s, hs, rfl⟩ := Tree.mem_dirs.1 hy
    · rfl
    · exact absurd heq (joinPath_ne_empty ((Tree.proper z hz).sub s hs).1)
  · have hn := ((Tree.proper x hx).sub s hs).1
    obtain rfl | ⟨z, hz, s', hs', rfl⟩ := Tree.mem_dirs.1 hy
    · exact absurd heq.symm (joinPath_ne_empty hn)
    have hn' := ((Tree.proper z hz).sub s' hs').1
    obtain ⟨hd, hsame⟩ := joinPath_inj (validName_no_slash hn') (validName_no_slash hn) heq
    cases ih z hz hd
    obtain ⟨k, n⟩ := s
    obtain ⟨_, _⟩ := s'
    cases hsame
    rw [Node.subs_unique (Tree.proper _ hx).nodup hs hs']

theorem Tree.lookup_flat {p : Path} {e : TreeEntry} :
    t.flat.lookup p = some e ↔ ∃ y ∈ t.dirs, ∃ name, (name, e) ∈ y.2.files ∧ p = joinPath y.1 name := by
  have he : ∀ e, e ∈ t.entries ↔ ∃ y ∈ t.dirs, ∃ f ∈ y.2.files, e = ⟨joinPath y.1 f.1, f.1, f.2⟩ :=
    fun e => Node.mem_entries t.root ""
  constructor
  · intro h
    obtain ⟨c, hc, rfl, rfl⟩ := Tree.entryAt_eq_some h
    obtain ⟨y, hy, f, hf, rfl⟩ := (he c).1 hc
    exact ⟨y, hy, f.1, hf, rfl⟩
  · rintro ⟨y, hy, name, hf, rfl⟩
    have hm : (⟨joinPath y.1 name, name, e⟩) ∈ t.entries := (he _).2 ⟨y, hy, (name, e), hf, rfl⟩
    obtain ⟨c, hc, hn, hl⟩ := FlatTree.lookup_addAll_some t.entries ∅ ⟨_, hm, rfl⟩
    obtain ⟨z, hz, f, hfz, rfl⟩ := (he c).1 hc
    obtain ⟨hd, hs⟩ := joinPath_inj (validName_no_slash ((Tree.proper z hz).file f hfz).1)
      (validName_no_slash ((Tree.proper y hy).file _ hf).1) hn
    cases Tree.dirs_unique y hy z hz hd
    obtain ⟨k, x⟩ := f
    cases hs
    rw [Tree.flat, hl, Node.files_unique (Tree.proper _ hy).nodup hfz hf]

end

end Git
namespace Automerger

open Git BottomUp List

/-! ## The flattened tree -/

section
variable {t : Tree}

theorem placed_flat (t : Tree) : Placed t.flat where
  valid p hp := by
    obtain ⟨e, he⟩ := Finmap.mem_iff.1 hp
    obtain ⟨y, hy, _, hf, rfl⟩ := Tree.lookup_flat.1 he
    exact validPath_joinPath (Tree.validDir y hy) ((Tree.proper y hy).file _ hf).1
  mode p e he := by
    obtain ⟨y, hy, _, hf, -⟩ := Tree.lookup_flat.1 he
    exact ((Tree.proper y hy).file _ hf).2

theorem exists_under (ht : t.Valid) : ∀ (n : Node) (d : Path), (d, n) ∈ t.dirs → d ≠ "" → n ≠ .nil →
    ∃ p ∈ t.flat, d ∈ dirsAbove p
  | .nil, _, _, _, hne => absurd rfl hne
  | .file name e rest, d, hm, hd, _ => by
    have hs := validName_no_slash ((Tree.proper _ hm).file _ mem_cons_self).1
    have hl : t.flat.lookup (joinPath d name) = some e := Tree.lookup_flat.2 ⟨_, hm, name, mem_cons_self, rfl⟩
    exact ⟨_, Finmap.mem_of_lookup_eq_some hl, (mem_dirsAbove_joinPath hs).2 ⟨hd, .inl rfl⟩⟩
  | .dir name sub rest, d, hm, hd, _ => by
    have hne : joinPath d name ≠ "" := joinPath_ne_empty ((Tree.proper _ hm).sub _ mem_cons_self).1
    have hsub : (joinPath d name, sub) ∈ t.dirs := Tree.mem_dirs.2 (.inr ⟨_, hm, (name, sub), mem_cons_self, rfl⟩)
    have hf : sub ≠ .nil := by
      rcases mem_cons.1 hsub with heq | hsub
      · exact absurd (congrArg Prod.fst heq) hne
      · exact ht.populated _ hsub
    obtain ⟨p, hp, ha⟩ := exists_under ht sub (joinPath d name) hsub hne hf
    obtain ⟨q, rfl⟩ := mem_dirsAbove.1 ha
    refine ⟨_, hp, mem_dirsAbove.2 ⟨name ++ "/" ++ q, ?_⟩⟩
    rw [joinPath_of_ne hd]
    simp only [String.append_assoc]

theorem exists_dir_above {p d : Path} (hp : p ∈ t.flat) (hd : d ∈ dirsAbove p) : ∃ n, (d, n) ∈ t.dirs := by
  have ha : ∀ y ∈ t.dirs, ∀ c ∈ dirsAbove y.1, ∃ n, (c, n) ∈ t.dirs := by
    refine Tree.dirs_induction (fun c hc => ?_) (fun y hy ih s hs c hc => ?_)
    · rw [dirsAbove_empty] at hc
      cases hc
    · obtain ⟨-, rfl | hc⟩ := (mem_dirsAbove_joinPath (validName_no_slash ((Tree.proper y hy).sub s hs).1)).1 hc
      · exact ⟨y.2, hy⟩
      · exact ih c hc
  obtain ⟨e, he⟩ := Finmap.mem_iff.1 hp
  obtain ⟨y, hy, _, hf, rfl⟩ := Tree.lookup_flat.1 he
  obtain ⟨-, rfl | hd⟩ := (mem_dirsAbove_joinPath (validName_no_slash ((Tree.proper y hy).file _ hf).1)).1 hd
  · exact ⟨y.2, hy⟩
  · exact ha y hy d hd

theorem file_not_dir {p : Path} (hp : p ∈ t.flat) (n : Node) : (p, n) ∉ t.dirs := by
  intro hd
  obtain ⟨e, he⟩ := Finmap.mem_iff.1 hp
  obtain ⟨y, hy, _, hf, rfl⟩ := Tree.lookup_flat.1 he
  have hn := ((Tree.proper y hy).file _ hf).1
  obtain heq | ⟨z, hz, s, hs, heq⟩ := Tree.mem_dirs.1 hd
  · exact joinPath_ne_empty hn (congrArg Prod.fst heq)
  obtain ⟨hpre, rfl⟩ := joinPath_inj (validName_no_slash hn) (validName_no_slash ((Tree.proper z hz).sub s hs).1)
    (congrArg Prod.fst heq)
  cases Tree.dirs_unique y hy z hz hpre.symm
  exact Node.file_not_sub (Tree.proper y hy).nodup hf hs

theorem mem_dirList_flat (ht : t.Valid) {d : Path} : d ∈ dirList t.flat ↔ ∃ n, (d, n) ∈ t.dirs := by
  rw [mem_dirList]
  constructor
  · rintro (rfl | ⟨p, hp, hd⟩)
    · exact ⟨t.root, mem_cons_self⟩
    · exact exists_dir_above hp hd
  · rintro ⟨n, hn⟩
    by_cases hd : d = ""
    · exact .inl hd
    refine .inr (exists_under ht n d hn hd ?_)
    rcases mem_cons.1 hn with heq | hn
    · exact absurd (congrArg Prod.fst heq) hd
    · exact ht.populated _ hn

variable (ht : t.Valid) {d : Path} {n : Node} (hn : (d, n) ∈ t.dirs)

include hn

theorem mem_filesAt_flat {e : DirEntry} : e ∈ filesAt t.flat d ↔ ∃ f ∈ n.files, e = ⟨f.1, f.2.hash, f.2.mode⟩ := by
  rw [mem_filesAt]
  constructor
  · rintro ⟨p, x, hx, hd, rfl⟩
    obtain ⟨y, hy, name, hf, rfl⟩ := Tree.lookup_flat.1 hx
    have hs := validName_no_slash ((Tree.proper y hy).file _ hf).1
    rw [dirOf_joinPath hs] at hd
    cases Tree.dirs_unique _ hn y hy hd
    exact ⟨(name, x), hf, by rw [baseOf_joinPath hs]⟩
  · rintro ⟨f, hf, rfl⟩
    have hs := validName_no_slash ((Tree.proper _ hn).file _ hf).1
    refine ⟨joinPath d f.1, f.2, Tree.lookup_flat.2 ⟨_, hn, f.1, hf, rfl⟩, dirOf_joinPath hs, ?_⟩
    rw [baseOf_joinPath hs]

include ht

theorem mem_children_flat {c : Path} :
    c ∈ children parentDir (dirList t.flat) d ↔ ∃ s ∈ n.subs, c = joinPath d s.1 := by
  rw [mem_children, mem_dirList_flat ht, parentDir_eq_some]
  constructor
  · rintro ⟨⟨_, hc⟩, hne, hd⟩
    obtain heq | ⟨y, hy, s, hs, heq⟩ := Tree.mem_dirs.1 hc
    · exact absurd (congrArg Prod.fst heq) hne
    cases heq
    rw [dirOf_joinPath (validName_no_slash ((Tree.proper y hy).sub s hs).1)] at hd
    cases Tree.dirs_unique _ hn y hy hd
    exact ⟨s, hs, rfl⟩
  · rintro ⟨s, hs, rfl⟩
    have hname := ((Tree.proper _ hn).sub s hs).1
    exact ⟨⟨s.2, Tree.mem_dirs.2 (.inr ⟨_, hn, s, hs, rfl⟩)⟩, joinPath_ne_empty hname, dirOf_joinPath (validName_no_slash hname)⟩

theorem mem_namesAt_flat {u : String} : u ∈ namesAt t.flat d ↔ u ∈ n.names := by
  rw [namesAt, mem_append, mem_map, mem_map, Node.mem_names]
  simp only [mem_filesAt_flat hn, mem_children_flat ht hn]
  refine or_congr ⟨?_, ?_⟩ ⟨?_, ?_⟩
  · rintro ⟨e, ⟨f, hf, rfl⟩, rfl⟩
    exact ⟨f.2, hf⟩
  · rintro ⟨e, he⟩
    exact ⟨_, ⟨(u, e), he, rfl⟩, rfl⟩
  · rintro ⟨c, ⟨s, hs, rfl⟩, rfl⟩
    rw [baseOf_joinPath (validName_no_slash ((Tree.proper _ hn).sub s hs).1)]
    exact ⟨s.2, hs⟩
  · rintro ⟨sub, hs⟩
    exact ⟨_, ⟨(u, sub), hs, rfl⟩, baseOf_joinPath (validName_no_slash ((Tree.proper _ hn).sub _ hs).1)⟩

end

/-! ## The hash of a tree -/

def listing (treeHash : List DirEntry → Hash) : Node → List DirEntry
  | .nil => []
  | .file name entry rest => ⟨name, entry.hash, entry.mode⟩ :: listing treeHash rest
  | .dir name sub rest => ⟨name, treeHash (listing treeHash sub), .dir⟩ :: listing treeHash rest

def rootHash (treeHash : List DirEntry → Hash) (t : Tree) : Hash := treeHash (listing treeHash t.root)

def dirHash (treeHash : List DirEntry → Hash) (t : Tree) (d : Path) : Hash :=
  match t.dirs.find? (fun x => x.1 = d) with
  | some x => treeHash (listing treeHash x.2)
  | none => .zero

/-- **No directory has a name beside it that sorts before its slash.** -/
def Straight (t : Tree) : Prop := ∀ x ∈ t.dirs, ∀ s ∈ x.2.subs, ∀ u ∈ x.2.names, ¬ Shadows s.1 u

def NoSubmodule (t : Tree) : Prop := ∀ e ∈ t.entries, e.entry.mode ≠ .submodule

section
variable {treeHash : List DirEntry → Hash}

theorem mem_listing {e : DirEntry} : ∀ {n : Node}, e ∈ listing treeHash n ↔
    (∃ f ∈ n.files, e = ⟨f.1, f.2.hash, f.2.mode⟩) ∨ ∃ s ∈ n.subs, e = ⟨s.1, treeHash (listing treeHash s.2), .dir⟩
  | .nil => by simp [listing, Node.files, Node.subs]
  | .file name entry rest => by
    simp only [listing, Node.files, Node.subs, mem_cons, mem_listing, or_and_right, exists_or, exists_eq_left, or_assoc]
  | .dir name sub rest => by
    simp only [listing, Node.subs, mem_cons, mem_listing, or_and_right, exists_or, exists_eq_left]
    exact or_left_comm

theorem listing_names (treeHash : List DirEntry → Hash) : ∀ n : Node, (listing treeHash n).map (·.name) = n.names
  | .nil => rfl
  | .file _ _ rest => congrArg _ (listing_names treeHash rest)
  | .dir _ _ rest => congrArg _ (listing_names treeHash rest)

theorem listing_sortNames (treeHash : List DirEntry → Hash) : ∀ n : Node, (∀ f ∈ n.files, f.2.mode ≠ .dir) →
    (listing treeHash n).map sortName = n.sortNames
  | .nil, _ => rfl
  | .file name entry rest, h => by
    obtain ⟨hm, hr⟩ := forall_mem_cons.1 h
    rw [listing, map_cons, Node.sortNames, listing_sortNames treeHash rest hr, sortName_file hm]
  | .dir name sub rest, h => by
    rw [listing, map_cons, Node.sortNames, listing_sortNames treeHash rest h]
    rfl

theorem listing_sorted {n : Node} (hfiles : ∀ f ∈ n.files, f.2.mode ≠ .dir) (hc : n.sortNames.Pairwise (· < ·))
    (hstraight : ∀ s ∈ n.subs, ∀ u ∈ n.names, ¬ Shadows s.1 u) :
    (listing treeHash n).Pairwise (fun a b => a.name ≤ b.name) := by
  rw [← listing_sortNames treeHash n hfiles, pairwise_map] at hc
  refine hc.imp_of_mem (fun {a b} ha hb hlt => not_lt.1 (fun hba => ?_))
  have hle : a.name ≤ sortName a := by
    unfold sortName
    split
    · exact le_slash _
    · exact le_refl _
  have hn : a.name ∈ n.names := by
    rw [← listing_names treeHash]
    exact mem_map_of_mem ha
  obtain ⟨f, hf, rfl⟩ | ⟨s, hs, rfl⟩ := mem_listing.1 hb
  · rw [sortName_file (e := ⟨f.1, f.2.hash, f.2.mode⟩) (hfiles f hf)] at hlt
    exact absurd (hba.trans_le hle) (lt_asymm hlt)
  · have hslash : s.1 ++ "/" ≤ a.name := slash_le_iff.2 ⟨hba, hstraight s hs _ hn⟩
    exact absurd hlt (not_lt.2 (hslash.trans hle))

variable {t : Tree} (ht : t.Valid) {d : Path} {n : Node} (hn : (d, n) ∈ t.dirs)

include hn

theorem dirHash_eq : dirHash treeHash t d = treeHash (listing treeHash n) := by
  unfold dirHash
  cases hf : t.dirs.find? (fun x => x.1 = d) with
  | none => exact absurd (decide_eq_true rfl) (List.find?_eq_none.1 hf _ hn)
  | some x =>
    have hx := Tree.dirs_unique _ hn x (mem_of_find?_eq_some hf) (by simpa using List.find?_some hf)
    rw [hx]

include ht

theorem treeAt_perm : (treeAt t.flat (dirHash treeHash t) d).Perm (listing treeHash n) := by
  have hnodup : (listing treeHash n).Nodup := by
    refine List.Nodup.of_map (·.name) ?_
    rw [listing_names]
    exact (Tree.proper _ hn).nodup
  refine (perm_ext_iff_of_nodup ((placed_flat t).nodup_treeAt _ _) hnodup).2 (fun e => ?_)
  rw [mem_treeAt, mem_listing, mem_filesAt_flat hn]
  refine or_congr Iff.rfl ?_
  have he : ∀ s ∈ n.subs, dirEntry (joinPath d s.1) (dirHash treeHash t (joinPath d s.1)) =
      ⟨s.1, treeHash (listing treeHash s.2), .dir⟩ := by
    intro s hs
    have hsub : (joinPath d s.1, s.2) ∈ t.dirs := Tree.mem_dirs.2 (.inr ⟨_, hn, s, hs, rfl⟩)
    rw [dirEntry, baseOf_joinPath (validName_no_slash ((Tree.proper _ hn).sub s hs).1), dirHash_eq hsub]
  constructor
  · rintro ⟨c, hc, rfl⟩
    obtain ⟨s, hs, rfl⟩ := (mem_children_flat ht hn).1 hc
    exact ⟨s, hs, he s hs⟩
  · rintro ⟨s, hs, rfl⟩
    exact ⟨_, (mem_children_flat ht hn).2 ⟨s, hs, rfl⟩, (he s hs).symm⟩

theorem treeAt_flat (hs : ∀ s ∈ n.subs, ∀ u ∈ n.names, ¬ Shadows s.1 u) :
    treeAt t.flat (dirHash treeHash t) d = listing treeHash n := by
  have hp : (treeAt t.flat (dirHash treeHash t) d).Perm (listing treeHash n) := treeAt_perm ht hn
  have hnames : ((listing treeHash n).map (·.name)).Nodup := by
    rw [listing_names]
    exact (Tree.proper _ hn).nodup
  refine hp.eq_of_pairwise (fun a b ha hb hab hba => ?_) (treeAt_sorted _ _ _)
    (listing_sorted (fun f hf => ((Tree.proper _ hn).file f hf).2) (ht.canonical _ hn) hs)
  exact inj_on_of_nodup_map hnames (hp.mem_iff.1 ha) hb (le_antisymm hab hba)

theorem shadowed_flat_iff : Shadowed t.flat d ↔ ∃ s ∈ n.subs, ∃ u ∈ n.names, Shadows s.1 u := by
  unfold Shadowed
  simp only [mem_children_flat ht hn, mem_namesAt_flat ht hn]
  constructor
  · rintro ⟨c, ⟨s, hs, rfl⟩, u, hu, hshadow⟩
    rw [baseOf_joinPath (validName_no_slash ((Tree.proper _ hn).sub s hs).1)] at hshadow
    exact ⟨s, hs, u, hu, hshadow⟩
  · rintro ⟨s, hs, u, hu, _⟩
    refine ⟨_, ⟨s, hs, rfl⟩, u, hu, ?_⟩
    rwa [baseOf_joinPath (validName_no_slash ((Tree.proper _ hn).sub s hs).1)]

end

/-! ## The round trip -/

theorem flattenTreeInto_noSubmodule : ∀ (n : Node) (pre : String) (out m : FlatTree), flattenTreeInto n pre out = .ok m →
    ∀ e ∈ n.entries pre, e.entry.mode ≠ .submodule
  | .nil, _, _, _, _, e, he => by cases he
  | .file name entry rest, pre, out, m, h, e, he => by
    rw [flattenTreeInto] at h
    split at h
    · cases h
    rename_i hm
    rcases mem_cons.1 he with rfl | he
    · exact hm
    · exact flattenTreeInto_noSubmodule rest pre _ m h e he
  | .dir name sub rest, pre, out, m, h, e, he => by
    rw [flattenTreeInto] at h
    cases hs : flattenTreeInto sub (joinPath pre name) out with
    | error =>
      rw [hs] at h
      cases h
    | ok =>
      rw [hs] at h
      rcases mem_append.1 he with he | he
      · exact flattenTreeInto_noSubmodule sub _ _ _ hs e he
      · exact flattenTreeInto_noSubmodule rest pre _ _ h e he

theorem straight_iff {t : Tree} (ht : t.Valid) : Straight t ↔ ∀ d ∈ dirList t.flat, ¬ Shadowed t.flat d := by
  constructor
  · intro hstraight d hd hshadowed
    obtain ⟨n, hn⟩ := (mem_dirList_flat ht).1 hd
    obtain ⟨s, hs, u, hu, hshadow⟩ := (shadowed_flat_iff ht hn).1 hshadowed
    exact hstraight _ hn s hs u hu hshadow
  · intro h x hx s hs u hu hshadow
    exact h x.1 ((mem_dirList_flat ht).2 ⟨x.2, hx⟩) ((shadowed_flat_iff ht hx).2 ⟨s, hs, u, hu, hshadow⟩)

theorem mem_takeWhile_iff {α : Type} {p : α → Bool} {l : List α} {x : α} :
    x ∈ l.takeWhile p ↔ ∃ pre post, l = pre ++ x :: post ∧ ∀ c ∈ pre ++ [x], p c = true := by
  constructor
  · intro hx
    obtain ⟨pre, post, hs⟩ := append_of_mem hx
    refine ⟨pre, post ++ l.dropWhile p, ?_, fun c hc => mem_takeWhile_imp (l := l) ?_⟩
    · rw [← cons_append, ← append_assoc, ← hs, takeWhile_append_dropWhile]
    · rw [hs]
      rcases mem_append.1 hc with hc | hc
      · exact mem_append_left _ hc
      · rw [mem_singleton.1 hc]
        exact mem_append_right _ mem_cons_self
  · rintro ⟨_, _, rfl, h⟩
    rw [takeWhile_append_of_pos (fun c hc => h c (mem_append_left _ hc)),
      takeWhile_cons_of_pos (h x (mem_append_right _ mem_cons_self))]
    exact mem_append_right _ mem_cons_self

section
variable {world : World} {attempt : Bool} {treeHash : List DirEntry → Hash} (hworld : Stores world attempt treeHash)

include hworld

theorem round_trip_iff {t : Tree} (ht : t.Valid) :
    (flattenTree t >>= buildTree world attempt) = .ok (rootHash treeHash t) ↔ NoSubmodule t ∧ Straight t := by
  have hm := placed_flat t
  constructor
  · intro h
    cases hf : flattenTree t with
    | error =>
      rw [hf] at h
      cases h
    | ok m =>
      rw [hf] at h
      refine ⟨flattenTreeInto_noSubmodule t.root "" ∅ m hf, (straight_iff ht).2 (fun d hd => ?_)⟩
      cases flattenTree_ok hf
      obtain ⟨_, hh⟩ := exists_hashes treeHash hm
      have ha := ((buildTree_ok_iff hworld hm hh _).1 h).1
      exact hm.encodable_treeAt.1 (ha d hd)
  · rintro ⟨hp, hs⟩
    rw [flattenTree_total hp]
    have hh : Hashes treeHash t.flat (dirHash treeHash t) := by
      intro d hd
      obtain ⟨n, hn⟩ := (mem_dirList_flat ht).1 hd
      rw [dirHash_eq hn, treeAt_flat ht hn (hs _ hn)]
    refine (buildTree_ok_iff hworld hm hh _).2 ⟨fun d hd => ?_, ?_⟩
    · exact hm.encodable_treeAt.2 ((straight_iff ht).1 hs d hd)
    · rw [rootHash, dirHash_eq mem_cons_self]

/-- **The trees that are written have distinct names exactly when no directory that is reached has a file and a directory of one
name**; they are in git's order. -/
theorem written_iff {m : FlatTree} (hm : Placed m) :
    (∀ o ∈ writtenTrees world attempt m, (o.2.map (·.name)).Nodup ∧ o.2.Pairwise (fun a b => sortName a ≤ sortName b)) ↔
      ∀ pre d post, dirList m = pre ++ d :: post → (∀ c ∈ pre ++ [d], ¬ Shadowed m c) → ¬ Clashes m d := by
  obtain ⟨hash, hh⟩ := exists_hashes treeHash hm
  have hu : ∀ d, ((treeAt m hash d).map (·.name)).Nodup ↔ ¬ Clashes m d := fun d =>
    treeAt_names.nodup_iff.trans (hm.nodup_names_iff d)
  have hr : ∀ d, d ∈ (dirList m).takeWhile (fun d => encodable (treeAt m hash d)) ↔
      ∃ pre post, dirList m = pre ++ d :: post ∧ ∀ c ∈ pre ++ [d], ¬ Shadowed m c := by
    intro d
    simp only [mem_takeWhile_iff, hm.encodable_treeAt]
  rw [writtenTrees_eq hworld hm hh]
  constructor
  · intro h pre d post hs hf
    refine (hu d).1 (h (d, treeAt m hash d) (mem_map.2 ⟨d, ?_, rfl⟩)).1
    exact (hr d).2 ⟨pre, post, hs, hf⟩
  · intro h o ho
    obtain ⟨d, hd, rfl⟩ := mem_map.1 ho
    obtain ⟨pre, post, hs, hf⟩ := (hr d).1 hd
    refine ⟨(hu d).2 (h pre d post hs hf), encodable_iff.1 (hm.encodable_treeAt.2 (hf d ?_))⟩
    exact mem_append_right _ mem_cons_self

end

/-- **Flattening and building a tree**: a valid tree comes back with its root hash exactly when it has no submodule and no
directory beside a name that sorts before its slash; and the trees that are written for a map of paths have distinct names, in
git's order, exactly when no directory up to the first shadowed one has a file and a directory of one name. -/
theorem tree_round_trip (treeHash : List DirEntry → Hash) (world : World) (attempt : Bool)
    (hworld : Stores world attempt treeHash) :
    (∀ t : Tree, t.Valid →
      ((flattenTree t >>= buildTree world attempt) = .ok (rootHash treeHash t) ↔ NoSubmodule t ∧ Straight t)) ∧
    ∀ m : FlatTree, Placed m → ((∀ o ∈ writtenTrees world attempt m,
          (o.2.map (·.name)).Nodup ∧ o.2.Pairwise (fun a b => sortName a ≤ sortName b)) ↔
        ∀ pre d post, dirList m = pre ++ d :: post → (∀ c ∈ pre ++ [d], ¬ Shadowed m c) → ¬ Clashes m d) :=
  ⟨fun _ ht => round_trip_iff hworld ht, fun _ hm => written_iff hworld hm⟩

theorem plainWorld_stores : Stores plainWorld true (fun _ => .ofByte 8) := ⟨fun _ _ => rfl⟩

def sourceFile : TreeEntry := ⟨.ofByte 1, .regular⟩

def linkedTree : Tree := ⟨.file "link" ⟨.ofByte 2, .symlink⟩ (.dir "src" (.file "main" sourceFile .nil) .nil), rfl⟩

theorem linkedTree_valid : linkedTree.Valid := ⟨by decide, by decide⟩

theorem tree_round_trip_linkedTree :
    linkedTree.Valid ∧
      (flattenTree linkedTree >>= buildTree plainWorld true) = .ok (rootHash (fun _ => .ofByte 8) linkedTree) := by
  have hs : Straight linkedTree := by
    unfold Straight
    decide
  exact ⟨linkedTree_valid, ((tree_round_trip _ plainWorld true plainWorld_stores).1 linkedTree linkedTree_valid).2
    ⟨by unfold NoSubmodule; decide, hs⟩⟩

def dottedTree : Tree := ⟨.file "foo.txt" sourceFile (.dir "foo" (.file "main" sourceFile .nil) .nil), rfl⟩

/-- **A valid tree of files and directories does not come back**: by name `foo` is put before `foo.txt`. -/
theorem dotted_name_lost :
    dottedTree.Valid ∧ NoSubmodule dottedTree ∧
      (flattenTree dottedTree >>= buildTree plainWorld true) ≠ .ok (rootHash (fun _ => .ofByte 8) dottedTree) := by
  have hv : dottedTree.Valid := ⟨by decide, by decide⟩
  have hb : ¬ Straight dottedTree := by
    unfold Straight
    decide
  refine ⟨hv, by unfold NoSubmodule; decide, fun h => ?_⟩
  exact hb ((round_trip_iff plainWorld_stores hv).1 h).2

end Automerger
end Jamsesh
