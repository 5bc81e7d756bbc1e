import Jamsesh.BottomUp
import Jamsesh.TreePaths
/-!
# TreeBuild — what `buildTree` writes

The tree of a directory holds its files and its directories, sorted by name (`treeAt`).  `Tree.Encode` takes a tree in git's
order only: the loop ends with the root's hash exactly when no directory is shadowed by a name beside it (`buildTree_ok_iff`,
`encodable_treeAt`).  Trees are stored by content, with any hash.
-/
namespace Jamsesh.Automerger

open BottomUp Finmap Git List

/-! ## The directories and their entries -/

def parentDir (d : Path) : Option Path := if d = "" then none else some (dirOf d)

def dirEntry (d : Path) (h : Hash) : DirEntry := ⟨baseOf d, h, .dir⟩

-- named, so that the two lists below do not depend on which instances an import brings
local instance pathTrans : IsTrans Path (· ≤ ·) := inferInstance

local instance pathAntisymm : Std.Antisymm (· ≤ · : Path → Path → Prop) := inferInstance

local instance pathTotal : Std.Total (· ≤ · : Path → Path → Prop) := inferInstance

def dirList (m : FlatTree) : List Path := ("" :: (m.keys.sort (· ≤ ·)).flatMap dirsAbove).dedup.mergeSort dirLe

def placedFiles (m : FlatTree) : List (Path × DirEntry) :=
  (m.keys.sort (· ≤ ·)).filterMap (fun p => (m.lookup p).map (fun e => (dirOf p, DirEntry.mk (baseOf p) e.hash e.mode)))

def filesAt (m : FlatTree) : Path → List DirEntry := (placedFiles m).foldl (fun c f => addChild c f.1 f.2) (fun _ => [])

def sorted (es : List DirEntry) : List DirEntry := es.mergeSort (fun a b => a.name ≤ b.name)

/-- **The tree of a directory**, with the hashes of the directories in it. -/
def treeAt (m : FlatTree) (hash : Path → Hash) (d : Path) : List DirEntry :=
  sorted (gathered parentDir dirEntry (filesAt m) (dirList m) hash d)

structure Placed (m : FlatTree) : Prop where
  valid : ∀ p ∈ m, ValidPath p
  mode : ∀ p e, m.lookup p = some e → e.mode ≠ .dir

section
variable {m : FlatTree} {d : Path}

theorem foldl_addChild : ∀ (files : List (Path × DirEntry)) (c : Path → List DirEntry) (d : Path),
    files.foldl (fun c f => addChild c f.1 f.2) c d = c d ++ (files.filter (fun f => f.1 = d)).map (·.2)
  | [], c, d => by simp
  | f :: files, c, d => by
    rw [foldl_cons, foldl_addChild files]
    by_cases hf : f.1 = d
    · simp [addChild, hf]
    · simp [addChild, hf, Ne.symm hf]

theorem filesAt_eq (m : FlatTree) (d : Path) : filesAt m d = ((placedFiles m).filter (fun f => f.1 = d)).map (·.2) := by
  rw [filesAt, foldl_addChild, nil_append]

theorem mem_filesAt {e : DirEntry} :
    e ∈ filesAt m d ↔ ∃ p x, m.lookup p = some x ∧ dirOf p = d ∧ e = ⟨baseOf p, x.hash, x.mode⟩ := by
  rw [filesAt_eq, mem_map]
  constructor
  · rintro ⟨f, hf, rfl⟩
    obtain ⟨hf, hd⟩ := mem_filter.1 hf
    obtain ⟨p, -, hp⟩ := mem_filterMap.1 hf
    obtain ⟨x, hx, rfl⟩ := Option.map_eq_some_iff.1 hp
    exact ⟨p, x, hx, of_decide_eq_true hd, rfl⟩
  · rintro ⟨p, x, hx, hd, rfl⟩
    refine ⟨(dirOf p, ⟨baseOf p, x.hash, x.mode⟩), mem_filter.2 ⟨?_, decide_eq_true hd⟩, rfl⟩
    refine mem_filterMap.2 ⟨p, ?_, by rw [hx]; rfl⟩
    rw [Finset.mem_sort, Finmap.mem_keys]
    exact mem_of_lookup_eq_some hx

theorem mem_dirList : d ∈ dirList m ↔ d = "" ∨ ∃ p ∈ m, d ∈ dirsAbove p := by
  rw [dirList, mem_mergeSort, mem_dedup, mem_cons, mem_flatMap]
  simp only [Finset.mem_sort, Finmap.mem_keys]

theorem nodup_dirList (m : FlatTree) : (dirList m).Nodup := (mergeSort_perm _ _).nodup_iff.2 (nodup_dedup _)

theorem dirList_pairwise (m : FlatTree) : (dirList m).Pairwise (fun a b => dirLe a b = true) :=
  @List.pairwise_mergeSort Path dirLe (fun _ _ _ => dirLe_trans) dirLe_total _

theorem Placed.validDir (h : Placed m) (hd : d ∈ dirList m) (hne : d ≠ "") : ValidPath d := by
  obtain rfl | ⟨p, hp, ha⟩ := mem_dirList.1 hd
  · exact absurd rfl hne
  · exact (h.valid p hp).of_dirsAbove ha

theorem parentDir_eq_some {c : Path} : parentDir c = some d ↔ c ≠ "" ∧ dirOf c = d := by
  unfold parentDir
  split <;> simp_all

theorem dirLe_refl (d : Path) : dirLe d d = true := by
  have h := dirLe_total d d
  rwa [Bool.or_self] at h

theorem Placed.childrenFirst (h : Placed m) : ChildrenFirst parentDir (dirList m) := by
  refine childrenFirst_of_pairwise dirLe_refl (dirList_pairwise m) (fun c hc n hp => ?_)
  obtain ⟨hne, rfl⟩ := parentDir_eq_some.1 hp
  rw [not_dirLe_dirOf (h.validDir hc hne)]
  exact Bool.false_ne_true

theorem dirList_getLast (m : FlatTree) : (dirList m).getLast? = some "" := by
  have hr : "" ∈ dirList m := mem_dirList.2 (.inl rfl)
  obtain hn | ⟨_, last, hsplit⟩ := eq_nil_or_concat' (dirList m)
  · rw [hn] at hr
    cases hr
  have hs := dirList_pairwise m
  rw [hsplit] at hr hs ⊢
  rw [List.getLast?_concat]
  rcases mem_append.1 hr with hi | hl
  · have hle := (pairwise_append.1 hs).2.2 "" hi last mem_cons_self
    unfold dirLe at hle
    split at hle
    · exact absurd (of_decide_eq_true hle) (Nat.not_lt_zero _)
    · refine congrArg some (le_antisymm (of_decide_eq_true hle) ?_)
      exact not_lt.1 (fun hlt => not_lt_nil _ (String.lt_iff_toList_lt.1 hlt))
  · rw [← mem_singleton.1 hl]

end

/-! ## The loop -/

structure Stores (world : World) (attempt : Bool) (treeHash : List DirEntry → Hash) : Prop where
  write : ∀ dir es, world.writeTree attempt dir es = .ok (treeHash es)

def writtenDirs (world : World) (attempt : Bool) : List Path → (Path → List DirEntry) → List (Path × List DirEntry)
  | [], _ => []
  | dir :: dirs, children =>
    let entries := (children dir).mergeSort (fun a b => a.name ≤ b.name)
    if !encodable entries then []
    else match world.writeTree attempt dir entries with
      | .error _ => []
      | .ok h =>
        (dir, entries) ::
          writtenDirs world attempt dirs (if dir ≠ "" then addChild children (dirOf dir) ⟨baseOf dir, h, .dir⟩ else children)

def writtenTrees (world : World) (attempt : Bool) (m : FlatTree) : List (Path × List DirEntry) :=
  writtenDirs world attempt (dirList m) (filesAt m)

def Hashes (treeHash : List DirEntry → Hash) (m : FlatTree) (hash : Path → Hash) : Prop :=
  ∀ d ∈ dirList m, hash d = treeHash (treeAt m hash d)

theorem addChild_eq_handUp (children : Path → List DirEntry) (d : Path) (h : Hash) :
    (if d ≠ "" then addChild children (dirOf d) ⟨baseOf d, h, .dir⟩ else children) = handUp parentDir dirEntry children d h := by
  unfold handUp parentDir
  by_cases hd : d = ""
  · simp [hd]
  · simp only [ne_eq, hd, not_false_eq_true, if_true]
    rfl

section
variable {world : World} {attempt : Bool} {treeHash : List DirEntry → Hash} {m : FlatTree} {hash : Path → Hash}
  (hworld : Stores world attempt treeHash) (hm : Placed m) (hhash : Hashes treeHash m hash)

theorem exists_hashes (treeHash : List DirEntry → Hash) (hm : Placed m) : ∃ hash, Hashes treeHash m hash := by
  have : Nonempty Hash := ⟨.zero⟩
  exact exists_values (fun _ es => treeHash (sorted es)) (dirList m) hm.childrenFirst (nodup_dirList m)

include hworld hm hhash

theorem buildDirs_spec : ∀ (post pre : List Path) (root : Hash), dirList m = pre ++ post →
    (∀ h, buildDirs world attempt post (gathered parentDir dirEntry (filesAt m) pre hash) root = .ok h ↔
      (∀ d ∈ post, encodable (treeAt m hash d) = true) ∧ h = (post.getLast?.map hash).getD root) ∧
    writtenDirs world attempt post (gathered parentDir dirEntry (filesAt m) pre hash) =
      (post.takeWhile (fun d => encodable (treeAt m hash d))).map (fun d => (d, treeAt m hash d))
  | [], pre, root, _ => by
    refine ⟨fun h => ?_, rfl⟩
    rw [buildDirs]
    simp only [not_mem_nil, false_implies, implies_true, true_and, Except.ok.injEq]
    exact eq_comm
  | d :: post, pre, root, hs => by
    have ht : (gathered parentDir dirEntry (filesAt m) pre hash d).mergeSort (fun a b => a.name ≤ b.name) = treeAt m hash d := by
      rw [gathered_turn hm.childrenFirst hs]
      rfl
    have hd : hash d = treeHash (treeAt m hash d) := hhash d (by rw [hs]; simp)
    have hn := buildDirs_spec post (pre ++ [d]) (hash d) (by rw [hs]; simp)
    have hb : buildDirs world attempt (d :: post) (gathered parentDir dirEntry (filesAt m) pre hash) root =
        if !encodable (treeAt m hash d) then .error ("buildTree encode " ++ quote d ++ ": entries in tree are not sorted")
        else buildDirs world attempt post (gathered parentDir dirEntry (filesAt m) (pre ++ [d]) hash) (hash d) := by
      rw [buildDirs, ht, hworld.write, ← hd, ← handUp_gathered, ← addChild_eq_handUp]
      rfl
    have hw : writtenDirs world attempt (d :: post) (gathered parentDir dirEntry (filesAt m) pre hash) =
        if !encodable (treeAt m hash d) then []
        else (d, treeAt m hash d) :: writtenDirs world attempt post (gathered parentDir dirEntry (filesAt m) (pre ++ [d]) hash) := by
      rw [writtenDirs, ht, hworld.write, ← hd, ← handUp_gathered, ← addChild_eq_handUp]
    rw [hb, hw]
    cases he : encodable (treeAt m hash d) with
    | false => simp [he]
    | true =>
      simp only [Bool.not_true, Bool.false_eq_true, if_false, forall_mem_cons, he, true_and, takeWhile_cons_of_pos]
      refine ⟨fun h => (hn.1 h).trans ?_, congrArg _ hn.2⟩
      rw [List.getLast?_cons]
      cases post.getLast? <;> rfl

theorem buildTree_ok_iff (h : Hash) :
    buildTree world attempt m = .ok h ↔ (∀ d ∈ dirList m, encodable (treeAt m hash d) = true) ∧ h = hash "" := by
  have hs := (buildDirs_spec hworld hm hhash (dirList m) [] .zero rfl).1 h
  rw [gathered_nil, dirList_getLast] at hs
  exact hs

theorem writtenTrees_eq :
    writtenTrees world attempt m =
      ((dirList m).takeWhile (fun d => encodable (treeAt m hash d))).map (fun d => (d, treeAt m hash d)) := by
  have hs := (buildDirs_spec hworld hm hhash (dirList m) [] .zero rfl).2
  rw [gathered_nil] at hs
  exact hs

end

/-! ## The order in a directory -/

def namesAt (m : FlatTree) (d : Path) : List String :=
  (filesAt m d).map (·.name) ++ (children parentDir (dirList m) d).map baseOf

/-- **A directory in `d` is shadowed**: a name beside it goes on behind its own with a character before the slash. -/
def Shadowed (m : FlatTree) (d : Path) : Prop :=
  ∃ c ∈ children parentDir (dirList m) d, ∃ t ∈ namesAt m d, Shadows (baseOf c) t

def Clashes (m : FlatTree) (d : Path) : Prop := ∃ p ∈ m, p ∈ children parentDir (dirList m) d

theorem sortName_dirEntry (c : Path) (h : Hash) : sortName (dirEntry c h) = baseOf c ++ "/" := rfl

theorem sortName_file {e : DirEntry} (h : e.mode ≠ .dir) : sortName e = e.name := if_neg h

theorem encodable_iff : ∀ {es : List DirEntry}, encodable es = true ↔ es.Pairwise (fun a b => sortName a ≤ sortName b)
  | [] => by simp [encodable]
  | [a] => by simp [encodable]
  | a :: b :: es => by
    rw [encodable, Bool.and_eq_true, decide_eq_true_eq, encodable_iff]
    constructor
    · rintro ⟨hab, hr⟩
      refine pairwise_cons.2 ⟨fun c hc => ?_, hr⟩
      rcases mem_cons.1 hc with rfl | hc
      · exact hab
      · exact hab.trans ((pairwise_cons.1 hr).1 c hc)
    · intro h
      obtain ⟨ha, hr⟩ := pairwise_cons.1 h
      exact ⟨ha b mem_cons_self, hr⟩

theorem sorted_pairwise (es : List DirEntry) : (sorted es).Pairwise (fun a b => a.name ≤ b.name) := by
  have h := @List.pairwise_mergeSort DirEntry (fun a b => a.name ≤ b.name)
    (fun a b c hab hbc => decide_eq_true ((of_decide_eq_true hab).trans (of_decide_eq_true hbc)))
    (fun a b => by simpa using le_total a.name b.name) es
  exact h.imp of_decide_eq_true

theorem sorted_perm (es : List DirEntry) : (sorted es).Perm es := mergeSort_perm _ _

theorem rel_of_name_lt {r : DirEntry → DirEntry → Prop} {es : List DirEntry} (hs : es.Pairwise (fun a b => a.name ≤ b.name))
    (hr : es.Pairwise r) {a b : DirEntry} (ha : a ∈ es) (hb : b ∈ es) (hlt : a.name < b.name) : r a b := by
  have hboth : es.Pairwise (fun a b => (a.name ≤ b.name ∧ r a b) ∨ (b.name ≤ a.name ∧ r b a)) :=
    (hs.and hr).imp .inl
  have hne : a ≠ b := by
    rintro rfl
    exact lt_irrefl _ hlt
  have : Std.Symm (fun a b : DirEntry => (a.name ≤ b.name ∧ r a b) ∨ (b.name ≤ a.name ∧ r b a)) := ⟨fun _ _ h => h.symm⟩
  rcases hboth.forall ha hb hne with ⟨-, h⟩ | ⟨hle, -⟩
  · exact h
  · exact absurd hlt (not_lt.2 hle)

theorem not_sublist_swap {α : Type} {a b : α} : ∀ {l : List α}, l.Nodup → [a, b].Sublist l → ¬ [b, a].Sublist l
  | [], _, hab => by cases hab
  | x :: l, hn, hab => by
    obtain ⟨hx, hl⟩ := nodup_cons.1 hn
    intro hba
    rcases sublist_cons_iff.1 hab with h | ⟨r, hr, h⟩ <;> rcases sublist_cons_iff.1 hba with h' | ⟨_, hr', h'⟩
    · exact not_sublist_swap hl h h'
    · cases hr'
      exact hx (h.subset (mem_cons_of_mem a mem_cons_self))
    · cases hr
      exact hx (h'.subset (mem_cons_of_mem b mem_cons_self))
    · cases hr
      cases hr'
      exact hx (h.subset mem_cons_self)

variable {m : FlatTree} {hash : Path → Hash} {d : Path}

theorem treeAt_sorted (m : FlatTree) (hash : Path → Hash) (d : Path) :
    (treeAt m hash d).Pairwise (fun a b => a.name ≤ b.name) := sorted_pairwise _

theorem treeAt_names : ((treeAt m hash d).map (·.name)).Perm (namesAt m d) := by
  refine ((sorted_perm _).map _).trans ?_
  rw [gathered, map_append, map_map, namesAt]
  rfl

theorem mem_treeAt {e : DirEntry} :
    e ∈ treeAt m hash d ↔ e ∈ filesAt m d ∨ ∃ c ∈ children parentDir (dirList m) d, e = dirEntry c (hash c) := by
  rw [treeAt, (sorted_perm _).mem_iff, gathered, mem_append, mem_map]
  simp only [eq_comm]

theorem mem_namesAt (hash : Path → Hash) {t : String} : t ∈ namesAt m d ↔ ∃ e ∈ treeAt m hash d, e.name = t := by
  rw [← treeAt_names.mem_iff, mem_map]

theorem file_before_dir {e : DirEntry} (he : e ∈ filesAt m d) {c : Path} (hc : c ∈ children parentDir (dirList m) d)
    (hn : e.name = baseOf c) : [e, dirEntry c (hash c)].Sublist (treeAt m hash d) := by
  have hs : [e, dirEntry c (hash c)].Sublist (gathered parentDir dirEntry (filesAt m) (dirList m) hash d) :=
    List.Sublist.append (singleton_sublist.2 he) (singleton_sublist.2 (mem_map.2 ⟨c, hc, rfl⟩))
  refine sublist_mergeSort ?_ ?_ ?_ hs
  · intro a b c hab hbc
    exact decide_eq_true ((of_decide_eq_true hab).trans (of_decide_eq_true hbc))
  · intro a b
    simpa using le_total a.name b.name
  · simp [hn, dirEntry]

variable (hm : Placed m)

include hm

theorem Placed.mode_filesAt {e : DirEntry} (he : e ∈ filesAt m d) : e.mode ≠ .dir := by
  obtain ⟨p, x, hx, -, rfl⟩ := mem_filesAt.1 he
  exact hm.mode p x hx

theorem Placed.valid_child {c : Path} (hc : c ∈ children parentDir (dirList m) d) : ValidPath c ∧ dirOf c = d := by
  obtain ⟨hmem, hp⟩ := mem_children.1 hc
  obtain ⟨hne, hd⟩ := parentDir_eq_some.1 hp
  exact ⟨hm.validDir hmem hne, hd⟩

omit hm in
theorem eq_of_dirOf_baseOf {p q : Path} (hp : ValidPath p) (hq : ValidPath q) (hd : dirOf p = dirOf q)
    (hbase : baseOf p = baseOf q) : p = q := by
  rw [← hp.joinPath, hd, hbase, hq.joinPath]

theorem Placed.nodup_fileNames (d : Path) : ((filesAt m d).map (·.name)).Nodup := by
  rw [filesAt_eq, map_map]
  unfold List.Nodup
  rw [pairwise_map, pairwise_filter, placedFiles, pairwise_filterMap]
  refine (m.keys.sort_nodup (· ≤ ·)).imp_of_mem (fun {p q} _ _ hne f hf g hg hfd hgd heq => hne ?_)
  obtain ⟨x, hx, rfl⟩ := Option.map_eq_some_iff.1 hf
  obtain ⟨y, hy, rfl⟩ := Option.map_eq_some_iff.1 hg
  have hd : dirOf p = dirOf q := (of_decide_eq_true hfd).trans (of_decide_eq_true hgd).symm
  exact eq_of_dirOf_baseOf (hm.valid p (mem_of_lookup_eq_some hx)) (hm.valid q (mem_of_lookup_eq_some hy)) hd heq

theorem Placed.nodup_dirNames (d : Path) : ((children parentDir (dirList m) d).map baseOf).Nodup := by
  refine List.Nodup.map_on (fun c hc _ hc' heq => ?_) ((nodup_dirList m).filter _)
  obtain ⟨hv, hd⟩ := hm.valid_child hc
  obtain ⟨hv', hd'⟩ := hm.valid_child hc'
  exact eq_of_dirOf_baseOf hv hv' (hd.trans hd'.symm) heq

theorem Placed.nodup_names_iff (d : Path) : (namesAt m d).Nodup ↔ ¬ Clashes m d := by
  rw [namesAt, nodup_append]
  constructor
  · rintro ⟨-, -, hd⟩ ⟨p, hp, hc⟩
    obtain ⟨x, hx⟩ := mem_iff.1 hp
    have hf : (⟨baseOf p, x.hash, x.mode⟩) ∈ filesAt m d := mem_filesAt.2 ⟨p, x, hx, (hm.valid_child hc).2, rfl⟩
    exact hd _ (mem_map_of_mem hf) _ (mem_map_of_mem hc) rfl
  · intro hno
    refine ⟨hm.nodup_fileNames d, hm.nodup_dirNames d, fun s hs t ht heq => hno ?_⟩
    obtain ⟨e, he, rfl⟩ := mem_map.1 hs
    obtain ⟨c, hc, rfl⟩ := mem_map.1 ht
    obtain ⟨p, x, hx, hdir, rfl⟩ := mem_filesAt.1 he
    obtain ⟨hv, hd'⟩ := hm.valid_child hc
    have hmem := mem_of_lookup_eq_some hx
    refine ⟨p, hmem, ?_⟩
    rw [eq_of_dirOf_baseOf (hm.valid p hmem) hv (hdir.trans hd'.symm) heq]
    exact hc

theorem Placed.nodup_treeAt (hash : Path → Hash) (d : Path) : (treeAt m hash d).Nodup := by
  refine (sorted_perm _).nodup_iff.2 (nodup_append.2 ⟨(hm.nodup_fileNames d).of_map _, ?_, ?_⟩)
  · refine List.Nodup.of_map (·.name) ?_
    rw [map_map]
    exact hm.nodup_dirNames d
  · rintro e he _ he' rfl
    obtain ⟨c, -, rfl⟩ := mem_map.1 he'
    exact hm.mode_filesAt he rfl

theorem Placed.encodable_treeAt : encodable (treeAt m hash d) = true ↔ ¬ Shadowed m d := by
  rw [encodable_iff]
  constructor
  · rintro ho ⟨c, hc, t, ht, hs⟩
    obtain ⟨b, hb, rfl⟩ := (mem_namesAt hash).1 ht
    have ha : dirEntry c (hash c) ∈ treeAt m hash d := mem_treeAt.2 (.inr ⟨c, hc, rfl⟩)
    have hle : sortName (dirEntry c (hash c)) ≤ sortName b := rel_of_name_lt (treeAt_sorted m hash d) ho ha hb hs.lt
    rw [sortName_dirEntry, sortName] at hle
    split at hle
    · exact (slash_le_slash_iff hs.lt).1 hle hs
    · exact (slash_le_iff.1 hle).2 hs
  · intro hno
    refine pairwise_iff_forall_sublist.2 (fun {a b} hab => ?_)
    have hle : a.name ≤ b.name := pairwise_iff_forall_sublist.1 (treeAt_sorted m hash d) hab
    have ha := mem_treeAt.1 (hab.subset mem_cons_self)
    have hb := mem_treeAt.1 (hab.subset (mem_cons_of_mem a mem_cons_self))
    rcases ha with ha | ⟨c, hc, rfl⟩
    · rw [sortName_file (hm.mode_filesAt ha), sortName]
      split
      · exact hle.trans (le_slash _)
      · exact hle
    · have hf : ¬ Shadows (baseOf c) b.name := fun hs =>
        hno ⟨c, hc, b.name, (mem_namesAt hash).2 ⟨b, mem_treeAt.2 hb, rfl⟩, hs⟩
      rw [sortName_dirEntry]
      rcases hb with hb | ⟨_, -, rfl⟩
      · rw [sortName_file (hm.mode_filesAt hb)]
        refine slash_le_iff.2 ⟨lt_of_le_of_ne hle (fun heq => ?_), hf⟩
        exact not_sublist_swap (hm.nodup_treeAt hash d) hab (file_before_dir hb hc heq.symm)
      rw [sortName_dirEntry]
      rcases hle.lt_or_eq with hlt | heq
      · exact (slash_le_slash_iff hlt).2 hf
      · exact (congrArg (· ++ "/") heq).le

omit hm in
theorem placed_of_keys (h : ∀ p ∈ m.keys, ValidPath p ∧ (m.lookup p).map (·.mode) ≠ some .dir) : Placed m where
  valid p hp := (h p (mem_keys.2 hp)).1
  mode p e he hdir := (h p (mem_keys.2 (mem_of_lookup_eq_some he))).2 (by rw [he, Option.map_some, hdir])

variable {world : World} {attempt : Bool} {treeHash : List DirEntry → Hash}
  (hclear : ∀ p ∈ m.keys, ∀ c ∈ dirsAbove p, ∀ q ∈ m.keys, ∀ t ∈ q :: dirsAbove q, ¬ Shadows (baseOf c) (baseOf t))

include hclear

/-- **The tree is built where no name in the map shadows that of a directory**, which the keys decide. -/
theorem Placed.buildTree_ok (hworld : Stores world attempt treeHash) : ∃ h, buildTree world attempt m = .ok h := by
  obtain ⟨hash, hh⟩ := exists_hashes treeHash hm
  refine ⟨hash "", (buildTree_ok_iff hworld hm hh _).2 ⟨fun d _ => hm.encodable_treeAt.2 ?_, rfl⟩⟩
  have hdir : ∀ c ∈ children parentDir (dirList m) d, ∃ p ∈ m.keys, c ∈ dirsAbove p := by
    intro c hc
    obtain ⟨hmem, hparent⟩ := mem_children.1 hc
    obtain rfl | ⟨p, hp, ha⟩ := mem_dirList.1 hmem
    · exact absurd rfl (parentDir_eq_some.1 hparent).1
    · exact ⟨p, mem_keys.2 hp, ha⟩
  rintro ⟨c, hc, t, ht, hs⟩
  obtain ⟨p, hp, ha⟩ := hdir c hc
  rcases mem_append.1 ht with ht | ht
  · obtain ⟨_, he, rfl⟩ := mem_map.1 ht
    obtain ⟨q, x, hx, -, rfl⟩ := mem_filesAt.1 he
    exact hclear p hp c ha q (mem_keys.2 (mem_of_lookup_eq_some hx)) q mem_cons_self hs
  · obtain ⟨c', hc', rfl⟩ := mem_map.1 ht
    obtain ⟨q, hq, ha'⟩ := hdir c' hc'
    exact hclear p hp c ha q hq c' (mem_cons_of_mem _ ha') hs

theorem Placed.finish_ok (hworld : Stores world true treeHash) (files : List ConflictedFile) :
    ∃ h, finish world ⟨m, [], files⟩ = .ok ⟨.cleanMerge, some h, none, [], m⟩ := by
  obtain ⟨h, hh⟩ := hm.buildTree_ok hclear hworld
  refine ⟨h, ?_⟩
  rw [finish, hh]
  rfl

end Jamsesh.Automerger
