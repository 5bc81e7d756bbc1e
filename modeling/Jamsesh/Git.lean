import Jamsesh.Text
import Jamsesh.Walk
import Mathlib.Data.Finmap
/-!
# Git — objects, trees and history, as the portal sees them through go-git

What go-git answers when the portal asks for a commit, a tree, a tree diff or a history walk.  A repository is a finite set of
commits with distinct ids and a store of trees; `log` is go-git's default walk, and `newHash` its lenient reader of ids.
-/
namespace Jamsesh.Git

open List Walk

/-! ## Object ids -/

-- One proof that a byte has values, so that every byte literal of the development is the same term.
instance instNeZeroByte : NeZero 256 := ⟨by decide⟩

structure Hash where
  bytes : List (Fin 256)
  length_eq : bytes.length = 20
deriving DecidableEq

/-- `plumbing.ZeroHash` -/
def Hash.zero : Hash := ⟨List.replicate 20 0, by simp⟩

def Hash.ofByte (b : Fin 256) : Hash := ⟨List.replicate 20 b, by simp⟩

/-- What `hex.DecodeString` has decoded when it stops: the leading pairs of hex digits. -/
def hexDecode : Text → List (Fin 256)
  | a :: b :: rest =>
    match hexDigit a, hexDigit b with
    | some x, some y => Fin.ofNat 256 (16 * x + y) :: hexDecode rest
    | _, _ => []
  | _ => []

/-- `plumbing.NewHash`: the decoded bytes copied into twenty; what does not decode is ignored. -/
def newHash (s : String) : Hash :=
  ⟨(hexDecode s.toList ++ List.replicate 20 0).take 20, by simp⟩

/-- Go's `%q`, for text without unprintable runes beyond the ASCII controls. -/
def quoteChar (c : Char) : Text :=
  match [('"', '"'), ('\\', '\\'), ('\x07', 'a'), ('\x08', 'b'), ('\x0c', 'f'), ('\n', 'n'), ('\r', 'r'), ('\t', 't'),
    ('\x0b', 'v')].lookup c with
  | some e => ['\\', e]
  | none =>
    if c.toNat < 32 ∨ c.toNat = 127 then ['\\', 'x', hexChar (c.toNat / 16), hexChar (c.toNat % 16)] else [c]

def quote (s : String) : String := "\"" ++ String.ofList (s.toList.flatMap quoteChar) ++ "\""

/-- `Hash.String` -/
def Hash.text (h : Hash) : Text := h.bytes.flatMap (fun b => [hexChar (b.val / 16), hexChar (b.val % 16)])

def Hash.string (h : Hash) : String := String.ofList h.text

theorem hexChar_injective : ∀ a < 16, ∀ b < 16, hexChar a = hexChar b → a = b := by decide

variable {h r : Hash}

theorem Hash.text_injective {h' : Hash} (heq : h.text = h'.text) : h = h' := by
  have hb : ∀ l l' : List (Fin 256), l.flatMap (fun b => [hexChar (b.val / 16), hexChar (b.val % 16)]) =
      l'.flatMap (fun b => [hexChar (b.val / 16), hexChar (b.val % 16)]) → l = l' := by
    intro l
    induction l with
    | nil =>
      intro l' hl
      cases l' with
      | nil => rfl
      | cons => simp at hl
    | cons a l ih =>
      intro l' hl
      cases l' with
      | nil => simp at hl
      | cons b l' =>
        simp only [flatMap_cons, cons_append, List.cons.injEq] at hl
        have hh := hexChar_injective _ (by omega) _ (by omega) hl.1
        have hlow := hexChar_injective _ (by omega) _ (by omega) hl.2.1
        rw [ih l' hl.2.2, Fin.ext (a := a) (b := b) (by omega)]
  cases h
  cases h'
  congr
  exact hb _ _ heq

theorem Hash.string_injective {h' : Hash} (heq : h.string = h'.string) : h = h' :=
  Hash.text_injective (String.ofList_injective heq)

structure GitErr where
  text : String
deriving DecidableEq

def GitErr.objectNotFound : GitErr := ⟨"object not found"⟩

def GitErr.referenceNotFound : GitErr := ⟨"reference not found"⟩

/-! ## Trees -/

inductive FileMode where
  | empty | dir | regular | deprecated | executable | symlink | submodule
deriving DecidableEq

def FileMode.isFile : FileMode → Bool
  | .regular | .deprecated | .executable | .symlink => true
  | .empty | .dir | .submodule => false

abbrev Path := String

/-- What a tree holds at a path: the blob (or the submodule's commit) and the mode. -/
structure TreeEntry where
  hash : Hash
  mode : FileMode
deriving DecidableEq

inductive Node where
  | nil
  | file (name : String) (entry : TreeEntry) (rest : Node)
  | dir (name : String) (sub rest : Node)
deriving DecidableEq

namespace Node

def names : Node → List String
  | nil => []
  | file name _ rest => name :: rest.names
  | dir name _ rest => name :: rest.names

def validName (name : String) : Bool := name ≠ "" && name ≠ "." && name ≠ ".." && !name.toList.contains '/'

/-- Every directory names its entries once, with names git allows, and only sub-trees have the directory mode. -/
def wellFormed : Node → Bool
  | nil => true
  | file name entry rest => validName name && entry.mode ≠ .dir && !rest.names.contains name && rest.wellFormed
  | dir name sub rest => validName name && !rest.names.contains name && sub.wellFormed && rest.wellFormed

end Node

structure Tree where
  root : Node
  wf : root.wellFormed = true

def Tree.empty : Tree := ⟨.nil, rfl⟩

/-- The full path of an entry named `name` under `pre`. -/
def joinPath (pre name : String) : Path := if pre ≠ "" then pre ++ "/" ++ name else name

/-- `object.ChangeEntry`: an entry with its full path and the tree entry's own name. -/
structure ChangeEntry where
  name : Path
  entryName : String
  entry : TreeEntry
deriving DecidableEq

def Node.entries : Node → String → List ChangeEntry
  | nil, _ => []
  | file name entry rest, pre => ⟨joinPath pre name, name, entry⟩ :: rest.entries pre
  | dir name sub rest, pre => sub.entries (joinPath pre name) ++ rest.entries pre

def Tree.entries (t : Tree) : List ChangeEntry := t.root.entries ""

variable {t : Tree} {p : Path}

abbrev FlatTree := Finmap (fun _ : Path => TreeEntry)

def FlatTree.addAll (out : FlatTree) (es : List ChangeEntry) : FlatTree :=
  es.foldl (fun m e => m.insert e.name e.entry) out

/-- **The map of a tree**: every file, symlink and submodule at its full path. -/
def Tree.flat (t : Tree) : FlatTree := FlatTree.addAll ∅ t.entries

def Tree.entryAt (t : Tree) (p : Path) : Option TreeEntry := t.flat.lookup p

theorem FlatTree.lookup_insert (m : FlatTree) (q : Path) (e : TreeEntry) (p : Path) :
    (m.insert q e).lookup p = if p = q then some e else m.lookup p := by
  split
  case isTrue hp => rw [hp, Finmap.lookup_insert]
  case isFalse hp => exact Finmap.lookup_insert_of_ne _ hp

theorem FlatTree.lookup_addAll_none {p : Path} : ∀ (es : List ChangeEntry) (out : FlatTree), (∀ e ∈ es, e.name ≠ p) →
    (FlatTree.addAll out es).lookup p = out.lookup p
  | [], _, _ => rfl
  | e :: es, out, h => by
    have he : p ≠ e.name := fun hp => h e mem_cons_self hp.symm
    rw [FlatTree.addAll, foldl_cons, ← FlatTree.addAll,
      FlatTree.lookup_addAll_none es _ (fun d hd => h d (mem_cons_of_mem e hd)), Finmap.lookup_insert_of_ne _ he]

theorem FlatTree.lookup_addAll_some {p : Path} : ∀ (es : List ChangeEntry) (out : FlatTree), (∃ e ∈ es, e.name = p) →
    ∃ e ∈ es, e.name = p ∧ (FlatTree.addAll out es).lookup p = some e.entry
  | [], _, h => by
    obtain ⟨e, he, -⟩ := h
    cases he
  | d :: es, out, h => by
    rw [FlatTree.addAll, foldl_cons, ← FlatTree.addAll]
    by_cases hlater : ∃ e ∈ es, e.name = p
    · obtain ⟨e, he, hp, hl⟩ := FlatTree.lookup_addAll_some es (out.insert d.name d.entry) hlater
      exact ⟨e, mem_cons_of_mem d he, hp, hl⟩
    have hd : d.name = p := by
      obtain ⟨e, he, hp⟩ := h
      rcases mem_cons.1 he with rfl | he
      · exact hp
      · exact absurd ⟨e, he, hp⟩ hlater
    refine ⟨d, mem_cons_self, hd, ?_⟩
    rw [FlatTree.lookup_addAll_none es _ (fun e he hp => hlater ⟨e, he, hp⟩), ← hd, Finmap.lookup_insert]

theorem Tree.entryAt_eq_some {x : TreeEntry} (h : t.entryAt p = some x) : ∃ e ∈ t.entries, e.name = p ∧ e.entry = x := by
  by_cases hp : ∃ e ∈ t.entries, e.name = p
  · obtain ⟨e, he, hn, hl⟩ := FlatTree.lookup_addAll_some t.entries ∅ hp
    exact ⟨e, he, hn, Option.some.inj (hl.symm.trans h)⟩
  · have hnone := FlatTree.lookup_addAll_none t.entries ∅ (fun e he hn => hp ⟨e, he, hn⟩)
    rw [Tree.entryAt, Tree.flat, hnone, Finmap.lookup_empty] at h
    cases h

theorem joinPath_ne_empty {pre name : String} (h : Node.validName name = true) : joinPath pre name ≠ "" := by
  have hn : name ≠ "" := by simp_all [Node.validName]
  unfold joinPath
  split
  · intro hc
    exact hn (String.append_eq_empty_iff.1 hc).2
  · exact hn

theorem Node.entries_name_ne : ∀ (n : Node) (pre : String), n.wellFormed = true → ∀ e ∈ n.entries pre, e.name ≠ ""
  | nil, _, _, e, he => by cases he
  | file name entry rest, pre, h, e, he => by
    simp only [wellFormed, Bool.and_eq_true] at h
    rcases mem_cons.1 he with rfl | he
    · exact joinPath_ne_empty h.1.1.1
    · exact Node.entries_name_ne rest pre h.2 e he
  | dir name sub rest, pre, h, e, he => by
    simp only [wellFormed, Bool.and_eq_true] at h
    rcases mem_append.1 he with he | he
    · exact Node.entries_name_ne sub _ h.1.2 e he
    · exact Node.entries_name_ne rest pre h.2 e he

theorem Tree.entryAt_empty (t : Tree) : t.entryAt "" = none := by
  cases h : t.entryAt "" with
  | none => rfl
  | some =>
    obtain ⟨e, he, hn, -⟩ := Tree.entryAt_eq_some h
    exact absurd hn (Node.entries_name_ne t.root "" t.wf e he)

@[simp] theorem Tree.empty_entryAt (p : Path) : Tree.empty.entryAt p = none := rfl

def IsPath (p : Path) : Prop := ∃ t : Tree, (t.entryAt p).isSome

/-! ## Tree diffs -/

/-- `object.Change`: an insertion has no `from`, a deletion no `to`, a rename two different names. -/
structure Change where
  fromEntry : Option ChangeEntry
  toEntry : Option ChangeEntry
deriving DecidableEq

/-- `ch.From.Name`, empty for an insertion. -/
def Change.fromName (ch : Change) : Path := (ch.fromEntry.map (·.name)).getD ""

/-- `ch.To.Name`, empty for a deletion. -/
def Change.toName (ch : Change) : Path := (ch.toEntry.map (·.name)).getD ""

abbrev DiffTree := Option Tree → Tree → Except GitErr (List Change)

/-- **What a tree diff promises**: it names exactly the paths at which two trees differ; whether it pairs a deletion and an
insertion into a rename is left open. -/
structure DiffTree.Exact (diffTree : DiffTree) : Prop where
  total : ∀ parent t, ∃ changes, diffTree parent t = .ok changes
  covers : ∀ parent t changes, diffTree parent t = .ok changes → ∀ p,
    (parent.getD Tree.empty).entryAt p ≠ t.entryAt p → ∃ ch ∈ changes, ch.fromName = p ∨ ch.toName = p
  differs : ∀ parent t changes, diffTree parent t = .ok changes → ∀ ch ∈ changes, ∀ p, p ≠ "" →
    ch.fromName = p ∨ ch.toName = p → (parent.getD Tree.empty).entryAt p ≠ t.entryAt p

def Tree.find (t : Tree) (p : Path) : Option ChangeEntry :=
  t.entries.find? (fun e => e.name = p ∧ some e.entry = t.entryAt p)

theorem Tree.find_spec (t : Tree) (p : Path) :
    (t.find p).map (·.entry) = t.entryAt p ∧ ∀ e, t.find p = some e → e.name = p ∧ e ∈ t.entries := by
  cases hf : t.find p with
  | some =>
    have hp := List.find?_some hf
    simp only [decide_eq_true_eq] at hp
    refine ⟨hp.2, fun d hd => ?_⟩
    cases hd
    exact ⟨hp.1, mem_of_find?_eq_some hf⟩
  | none =>
    refine ⟨?_, fun e he => by cases he⟩
    cases he : t.entryAt p with
    | none => rfl
    | some =>
      obtain ⟨e, hm, hn, hx⟩ := Tree.entryAt_eq_some he
      have := List.find?_eq_none.1 hf e hm
      simp [hn, hx, he] at this

/-- The diff that pairs nothing: one change for each path at which the trees differ. -/
def plainDiff (parent : Option Tree) (t : Tree) : List Change :=
  let old := parent.getD Tree.empty
  ((old.entries ++ t.entries).map (·.name)).dedup.filterMap (fun p =>
    if old.entryAt p = t.entryAt p then none else some ⟨old.find p, t.find p⟩)

theorem Tree.find_name (t : Tree) (p : Path) : ((t.find p).map (·.name)).getD "" = p ∨ t.entryAt p = none := by
  obtain ⟨he, hn⟩ := t.find_spec p
  cases hf : t.find p with
  | none => exact .inr (by rw [← he, hf]; rfl)
  | some e => exact .inl (hn e hf).1

theorem Tree.find_name_ne {q : Path} (hq : q ≠ "") (h : ((t.find p).map (·.name)).getD "" = q) : p = q := by
  cases hf : t.find p with
  | none => rw [hf] at h; exact absurd h.symm hq
  | some e => rw [hf] at h; exact ((t.find_spec p).2 e hf).1.symm.trans h

theorem mem_names_of_differ {old : Tree} (h : old.entryAt p ≠ t.entryAt p) :
    p ∈ ((old.entries ++ t.entries).map (·.name)).dedup := by
  rw [mem_dedup, mem_map]
  cases ho : old.entryAt p with
  | some =>
    obtain ⟨e, he, hn, -⟩ := Tree.entryAt_eq_some ho
    exact ⟨e, mem_append_left _ he, hn⟩
  | none =>
    cases ht : t.entryAt p with
    | none => exact absurd (ho.trans ht.symm) h
    | some =>
      obtain ⟨e, he, hn, -⟩ := Tree.entryAt_eq_some ht
      exact ⟨e, mem_append_right _ he, hn⟩

theorem mem_diff {old : Tree} {change : Path → Change} {ch : Change} :
    ch ∈ ((old.entries ++ t.entries).map (·.name)).dedup.filterMap (fun p =>
        if old.entryAt p = t.entryAt p then none else some (change p)) ↔
      ∃ p, old.entryAt p ≠ t.entryAt p ∧ ch = change p := by
  rw [mem_filterMap]
  constructor
  · rintro ⟨p, -, hp⟩
    split at hp <;> cases hp
    rename_i hne
    exact ⟨p, hne, rfl⟩
  · rintro ⟨p, hne, rfl⟩
    exact ⟨p, mem_names_of_differ hne, if_neg hne⟩

theorem plainDiff_exact : DiffTree.Exact (fun parent t => .ok (plainDiff parent t)) where
  total := fun parent t => ⟨_, rfl⟩
  covers := by
    intro parent t _ hok p hne
    cases hok
    refine ⟨⟨(parent.getD Tree.empty).find p, t.find p⟩, ?_, ?_⟩
    · exact mem_diff.2 ⟨p, hne, rfl⟩
    · rcases (parent.getD Tree.empty).find_name p with h | h
      · exact .inl h
      · rcases t.find_name p with h' | h'
        · exact .inr h'
        · exact absurd (h.trans h'.symm) hne
  differs := by
    intro _ t _ hok _ hch q hq hn
    cases hok
    obtain ⟨p, hne, rfl⟩ := mem_diff.1 hch
    have hpq : p = q := hn.elim (Tree.find_name_ne hq) (Tree.find_name_ne hq)
    exact hpq ▸ hne

/-! ## Commits and references -/

structure Commit where
  hash : Hash
  parents : List Hash
  treeHash : Hash
  message : String
  authorName : String
  authorEmail : String
deriving DecidableEq

inductive RefTarget where
  | hash (h : Hash)
  | symbolic (name : String)
deriving DecidableEq

structure Reference where
  name : String
  target : RefTarget
deriving DecidableEq

/-- **A repository**: its commits have distinct ids, none of them zero. -/
structure Repo where
  commits : List Commit
  nodup : (commits.map (·.hash)).Nodup
  nonzero : Hash.zero ∉ commits.map (·.hash)
  tree : Hash → Option Tree
  references : Except GitErr (List Reference)
  head : Except GitErr Hash

namespace Repo

variable {repo repo' : Repo} {c : Commit}

def commitObject (repo : Repo) (h : Hash) : Option Commit := repo.commits.find? (fun c => c.hash = h)

/-- `c.Tree` -/
def treeOf (repo : Repo) (c : Commit) : Option Tree := repo.tree c.treeHash

def parents (repo : Repo) (h : Hash) : Option (List Hash) := (repo.commitObject h).map (·.parents)

def hashes (repo : Repo) : List Hash := repo.commits.map (·.hash)

abbrev Reaches (repo : Repo) : Hash → Hash → Prop := Reach repo.parents

def Complete (repo : Repo) (h : Hash) : Prop := ∀ x, repo.Reaches h x → (repo.parents x).isSome

def history (repo : Repo) (h : Hash) : List (Except Hash Hash) := walk repo.parents repo.hashes h

/-- Follow a name through symbolic references, at most `n` of them. -/
def resolve (refs : List Reference) : Nat → String → Option Hash
  | 0, _ => none
  | n + 1, name =>
    match refs.find? (fun r => r.name = name) with
    | none => none
    | some ⟨_, .hash h⟩ => some h
    | some ⟨_, .symbolic target⟩ => resolve refs n target

/-- `repo.Reference` with resolving. -/
def reference (repo : Repo) (name : String) : Except GitErr Hash :=
  match repo.references with
  | .error e => .error e
  | .ok refs =>
    match resolve refs 1024 name with
    | none => .error .referenceNotFound
    | some h => .ok h

/-- `repo.Log` with default options: from the zero id the walk starts at HEAD; a start that is not a commit is an error. -/
def log (repo : Repo) (start : Hash) : Except GitErr (List (Except Hash Hash)) := do
  let h ← if start = Hash.zero then repo.head else pure start
  match repo.commitObject h with
  | none => .error .objectNotFound
  | some _ => .ok (repo.history h)

/-- `CommitIter.ForEach` with a callback that collects commits and stops the iteration at `stop`. -/
def collect (repo : Repo) (stop : Hash → Bool) (items : List (Except Hash Hash)) : Except GitErr (List Commit) :=
  match forEach stop items with
  | .error _ => .error .objectNotFound
  | .ok hs => .ok (hs.filterMap repo.commitObject)

/-- `oldCommit.IsAncestor(newCommit)`: the pre-order walk from the new commit meets the old one. -/
def isAncestor (repo : Repo) (old new : Hash) : Except GitErr Bool :=
  match forEach (fun h => h = old) (repo.history new) with
  | .error _ => .error .objectNotFound
  | .ok _ => .ok (decide (old ∈ visited (repo.history new)))

/-! ## What the history answers -/

theorem commitObject_eq_some (hc : repo.commitObject h = some c) : c ∈ repo.commits ∧ c.hash = h :=
  ⟨mem_of_find?_eq_some hc, by simpa using List.find?_some hc⟩

theorem commitObject_self (hc : c ∈ repo.commits) : repo.commitObject c.hash = some c := by
  cases hf : repo.commitObject c.hash with
  | none => exact absurd (List.find?_eq_none.1 hf c hc) (by simp)
  | some =>
    obtain ⟨hd, hh⟩ := commitObject_eq_some hf
    rw [inj_on_of_nodup_map repo.nodup hd hc hh]

theorem parents_isSome (hs : (repo.parents h).isSome) : ∃ c, repo.commitObject h = some c := by
  rw [parents, Option.isSome_map] at hs
  exact Option.isSome_iff_exists.1 hs

theorem mem_hashes (h : Hash) (hs : (repo.parents h).isSome) : h ∈ repo.hashes := by
  obtain ⟨c, hc⟩ := parents_isSome hs
  obtain ⟨hm, hh⟩ := commitObject_eq_some hc
  exact mem_map.2 ⟨c, hm, hh⟩

theorem parents_isSome_of_mem (hh : h ∈ repo.hashes) : (repo.parents h).isSome := by
  obtain ⟨c, hc, rfl⟩ := mem_map.1 hh
  rw [parents, commitObject_self hc]
  rfl

def Closed (repo : Repo) : Prop := ∀ c ∈ repo.commits, ∀ p ∈ c.parents, p ∈ repo.hashes

instance (repo : Repo) : Decidable repo.Closed :=
  inferInstanceAs (Decidable (∀ c ∈ repo.commits, ∀ p ∈ c.parents, p ∈ repo.hashes))

theorem Closed.complete (hc : repo.Closed) (hr : r ∈ repo.hashes) : repo.Complete r := by
  intro x hx
  refine parents_isSome_of_mem ?_
  induction hx with
  | refl => exact hr
  | tail _ hyz ih =>
    obtain ⟨l, hl, hz⟩ := hyz
    obtain ⟨c, hcm, rfl⟩ := mem_map.1 ih
    rw [parents, commitObject_self hcm] at hl
    cases hl
    exact hc c hcm _ hz

theorem mem_history (hr : repo.Complete r) (x : Hash) : x ∈ visited (repo.history r) ↔ repo.Reaches r x :=
  mem_walk_iff repo.parents repo.hashes repo.nodup mem_hashes r hr x

theorem history_sound {x : Hash} (h : x ∈ visited (repo.history r)) : repo.Reaches r x :=
  walk_sound repo.parents repo.hashes r x (.inl (mem_visited.1 h))

theorem history_no_error (hr : repo.Complete r) (x : Hash) : Except.error x ∉ repo.history r := by
  intro h
  have hn := preorder_error_none repo.parents _ _ _ x h
  have hs := hr x (walk_sound repo.parents repo.hashes r x (.inr h))
  rw [hn] at hs
  cases hs

theorem log_eq (hc : repo.commitObject h = some c) : repo.log h = .ok (repo.history h) := by
  have hz : h ≠ Hash.zero := by
    rintro rfl
    obtain ⟨hm, hh⟩ := commitObject_eq_some hc
    exact repo.nonzero (mem_map.2 ⟨c, hm, hh⟩)
  simp [log, hz, hc]

theorem history_eq_cons (hc : repo.commitObject h = some c) : ∃ rest, repo.history h = .ok h :: rest := by
  have hs : repo.parents h = some c.parents := by rw [parents, hc, Option.map_some]
  unfold history walk
  rw [Nat.add_comm, preorder_visit repo.parents not_mem_nil hs]
  exact ⟨_, rfl⟩

theorem collect_history (hr : repo.Complete r) (stop : Hash → Bool) : repo.collect stop (repo.history r)
      = .ok (((visited (repo.history r)).takeWhile (fun h => !stop h)).filterMap repo.commitObject) := by
  rw [collect, forEach_visited stop _ (history_no_error hr)]

theorem collect_eq_ok {stop : Hash → Bool} {cs : List Commit} (h : repo.collect stop (repo.history r) = .ok cs) :
    cs = ((visited (repo.history r)).takeWhile (fun h => !stop h)).filterMap repo.commitObject := by
  unfold collect at h
  split at h <;> cases h
  rename_i hs heq
  rw [forEach_takeWhile stop _ hs heq]

theorem isAncestor_complete {old new : Hash} (hr : repo.Complete new) :
    repo.isAncestor old new = .ok (decide (old ∈ visited (repo.history new))) := by
  rw [isAncestor, forEach_visited _ _ (history_no_error hr)]

theorem isAncestor_true {old new : Hash} (h : repo.isAncestor old new = .ok true) : repo.Reaches new old := by
  unfold isAncestor at h
  split at h
  · cases h
  · exact history_sound (by simpa using h)

/-! ## Repositories with the same graph -/

def graph (repo : Repo) : List (Hash × List Hash) := repo.commits.map (fun c => (c.hash, c.parents))

/-- **The same commit graph and references**; messages, authors and trees may differ. -/
structure SameGraph (repo repo' : Repo) : Prop where
  graph : repo'.graph = repo.graph
  references : repo'.references = repo.references

theorem parents_eq_graph (repo : Repo) (h : Hash) :
    repo.parents h = (repo.graph.find? (fun p => p.1 = h)).map (·.2) := by
  rw [graph, List.find?_map, Option.map_map]
  rfl

theorem SameGraph.parents (h : repo.SameGraph repo') : repo'.parents = repo.parents := by
  funext x
  rw [parents_eq_graph, parents_eq_graph, h.graph]

theorem SameGraph.hashes (h : repo.SameGraph repo') : repo'.hashes = repo.hashes := by
  have e : ∀ r : Repo, r.hashes = r.graph.map Prod.fst := fun r => by simp [Repo.hashes, Repo.graph]
  rw [e, e, h.graph]

theorem SameGraph.history (h : repo.SameGraph repo') : repo'.history = repo.history := by
  funext x
  rw [Repo.history, Repo.history, h.parents, h.hashes]

theorem SameGraph.complete (h : repo.SameGraph repo') {x : Hash} (hx : repo.Complete x) : repo'.Complete x := by
  intro y hy
  rw [Repo.Reaches, h.parents] at hy
  rw [h.parents]
  exact hx y hy

def relabel (repo : Repo) (message : Hash → String) (tree : Hash → Tree) : Repo where
  commits := repo.commits.map (fun c => { c with message := message c.hash, treeHash := c.hash })
  nodup := by simpa [Function.comp_def] using repo.nodup
  nonzero := by simpa [Function.comp_def] using repo.nonzero
  tree := fun h => some (tree h)
  references := repo.references
  head := repo.head

theorem relabel_sameGraph (repo : Repo) (message : Hash → String) (tree : Hash → Tree) :
    repo.SameGraph (repo.relabel message tree) := ⟨by simp [graph, relabel], rfl⟩

theorem relabel_commitObject {message : Hash → String} {tree : Hash → Tree}
    (hc : (repo.relabel message tree).commitObject h = some c) :
    c.message = message h ∧ (repo.relabel message tree).treeOf c = some (tree h) := by
  obtain ⟨hm, hh⟩ := commitObject_eq_some hc
  obtain ⟨d, -, rfl⟩ := mem_map.1 hm
  exact ⟨congrArg message hh, congrArg (fun x => some (tree x)) hh⟩

end Repo

end Jamsesh.Git
