import Mathlib.Data.List.AList
import Mathlib.Data.List.Dedup
/-!
# FileTree — a tree of directories and files

Files by their paths, and the directories that were made; a path is also a directory when there is something under it.  The
operations fail as those of a file system do.
-/
namespace Jamsesh

inductive FileErr where
  | notExist | notDir | isDir
deriving DecidableEq

structure FileTree (C D : Type) [DecidableEq C] where
  files : AList (fun _ : List C => D)
  dirs : List (List C)

namespace FileTree

open List

variable {C D : Type} [DecidableEq C]

def file? (t : FileTree C D) (p : List C) : Option D := t.files.lookup p

def isFile (t : FileTree C D) (p : List C) : Bool := (t.file? p).isSome

def isDir (t : FileTree C D) (p : List C) : Bool :=
  p = [] || t.dirs.any (p.isPrefixOf ·) || t.files.keys.any (fun q => p.isPrefixOf q && p ≠ q)

def next? (p q : List C) : Option (C × Bool) :=
  if p.isPrefixOf q then
    match q.drop p.length with
    | [] => none
    | c :: rest => some (c, rest ≠ [])
  else none

def children (t : FileTree C D) (p : List C) : List (C × Bool) :=
  (t.files.keys.filterMap (next? p) ++ t.dirs.filterMap (fun q => (next? p q).map (fun c => (c.1, true)))).dedup

/-! ## Operations -/

def readDir (t : FileTree C D) (p : List C) : Except FileErr (List (C × Bool)) :=
  if t.isDir p then .ok (t.children p) else if t.isFile p then .error .notDir else .error .notExist

def readFile (t : FileTree C D) (p : List C) : Except FileErr D :=
  match t.file? p with
  | some data => .ok data
  | none => if t.isDir p then .error .isDir else .error .notExist

def under (t : FileTree C D) (p : List C) : List (List C) := t.files.keys.filter (p.isPrefixOf ·)

def walk (t : FileTree C D) (p : List C) : Except FileErr (List (List C)) :=
  if t.isDir p || t.isFile p then .ok (t.under p) else .error .notExist

def mkdirAll (t : FileTree C D) (p : List C) : Except FileErr (FileTree C D) :=
  if t.files.keys.any (·.isPrefixOf p) then .error .notDir else .ok { t with dirs := p :: t.dirs }

def blocked (t : FileTree C D) (p : List C) : Option FileErr :=
  if t.isDir p then some .isDir
  else if t.files.keys.any (·.isPrefixOf p.dropLast) then some .notDir
  else if t.isDir p.dropLast then none
  else some .notExist

def writeFile (t : FileTree C D) (p : List C) (data : D) : Except FileErr (FileTree C D) :=
  match t.blocked p with
  | some e => .error e
  | none => .ok { t with files := t.files.insert p data }

def rename (t : FileTree C D) (p q : List C) : Except FileErr (FileTree C D) :=
  match t.file? p with
  | none => .error .notExist
  | some data =>
    match t.blocked q with
    | some e => .error e
    | none => .ok { t with files := (t.files.erase p).insert q data }

def remove (t : FileTree C D) (p : List C) : Except FileErr (FileTree C D) :=
  if t.isFile p then .ok { t with files := t.files.erase p } else .error .notExist

variable {p q : List C} {c : C} {t : FileTree C D}

/-! ## What is where -/

theorem next?_eq_some {more : Bool} :
    next? p q = some (c, more) ↔ ∃ rest, q = p ++ c :: rest ∧ more = decide (rest ≠ []) := by
  unfold next?
  split
  · rename_i hp
    obtain ⟨tail, rfl⟩ := isPrefixOf_iff_prefix.1 hp
    rw [drop_left]
    cases tail with
    | nil => simp
    | cons _ rest =>
      simp only [Option.some.injEq, Prod.mk.injEq, append_cancel_left_eq, List.cons.injEq]
      constructor
      · rintro ⟨rfl, rfl⟩
        exact ⟨rest, ⟨rfl, rfl⟩, rfl⟩
      · rintro ⟨_, ⟨rfl, rfl⟩, rfl⟩
        exact ⟨rfl, rfl⟩
  · rename_i hp
    refine ⟨fun h => (Option.some_ne_none _ h.symm).elim, ?_⟩
    rintro ⟨_, rfl, -⟩
    exact absurd (List.isPrefixOf_iff_prefix.2 (prefix_append p _)) hp

theorem mem_keys_iff : p ∈ t.files.keys ↔ ∃ data, t.file? p = some data := by
  rw [file?, ← Option.isSome_iff_exists, AList.lookup_isSome]
  exact AList.mem_keys

theorem mem_children_of_file {rest : List C} {data : D} (h : t.file? (p ++ c :: rest) = some data) :
    (c, decide (rest ≠ [])) ∈ t.children p := by
  refine mem_dedup.2 (mem_append_left _ (mem_filterMap.2 ⟨_, mem_keys_iff.2 ⟨data, h⟩, ?_⟩))
  exact next?_eq_some.2 ⟨rest, rfl, rfl⟩

theorem isFile_iff : t.isFile p = true ↔ ∃ data, t.file? p = some data :=
  Option.isSome_iff_exists

theorem isDir_iff : t.isDir p = true ↔ p = [] ∨ (∃ q ∈ t.dirs, p <+: q) ∨ ∃ q, t.isFile q ∧ p <+: q ∧ p ≠ q := by
  simp only [isDir, Bool.or_eq_true, decide_eq_true_eq, any_eq_true, Bool.and_eq_true, isPrefixOf_iff_prefix, or_assoc,
    mem_keys_iff, isFile_iff]

theorem mem_under : q ∈ t.under p ↔ p <+: q ∧ t.isFile q := by
  rw [under, mem_filter, mem_keys_iff, isPrefixOf_iff_prefix, isFile_iff, and_comm]

theorem eq_of_walk {paths : List (List C)} (h : t.walk p = .ok paths) : paths = t.under p := by
  unfold walk at h
  split at h <;> cases h
  rfl

theorem mem_of_walk {paths : List (List C)} (h : t.walk p = .ok paths) : q ∈ paths ↔ p <+: q ∧ t.isFile q := by
  rw [eq_of_walk h]
  exact mem_under

theorem walk_error {e : FileErr} (h : t.walk p = .error e) : e = .notExist ∧ t.under p = [] := by
  unfold walk at h
  split at h <;> cases h
  rename_i hn
  refine ⟨rfl, eq_nil_iff_forall_not_mem.2 fun q hq => hn ?_⟩
  obtain ⟨hp, hf⟩ := mem_under.1 hq
  rw [Bool.or_eq_true]
  by_cases hpq : p = q
  · exact .inr (hpq ▸ hf)
  · exact .inl (isDir_iff.2 (.inr (.inr ⟨q, hf, hp, hpq⟩)))

theorem not_isFile_of_not_isDir {rest : List C} (h : t.isDir p = false) : t.isFile (p ++ c :: rest) = false := by
  refine Bool.eq_false_iff.2 fun hf => Bool.eq_false_iff.1 h ?_
  obtain ⟨data, hd⟩ := Option.isSome_iff_exists.1 hf
  have hu : t.files.keys.any (fun q => p.isPrefixOf q && p ≠ q) = true := by
    refine any_eq_true.2 ⟨_, mem_keys_iff.2 ⟨data, hd⟩, ?_⟩
    simp
  rw [isDir, hu, Bool.or_true]

theorem file_of_mem_children (h : (c, false) ∈ t.children p) : ∃ data, t.file? (p ++ [c]) = some data := by
  rcases mem_append.1 (mem_dedup.1 h) with h | h
  · obtain ⟨q, hq, hn⟩ := mem_filterMap.1 h
    obtain ⟨rest, rfl, hr⟩ := next?_eq_some.1 hn
    have hnil : rest = [] := by simpa using hr.symm
    subst hnil
    exact mem_keys_iff.1 hq
  · obtain ⟨q, -, hn⟩ := mem_filterMap.1 h
    obtain ⟨x, -, hx⟩ := Option.map_eq_some_iff.1 hn
    cases hx

theorem isDir_of_mem_children (h : (c, true) ∈ t.children p) : t.isDir (p ++ [c]) = true := by
  rw [isDir_iff]
  rcases mem_append.1 (mem_dedup.1 h) with h | h
  · obtain ⟨q, hq, hn⟩ := mem_filterMap.1 h
    obtain ⟨rest, rfl, hr⟩ := next?_eq_some.1 hn
    refine .inr (.inr ⟨_, isFile_iff.2 (mem_keys_iff.1 hq), ⟨rest, by simp⟩, fun heq => ?_⟩)
    have hnil : rest = [] := by simpa using heq.symm
    simp [hnil] at hr
  · obtain ⟨q, hq, hn⟩ := mem_filterMap.1 h
    obtain ⟨⟨_, _⟩, hx, hc⟩ := Option.map_eq_some_iff.1 hn
    obtain ⟨rest, rfl, -⟩ := next?_eq_some.1 hx
    cases hc
    exact .inr (.inl ⟨_, hq, rest, by simp⟩)

end FileTree
end Jamsesh
