import Mathlib.Data.List.DropRight
import Mathlib.Tactic.Ring
/-!
# Text — byte and rune strings, as Go's `strings` package reads them

A text that is looked into is a list of characters.  Where the source works on bytes (file contents, diff output) a
character stands for one byte; where it works on runes, for one rune.
-/
namespace Jamsesh

abbrev Text := List Char

def hexDigit (c : Char) : Option Nat :=
  if '0' ≤ c ∧ c ≤ '9' then some (c.toNat - '0'.toNat)
  else if 'a' ≤ c ∧ c ≤ 'f' then some (c.toNat - 'a'.toNat + 10)
  else if 'A' ≤ c ∧ c ≤ 'F' then some (c.toNat - 'A'.toNat + 10)
  else none

def hexChar (n : Nat) : Char := if n < 10 then Char.ofNat ('0'.toNat + n) else Char.ofNat ('a'.toNat + (n - 10))

theorem hexDigit_hexChar {n : Nat} (h : n < 16) : hexDigit (hexChar n) = some n := by
  have ha : ∀ k : Fin 16, hexDigit (hexChar k.val) = some k.val := by decide
  exact ha ⟨n, h⟩

def lowDigits (n : Nat) : Text := [hexChar (n / 4096 % 16), hexChar (n / 256 % 16), hexChar (n / 16 % 16), hexChar (n % 16)]

namespace Text

open List

/-- `strings.HasPrefix` -/
def hasPrefix (s p : Text) : Bool := p.isPrefixOf s

/-- `strings.HasSuffix` -/
def hasSuffix (s p : Text) : Bool := p.isSuffixOf s

/-- `strings.Index`, with `none` for -1: the first position at which `sub` occurs. -/
def index : Text → Text → Option Nat
  | [], sub => if sub.isPrefixOf [] then some 0 else none
  | c :: s, sub => if sub.isPrefixOf (c :: s) then some 0 else (index s sub).map (· + 1)

/-- `strings.Contains` -/
def contains (s sub : Text) : Bool := (index s sub).isSome

/-- `strings.SplitN` at a one-character separator: at most `n + 1` parts, the last one unsplit. -/
def splitAtMost (sep : Char) : Nat → Text → List Text
  | 0, s => [s]
  | n + 1, s =>
    match s.dropWhile (· != sep) with
    | [] => [s]
    | _ :: rest => s.takeWhile (· != sep) :: splitAtMost sep n rest

/-- `strings.Split` at a one-character separator. -/
def split (sep : Char) (s : Text) : List Text := s.splitOn sep

/-- `unicode.IsSpace` -/
def isSpace (c : Char) : Bool :=
  c.toNat ∈ [0x09, 0x0a, 0x0b, 0x0c, 0x0d, 0x20, 0x85, 0xa0, 0x1680, 0x2028, 0x2029, 0x202f, 0x205f, 0x3000] ||
    (0x2000 ≤ c.toNat && c.toNat ≤ 0x200a)

/-- `strings.TrimRight` with a cutset. -/
def trimRight (cut : Char → Bool) (s : Text) : Text := s.rdropWhile cut

def isBlank (c : Char) : Bool := c = ' ' || c = '\t'

/-- `strings.TrimSpace` -/
def trimSpace (s : Text) : Text := (s.dropWhile isSpace).rdropWhile isSpace

/-- `strings.TrimSuffix` -/
def trimSuffix (s p : Text) : Text := if hasSuffix s p then s.take (s.length - p.length) else s

def beforeNewline (s : Text) : Text := s.takeWhile (· != '\n')

@[simp] theorem hasPrefix_iff {s p : Text} : hasPrefix s p = true ↔ p <+: s := by
  simp [hasPrefix]

@[simp] theorem hasPrefix_append (p s : Text) : hasPrefix (p ++ s) p = true := by simp

theorem index_append (sub : Text) (hs : sub ≠ []) : ∀ (s t : Text), (∀ c ∈ s, sub.head? ≠ some c) →
    index (s ++ (sub ++ t)) sub = some s.length
  | [], t, _ => by
    cases sub with
    | nil => exact absurd rfl hs
    | cons => simp [index]
  | c :: s, t, h => by
    have hne : ¬ sub.isPrefixOf (c :: (s ++ (sub ++ t))) = true := by
      cases sub with
      | nil => exact absurd rfl hs
      | cons a =>
        have hac : a ≠ c := by simpa using h c mem_cons_self
        simp [hac]
    rw [cons_append, index, if_neg hne, index_append sub hs s t (fun d hd => h d (mem_cons_of_mem c hd))]
    rfl

theorem index_eq_none {c : Char} : ∀ {s : Text}, c ∉ s → index s [c] = none
  | [], _ => rfl
  | d :: s, h => by
    rw [mem_cons, not_or] at h
    rw [index, if_neg (by simp [h.1]), index_eq_none h.2]
    rfl

theorem contains_iff {sub : Text} : ∀ {s : Text}, contains s sub = true ↔ sub <:+: s
  | [] => by
    rw [contains, index]
    cases sub <;> simp
  | c :: s => by
    rw [contains, index, infix_cons_iff, ← contains_iff, contains]
    by_cases h : sub.isPrefixOf (c :: s) = true
    · simp [ isPrefixOf_iff_prefix.1 h]
    · have hpre : ¬ sub <+: c :: s := fun hp => h (List.isPrefixOf_iff_prefix.2 hp)
      simp [hpre]

theorem trimSuffix_concat (s : Text) (c d : Char) : trimSuffix (s ++ [d]) [c] = if d = c then s else s ++ [d] := by
  have hsuf : hasSuffix (s ++ [d]) [c] = true ↔ d = c := by
    rw [hasSuffix, isSuffixOf_iff_suffix]
    constructor
    · rintro ⟨t, ht⟩
      exact (List.cons.inj (append_inj' ht rfl).2).1.symm
    · rintro rfl
      exact suffix_append s [d]
  unfold trimSuffix
  by_cases h : d = c
  · rw [if_pos (hsuf.2 h), if_pos h]
    simp
  · rw [if_neg fun hs => h (hsuf.1 hs), if_neg h]

theorem trimSuffix_append (s : Text) {t : Text} (ht : t ≠ []) (c : Char) :
    trimSuffix (s ++ t) [c] = s ++ trimSuffix t [c] := by
  obtain ⟨_, d, rfl⟩ := (eq_nil_or_concat' t).resolve_left ht
  rw [← append_assoc, trimSuffix_concat, trimSuffix_concat]
  split
  · rfl
  · rw [append_assoc]

theorem trimSuffix_of_not_mem {s : Text} {c : Char} (h : c ∉ s) : trimSuffix s [c] = s := by
  rcases eq_nil_or_concat' s with rfl | ⟨_, d, rfl⟩
  · rfl
  · rw [trimSuffix_concat, if_neg]
    rintro rfl
    exact h (by simp)

theorem splitAtMost_append {sep : Char} {s : Text} (h : sep ∉ s) (n : Nat) (t : Text) :
    splitAtMost sep (n + 1) (s ++ sep :: t) = s :: splitAtMost sep n t := by
  have hp : ∀ c ∈ s, (c != sep) = true := fun c hc => by
    rw [bne_iff_ne]
    exact fun he => h (he ▸ hc)
  have hd : (s ++ sep :: t).dropWhile (· != sep) = sep :: t := by
    rw [dropWhile_append_of_pos hp, dropWhile_cons_of_neg (by simp)]
  have ht : (s ++ sep :: t).takeWhile (· != sep) = s := by
    rw [takeWhile_append_of_pos hp, takeWhile_cons_of_neg (by simp), append_nil]
  rw [splitAtMost, hd, ht]

theorem splitAtMost_eq_cons {sep : Char} {n : Nat} {s a : Text} {parts : List Text}
    (h : splitAtMost sep (n + 1) s = a :: parts) :
    sep ∉ a ∧ ((parts = [] ∧ s = a) ∨ ∃ t, s = a ++ sep :: t ∧ parts = splitAtMost sep n t) := by
  by_cases hs : sep ∈ s
  · obtain ⟨_, back, rfl, hf⟩ := eq_append_cons_of_mem hs
    rw [splitAtMost_append hf] at h
    obtain ⟨rfl, rfl⟩ := List.cons.inj h
    exact ⟨hf, .inr ⟨back, rfl, rfl⟩⟩
  · have hd : s.dropWhile (· != sep) = [] := by
      rw [dropWhile_eq_nil_iff]
      intro c hc
      rw [bne_iff_ne]
      exact fun he => hs (he ▸ hc)
    rw [splitAtMost, hd] at h
    obtain ⟨rfl, rfl⟩ := List.cons.inj h
    exact ⟨hs, .inl ⟨rfl, rfl⟩⟩

theorem split_of_not_mem {sep : Char} {s : Text} (h : sep ∉ s) : split sep s = [s] := splitOn_eq_singleton h

theorem split_append_cons (sep : Char) (s t : Text) : split sep (s ++ sep :: t) = split sep s ++ split sep t :=
  splitOn_append_cons_self s t

theorem mem_of_mem_split {sep d : Char} : ∀ {s l : Text}, l ∈ split sep s → d ∈ l → d ≠ sep ∧ d ∈ s
  | [], l, h, hd => by simp_all [split]
  | c :: s, l, h, hd => by
    rw [split, splitOn_cons_eq_if_modifyHead] at h
    split at h
    · rcases mem_cons.1 h with rfl | h
      · cases hd
      · exact (mem_of_mem_split h hd).imp_right (mem_cons_of_mem c)
    rename_i hc
    cases hs : List.splitOn sep s with
    | nil => exact absurd hs (splitOn_ne_nil sep s)
    | cons x rest =>
      rw [hs, modifyHead_cons] at h
      have hm : ∀ y ∈ x :: rest, d ∈ y → d ≠ sep ∧ d ∈ c :: s := fun y hy hdy =>
        (mem_of_mem_split (by rw [split, hs]; exact hy) hdy).imp_right (mem_cons_of_mem c)
      rcases mem_cons.1 h with rfl | h
      · rcases mem_cons.1 hd with rfl | hd
        · exact ⟨fun hsep => hc (by simp [hsep]), mem_cons_self⟩
        · exact hm x mem_cons_self hd
      · exact hm l (mem_cons_of_mem x h) hd

theorem not_mem_of_mem_split {sep : Char} {s l : Text} (h : l ∈ split sep s) : sep ∉ l :=
  fun hin => (mem_of_mem_split h hin).1 rfl

theorem trimSpace_subset (s : Text) : trimSpace s ⊆ s :=
  List.Subset.trans (List.rdropWhile_prefix _ _).subset (dropWhile_suffix _).subset

theorem trimSpace_cons_ne_nil {c : Char} (h : isSpace c = false) (s : Text) : trimSpace (c :: s) ≠ [] := by
  rw [trimSpace, dropWhile_cons_of_neg (by simp [h]), ne_eq, rdropWhile_eq_nil_iff]
  exact fun ha => absurd (ha c mem_cons_self) (by simp [h])

theorem flatMap_newline : ∀ (ls : List Text), ls ≠ [] → ls.flatMap (· ++ ['\n']) = ['\n'].intercalate ls ++ ['\n']
  | [], h => absurd rfl h
  | [l], _ => by simp
  | l :: m :: ls, _ => by
    rw [flatMap_cons, flatMap_newline (m :: ls) (by simp), intercalate_cons_cons]
    simp

theorem split_eq_concat (sep : Char) (s : Text) : ∃ init x, split sep s = init ++ [x] :=
  (eq_nil_or_concat' _).resolve_left (splitOn_ne_nil sep s)

theorem trimSuffix_subset (s p : Text) : trimSuffix s p ⊆ s := by
  unfold trimSuffix
  split
  · exact take_subset _ s
  · exact List.Subset.refl s

end Text

end Jamsesh
