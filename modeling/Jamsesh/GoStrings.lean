import Jamsesh.Text
/-!
# GoStrings — strings with bytes that are not text

A Go string is a sequence of bytes, read as runes where it is well-formed UTF-8.  `encoding/json` writes a byte that is part of
no rune as U+FFFD, so of a string that goes through JSON comes back its `coerce`.
-/
namespace Jamsesh

inductive GoChar where
  | rune (c : Char)
  | bad (b : Fin 128)
deriving DecidableEq

abbrev GoString := List GoChar

namespace GoString

open List

def ofString (s : String) : GoString := s.toList.map .rune

def coerceChar : GoChar → GoChar
  | .rune c => .rune c
  | .bad _ => .rune '�'

def coerce (s : GoString) : GoString := s.map coerceChar

def Valid (s : GoString) : Prop := coerce s = s

instance (s : GoString) : Decidable (Valid s) := inferInstanceAs (Decidable (coerce s = s))

@[simp] theorem coerce_append (s t : GoString) : coerce (s ++ t) = coerce s ++ coerce t := map_append

@[simp] theorem coerce_ofString (s : String) : coerce (ofString s) = ofString s := by
  simp [coerce, ofString, coerceChar]

@[simp] theorem coerce_coerce (s : GoString) : coerce (coerce s) = coerce s := by
  have hc : coerceChar ∘ coerceChar = coerceChar := by
    funext c
    cases c <;> rfl
  rw [coerce, coerce, map_map, hc]

theorem valid_iff {s : GoString} : Valid s ↔ ∀ c ∈ s, coerceChar c = c := by
  rw [Valid, coerce]
  conv_lhs => rhs; rw [← map_id s]
  exact map_inj_left

theorem Valid.subset {s t : GoString} (h : Valid s) (hs : t ⊆ s) : Valid t := valid_iff.2 fun c hc => valid_iff.1 h c (hs hc)

theorem Valid.append {s t : GoString} (hs : Valid s) (ht : Valid t) : Valid (s ++ t) := by
  have hs' : coerce s = s := hs
  have ht' : coerce t = t := ht
  rw [Valid, coerce_append, hs', ht']

theorem valid_coerce (s : GoString) : Valid (coerce s) := coerce_coerce s

def isSpace : GoChar → Bool
  | .rune c => Text.isSpace c
  | .bad _ => false

def trimSpace (s : GoString) : GoString := (s.dropWhile isSpace).rdropWhile isSpace

theorem trimSpace_subset (s : GoString) : trimSpace s ⊆ s :=
  fun _ hc => (dropWhile_suffix isSpace).subset ((List.rdropWhile_prefix isSpace _).subset hc)

theorem isSpace_of_dropWhile {c : GoChar} {s : GoString} (h : (c :: s).dropWhile isSpace = c :: s) : isSpace c = false := by
  rw [Bool.eq_false_iff]
  intro hc
  rw [dropWhile_cons_of_pos hc] at h
  have hl := (dropWhile_suffix isSpace (l := s)).length_le
  rw [h, length_cons] at hl
  omega

theorem trimSpace_newline (s : GoString) : trimSpace (trimSpace s ++ [.rune '\n']) = trimSpace s := by
  have hn : isSpace (.rune '\n') = true := by decide
  cases ht : trimSpace s with
  | nil => decide
  | cons c cs =>
    obtain ⟨rest, hrest⟩ := rdropWhile_prefix isSpace (s.dropWhile isSpace)
    have hr : (c :: cs).rdropWhile isSpace = c :: cs := by
      rw [← ht, trimSpace, rdropWhile_idempotent]
    have hl : isSpace c = false := by
      have hb : s.dropWhile isSpace = c :: (cs ++ rest) := by rw [← hrest, ← trimSpace, ht, cons_append]
      refine isSpace_of_dropWhile (s := cs ++ rest) ?_
      rw [← hb, dropWhile_idempotent]
    rw [trimSpace, cons_append, dropWhile_cons_of_neg (Bool.eq_false_iff.1 hl), ← cons_append,
      rdropWhile_concat_pos _ _ _ hn, hr]

def hasPrefix (s p : GoString) : Bool := p.isPrefixOf s

def hasSuffix (s p : GoString) : Bool := p.isSuffixOf s

def contains (s p : GoString) : Bool := s.tails.any (p.isPrefixOf ·)

def trimPrefix (s p : GoString) : GoString := if hasPrefix s p then s.drop p.length else s

def trimSuffix (s p : GoString) : GoString := if hasSuffix s p then s.take (s.length - p.length) else s

theorem hasPrefix_iff {s p : GoString} : hasPrefix s p = true ↔ ∃ t, s = p ++ t := by
  rw [hasPrefix, isPrefixOf_iff_prefix]
  exact exists_congr fun _ => eq_comm

theorem hasSuffix_iff {s p : GoString} : hasSuffix s p = true ↔ ∃ t, s = t ++ p := by
  rw [hasSuffix, isSuffixOf_iff_suffix]
  exact exists_congr fun _ => eq_comm

@[simp] theorem trimPrefix_append (p s : GoString) : trimPrefix (p ++ s) p = s := by
  rw [trimPrefix, if_pos (hasPrefix_iff.2 ⟨s, rfl⟩), drop_left]

@[simp] theorem trimSuffix_append (s p : GoString) : trimSuffix (s ++ p) p = s := by
  rw [trimSuffix, if_pos (hasSuffix_iff.2 ⟨s, rfl⟩), length_append, Nat.add_sub_cancel, take_left]

def width : GoChar → Nat
  | .rune c => if c.toNat < 0x80 then 1 else if c.toNat < 0x800 then 2 else if c.toNat < 0x10000 then 3 else 4
  | .bad _ => 1

def bytes (s : GoString) : List (GoChar × Nat) := s.flatMap (fun c => (List.range (width c)).map (c, ·))

def len (s : GoString) : Nat := (bytes s).length

/-- `s[i] == c`, for an ASCII character. -/
def byteIs (s : GoString) (i : Nat) (c : Char) : Bool := (bytes s)[i]? = some (.rune c, 0)

end GoString
end Jamsesh
