import Jamsesh.Text
/-!
# JsonStrings — JSON arrays of strings

The encoder escapes quotes, backslashes, control characters, the characters of HTML and the line separators; the decoder reads
one character at a time.  What is encoded is read back (`decode_encode`).  An escaped surrogate is read as U+FFFD.
-/
namespace Jamsesh.Json

open List

/-! ## Encoding -/

/-- The escape `\u` with four hex digits. -/
def escapeUnicode (n : Nat) : List Char := '\\' :: 'u' :: lowDigits n

def needsUnicode (c : Char) : Bool :=
  c.toNat < 32 || c = '<' || c = '>' || c = '&' || c.toNat = 0x2028 || c.toNat = 0x2029

def shortEscape (c : Char) : Option Char :=
  if c = '"' then some '"'
  else if c = '\\' then some '\\'
  else if c.toNat = 8 then some 'b'
  else if c.toNat = 12 then some 'f'
  else if c = '\n' then some 'n'
  else if c = '\r' then some 'r'
  else if c = '\t' then some 't'
  else none

def escapeChar (c : Char) : List Char :=
  match shortEscape c with
  | some letter => ['\\', letter]
  | none => if needsUnicode c then escapeUnicode c.toNat else [c]

def encodeString (s : String) : List Char := '"' :: (s.toList.flatMap escapeChar ++ ['"'])

def encodeTail : List String → List Char
  | [] => [']']
  | s :: l => ',' :: (encodeString s ++ encodeTail l)

def encode : List String → List Char
  | [] => ['[', ']']
  | s :: l => '[' :: (encodeString s ++ encodeTail l)

/-! ## Decoding -/

inductive Mode where
  | start | first | next | string | escape | unicode (left value : Nat) | after | done
deriving DecidableEq

/-- A reader: the string it is in, last character first, and the strings it has read, last one first. -/
structure Reader where
  mode : Mode
  current : List Char
  out : List String
deriving DecidableEq

def isJsonBlank (c : Char) : Bool := c = ' ' || c = '\t' || c = '\n' || c = '\r'

def unescape (letter : Char) : Option Char :=
  if letter = '"' ∨ letter = '\\' ∨ letter = '/' then some letter
  else if letter = 'b' then some (Char.ofNat 8)
  else if letter = 'f' then some (Char.ofNat 12)
  else if letter = 'n' then some '\n'
  else if letter = 'r' then some '\r'
  else if letter = 't' then some '\t'
  else none

def charOf (n : Nat) : Char := if 0xd800 ≤ n ∧ n < 0xe000 then Char.ofNat 0xfffd else Char.ofNat n

def step (r : Reader) (c : Char) : Option Reader :=
  match r.mode with
  | .start => if isJsonBlank c then some r else if c = '[' then some { r with mode := .first } else none
  | .first =>
    if isJsonBlank c then some r
    else if c = '"' then some { r with mode := .string, current := [] }
    else if c = ']' then some { r with mode := .done }
    else none
  | .next => if isJsonBlank c then some r else if c = '"' then some { r with mode := .string, current := [] } else none
  | .string =>
    if c = '"' then some { r with mode := .after, current := [], out := String.ofList r.current.reverse :: r.out }
    else if c = '\\' then some { r with mode := .escape }
    else if c.toNat < 32 then none
    else some { r with current := c :: r.current }
  | .escape =>
    if c = 'u' then some { r with mode := .unicode 3 0 }
    else (unescape c).map (fun d => { r with mode := .string, current := d :: r.current })
  | .unicode left value =>
    (hexDigit c).map (fun d =>
      match left with
      | 0 => { r with mode := .string, current := charOf (16 * value + d) :: r.current }
      | left + 1 => { r with mode := .unicode left (16 * value + d) })
  | .after =>
    if isJsonBlank c then some r
    else if c = ',' then some { r with mode := .next }
    else if c = ']' then some { r with mode := .done }
    else none
  | .done => if isJsonBlank c then some r else none

def read : Option Reader → List Char → Option Reader
  | r, [] => r
  | none, _ :: _ => none
  | some r, c :: cs => read (step r c) cs

def decode (s : List Char) : Option (List String) :=
  match read (some ⟨.start, [], []⟩) s with
  | some ⟨.done, _, out⟩ => some out.reverse
  | _ => none

/-! ## Round trip -/

theorem read_append : ∀ (r : Option Reader) (s t : List Char), read r (s ++ t) = read (read r s) t
  | none, [], t => rfl
  | some r, [], t => rfl
  | none, c :: s, t => by cases t <;> rfl
  | some r, c :: s, t => read_append (step r c) s t

theorem unescape_shortEscape {c letter : Char} (h : shortEscape c = some letter) :
    unescape letter = some c ∧ letter ≠ 'u' := by
  have hchar : ∀ n, c.toNat = n → c = Char.ofNat n := fun n hn => by rw [← hn, Char.ofNat_toNat]
  unfold shortEscape at h
  split at h
  · rename_i hc; cases h; subst hc; decide
  split at h
  · rename_i hc; cases h; subst hc; decide
  split at h
  · rename_i hc; cases h; rw [hchar _ hc]; decide
  split at h
  · rename_i hc; cases h; rw [hchar _ hc]; decide
  split at h
  · rename_i hc; cases h; subst hc; decide
  split at h
  · rename_i hc; cases h; subst hc; decide
  split at h
  · rename_i hc; cases h; subst hc; decide
  · cases h

theorem read_escapeUnicode {n : Nat} (hn : n < 0xd800) (current : List Char) (out : List String) :
    read (some ⟨.string, current, out⟩) (escapeUnicode n) = some ⟨.string, Char.ofNat n :: current, out⟩ := by
  have hv : 16 * (16 * (16 * (16 * 0 + n / 4096 % 16) + n / 256 % 16) + n / 16 % 16) + n % 16 = n := by omega
  have hc : charOf n = Char.ofNat n := by
    unfold charOf
    rw [if_neg (by omega)]
  have hd : ∀ k, hexDigit (hexChar (k % 16)) = some (k % 16) := fun k => hexDigit_hexChar (Nat.mod_lt _ (by decide))
  show read (some ⟨.unicode 3 0, current, out⟩) (lowDigits n) = _
  simp only [lowDigits, read, step, hd, Option.map_some, hv, hc]

theorem read_escapeChar (c : Char) (current : List Char) (out : List String) :
    read (some ⟨.string, current, out⟩) (escapeChar c) = some ⟨.string, c :: current, out⟩ := by
  unfold escapeChar
  cases hs : shortEscape c with
  | some =>
    obtain ⟨hb, hu⟩ := unescape_shortEscape hs
    simp [read, step, hb, hu]
  | none =>
    dsimp only
    split
    · rename_i hunicode
      have hlt : c.toNat < 0xd800 := by
        unfold needsUnicode at hunicode
        simp only [Bool.or_eq_true, decide_eq_true_eq] at hunicode
        rcases hunicode with ((((h | rfl) | rfl) | rfl) | h) | h
        · omega
        · decide
        · decide
        · decide
        · omega
        · omega
      rw [read_escapeUnicode hlt, Char.ofNat_toNat]
    · rename_i hp
      have hq : c ≠ '"' := by rintro rfl; cases hs
      have hb : c ≠ '\\' := by rintro rfl; cases hs
      have hc : ¬ c.toNat < 32 := by
        intro hlt
        exact hp (by simp [needsUnicode, hlt])
      simp [read, step, hq, hb, hc]

theorem read_escapeChars : ∀ (s current : List Char) (out : List String),
    read (some ⟨.string, current, out⟩) (s.flatMap escapeChar) = some ⟨.string, s.reverse ++ current, out⟩
  | [], _, _ => rfl
  | c :: s, current, out => by
    rw [flatMap_cons, read_append, read_escapeChar, read_escapeChars s, reverse_cons, append_assoc]
    rfl

theorem read_encodeString {r : Reader} (hm : r.mode = .first ∨ r.mode = .next) (s : String) :
    read (some r) (encodeString s) = some ⟨.after, [], s :: r.out⟩ := by
  have ho : step r '"' = some ⟨.string, [], r.out⟩ := by
    obtain ⟨_, _, _⟩ := r
    rcases hm with h | h <;> cases h <;> rfl
  rw [encodeString, read, ho, read_append, read_escapeChars, append_nil]
  show some (Reader.mk .after [] (String.ofList s.toList.reverse.reverse :: r.out)) = _
  rw [reverse_reverse, String.ofList_toList]

theorem read_encodeTail : ∀ (l out : List String),
    read (some ⟨.after, [], out⟩) (encodeTail l) = some ⟨.done, [], l.reverse ++ out⟩
  | [], _ => rfl
  | s :: l, out => by
    show read (some ⟨.next, [], out⟩) (encodeString s ++ encodeTail l) = _
    rw [read_append, read_encodeString (.inr rfl), read_encodeTail l, reverse_cons, append_assoc]
    rfl

theorem decode_encode (l : List String) : decode (encode l) = some l := by
  have hr : read (some ⟨.start, [], []⟩) (encode l) = some ⟨.done, [], l.reverse⟩ := by
    cases l with
    | nil => rfl
    | cons s l =>
      show read (some ⟨.first, [], []⟩) (encodeString s ++ encodeTail l) = _
      rw [read_append, read_encodeString (.inl rfl), read_encodeTail, reverse_cons]
  rw [decode, hr]
  dsimp only
  rw [reverse_reverse]

end Jamsesh.Json
