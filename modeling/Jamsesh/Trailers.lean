import Jamsesh.Text
/-!
# Trailers — the trailer block of a commit message (`prereceive/trailers.go`)

A message's trailers are the `Key: value` lines of its last paragraph, provided every line of it is a trailer or the folded
continuation of one.  A block that is written one trailer to a line is read line by line (`parseTrailers_written`), and a value
comes back when it starts with something visible (`reread`).
-/
namespace Jamsesh.Trailers

open List Text

structure Trailer where
  key : Text
  value : Text
deriving DecidableEq

/-! ## One line -/

def isKeyStart (c : Char) : Bool := ('A' ≤ c && c ≤ 'Z') || ('a' ≤ c && c ≤ 'z')

def isKeyChar (c : Char) : Bool := isKeyStart c || ('0' ≤ c && c ≤ '9') || c = '_' || c = '-'

-- RE2's \s, which is narrower than unicode.IsSpace
def isReSpace (c : Char) : Bool := c ∈ ['\t', '\n', '\x0c', '\r', ' ']

/-- What follows the colon in `^([A-Za-z][A-Za-z0-9_-]*):\s+(.+)$`. -/
def matchValue (rest : Text) : Option Text :=
  match rest.takeWhile isReSpace, rest.dropWhile isReSpace with
  | [], _ => none
  | _ :: _, c :: tail => some (c :: tail)
  -- nothing but space: the greedy \s+ gives back its last character, if it has two
  | [_], [] => none
  | _ :: w :: ws, [] => some [(w :: ws).getLast (cons_ne_nil w ws)]

/-- `trailerRe.FindStringSubmatch` -/
def matchTrailer (line : Text) : Option Trailer :=
  match line with
  | [] => none
  | c :: rest =>
    if isKeyStart c then
      match rest.dropWhile isKeyChar with
      | ':' :: tail => (matchValue tail).map (fun v => ⟨c :: rest.takeWhile isKeyChar, v⟩)
      | _ => none
    else none

/-! ## The block -/

/-- `out[len(out)-1].value += " " + s` -/
def appendToLast (s : Text) : List Trailer → List Trailer
  | [] => []
  | [t] => [{ t with value := t.value ++ ' ' :: s }]
  | t :: u :: ts => t :: appendToLast s (u :: ts)

def isFolded (line : Text) : Bool := line.head? = some ' ' || line.head? = some '\t'

/-- The loop over the lines of the last paragraph, with `out` so far. -/
def parseBlock : List Trailer → List Text → Option (List Trailer)
  | out, [] => some out
  | out, line :: lines =>
    if line = [] then none
    else if isFolded line ∧ out ≠ [] then parseBlock (appendToLast (trimSpace line) out) lines
    else match matchTrailer line with
      | none => none
      | some t => parseBlock (out ++ [t]) lines

def replaceCRLF : Text → Text
  | [] => []
  | '\r' :: '\n' :: s => '\n' :: replaceCRLF s
  | c :: s => c :: replaceCRLF s

def lastParagraph (lines : List Text) : List Text := (lines.reverse.takeWhile (fun l => trimSpace l ≠ [])).reverse

/-- `parseTrailers`: `none` where the source returns nil. -/
def parseTrailers (message : Text) : Option (List Trailer) :=
  let msg := trimRight (· == '\n') (replaceCRLF message)
  if msg = [] then none
  else
    let lines := split '\n' msg
    let block := lastParagraph lines
    -- one paragraph only: no blank line sets a block apart
    if block.length = lines.length then none
    else if block = [] then none
    else parseBlock [] block

/-- `Trailers(message)[key]`: the first occurrence wins. -/
def lookup (message key : Text) : Option Text :=
  (((parseTrailers message).getD []).find? (fun t => t.key = key)).map (·.value)

/-- `CheckRequiredTrailers`: the required keys that are absent or have a blank value. -/
def checkRequiredTrailers (message : Text) (required : List String) : List String :=
  required.filter (fun key =>
    match lookup message key.toList with
    | none => true
    | some v => trimSpace v = [])

/-! ## A written block is read back -/

def isKey (key : Text) : Bool := key.head?.any isKeyStart && key.tail.all isKeyChar

/-- What is read of a value that was written behind `key: `. -/
def reread (v : Text) : Text := if v.dropWhile isReSpace = [] then v.getLast?.toList else v.dropWhile isReSpace

variable {v key : Text} {lines : List Text} {ts : List Trailer}

theorem matchValue_blank (h : v ≠ []) : matchValue (' ' :: v) = some (reread v) := by
  have hs : isReSpace ' ' = true := by decide
  rw [matchValue, takeWhile_cons_of_pos hs, dropWhile_cons_of_pos hs, reread]
  cases hd : v.dropWhile isReSpace with
  | cons => rfl
  | nil =>
    have ha : v.takeWhile isReSpace = v := takeWhile_eq_self_iff.2 (dropWhile_eq_nil_iff.1 hd)
    cases v with
    | nil => exact absurd rfl h
    | cons =>
      rw [ha, if_pos rfl, List.getLast?_eq_getLast_of_ne_nil h]
      rfl

theorem reread_eq_self_iff (h : v ≠ []) : reread v = v ↔ v.tail = [] ∨ ∀ c, v.head? = some c → isReSpace c = false := by
  cases v with
  | nil => exact absurd rfl h
  | cons c cs =>
    cases hc : isReSpace c with
    | false => simp [reread, hc]
    | true =>
      have hd : (c :: cs).dropWhile isReSpace = cs.dropWhile isReSpace := dropWhile_cons_of_pos hc
      have hlen := (dropWhile_suffix (l := cs) isReSpace).length_le
      simp only [reread, hd, List.head?_cons, Option.some.injEq, forall_eq', hc, Bool.true_eq_false, or_false]
      constructor
      · intro heq
        have hl := congrArg List.length heq
        split at hl
        · rw [List.getLast?_eq_getLast_of_ne_nil (cons_ne_nil c cs)] at hl
          exact length_eq_zero_iff.1 (Nat.succ.inj hl.symm)
        · rw [length_cons] at hl
          omega
      · rintro rfl
        rfl

theorem matchTrailer_key (h : isKey key = true) (hv : v ≠ []) :
    matchTrailer (key ++ ':' :: ' ' :: v) = some ⟨key, reread v⟩ := by
  obtain ⟨c, cs, rfl⟩ : ∃ c cs, key = c :: cs := exists_cons_of_ne_nil (by rintro rfl; cases h)
  simp only [isKey, List.head?_cons, Option.any_some, tail_cons, Bool.and_eq_true, all_eq_true] at h
  obtain ⟨hc, hcs⟩ := h
  have hcolon : isKeyChar ':' = false := by decide
  have hd : (cs ++ ':' :: ' ' :: v).dropWhile isKeyChar = ':' :: ' ' :: v := by
    rw [dropWhile_append_of_pos hcs, dropWhile_cons, hcolon]
    rfl
  have ht : (cs ++ ':' :: ' ' :: v).takeWhile isKeyChar = cs := by
    rw [takeWhile_append_of_pos hcs, takeWhile_cons, hcolon]
    simp
  rw [cons_append, matchTrailer, if_pos hc, hd]
  simp only [matchValue_blank hv, ht, Option.map_some]

theorem not_mem_of_isKey (h : isKey key = true) {c : Char} (hc : isKeyChar c = false) : c ∉ key := by
  intro hin
  cases key with
  | nil => cases hin
  | cons =>
    simp only [isKey, List.head?_cons, Option.any_some, Bool.and_eq_true, all_eq_true] at h
    rcases mem_cons.1 hin with rfl | hin
    · simp [isKeyChar, h.1] at hc
    · simp [h.2 c hin] at hc

theorem isSpace_of_keyStart {c : Char} (h : isKeyStart c = true) : isSpace c = false := by
  simp only [isKeyStart, Bool.or_eq_true, Bool.and_eq_true, decide_eq_true_eq] at h
  have ht : (65 ≤ c.toNat ∧ c.toNat ≤ 90) ∨ (97 ≤ c.toNat ∧ c.toNat ≤ 122) := h
  simp only [isSpace, mem_cons, not_mem_nil, or_false, Bool.or_eq_false_iff, decide_eq_false_iff_not, Bool.and_eq_false_iff]
  omega

theorem matchTrailer_head {line : Text} {t : Trailer} (h : matchTrailer line = some t) :
    ∃ c cs, line = c :: cs ∧ isSpace c = false := by
  unfold matchTrailer at h
  split at h
  · cases h
  split at h
  · rename_i hc
    exact ⟨_, _, rfl, isSpace_of_keyStart hc⟩
  · cases h

theorem parseBlock_lines (h : List.Forall₂ (fun line t => matchTrailer line = some t) lines ts) :
    ∀ out, parseBlock out lines = some (out ++ ts) := by
  induction h with
  | nil => simp [parseBlock]
  | @cons _ t _ _ hl _ ih =>
    intro out
    obtain ⟨c, cs, rfl, hc⟩ := matchTrailer_head hl
    have hf : isFolded (c :: cs) = false := by
      have hsp : c ≠ ' ' := by rintro rfl; exact absurd hc (by decide)
      have ht : c ≠ '\t' := by rintro rfl; exact absurd hc (by decide)
      simp [isFolded, hsp, ht]
    rw [parseBlock, if_neg (cons_ne_nil c cs), if_neg (by simp [hf]), hl]
    simpa using ih (out ++ [t])

theorem replaceCRLF_of_not_mem : ∀ {s : Text}, '\r' ∉ s → replaceCRLF s = s
  | [], _ => rfl
  | c :: s, h => by
    obtain ⟨hc, hs⟩ := not_or.1 (mem_cons.not.1 h)
    rw [replaceCRLF, replaceCRLF_of_not_mem hs]
    rintro _ rfl
    exact absurd rfl hc

theorem mem_intercalate {x c : Char} : ∀ {lines : List Text}, c ∈ [x].intercalate lines → c = x ∨ ∃ line ∈ lines, c ∈ line
  | [], h => by simp at h
  | [line], h => .inr ⟨line, mem_cons_self, by simpa using h⟩
  | line :: line' :: lines, h => by
    rw [intercalate_cons_cons, append_assoc, mem_append, singleton_append, mem_cons] at h
    rcases h with h | h | h
    · exact .inr ⟨line, mem_cons_self, h⟩
    · exact .inl h
    · exact (mem_intercalate h).imp_right fun ⟨l, hl, hc⟩ => ⟨l, mem_cons_of_mem _ hl, hc⟩

theorem intercalate_eq_concat {x : Char} : ∀ {lines : List Text}, lines ≠ [] → (∀ line ∈ lines, line ≠ [] ∧ x ∉ line) →
    ∃ init c, [x].intercalate lines = init ++ [c] ∧ c ≠ x
  | [], h, _ => absurd rfl h
  | [line], _, h => by
    obtain ⟨hne, hx⟩ := h line mem_cons_self
    obtain ⟨init, c, rfl⟩ := (eq_nil_or_concat' line).resolve_left hne
    exact ⟨init, c, by simp, fun hc => hx (by simp [hc])⟩
  | line :: line' :: lines, _, h => by
    obtain ⟨init, c, hi, hc⟩ := intercalate_eq_concat (cons_ne_nil line' lines) (forall_mem_cons.1 h).2
    exact ⟨line ++ [x] ++ init, c, by rw [intercalate_cons_cons, hi, append_assoc _ init], hc⟩

theorem matchTrailer_heads (h : List.Forall₂ (fun line t => matchTrailer line = some t) lines ts) :
    ∀ line ∈ lines, ∃ c cs, line = c :: cs ∧ isSpace c = false := by
  induction h with
  | nil => simp
  | cons hl _ ih => exact forall_mem_cons.2 ⟨matchTrailer_head hl, ih⟩

theorem lastParagraph_written {first : Text} (h : ∀ line ∈ lines, trimSpace line ≠ []) :
    lastParagraph (first :: [] :: lines) = lines := by
  have hv : ∀ line ∈ lines.reverse, decide (trimSpace line ≠ []) = true := fun line hl =>
    decide_eq_true (h line (mem_reverse.1 hl))
  rw [lastParagraph, reverse_cons, reverse_cons, append_assoc, takeWhile_append_of_pos hv]
  simp [trimSpace]

/-- **A block that is written one trailer to a line is read line by line.** -/
theorem parseTrailers_written {first : Text} (hne : lines ≠ [])
    (h : List.Forall₂ (fun line t => matchTrailer line = some t) lines ts)
    (hplain : ∀ line ∈ first :: lines, '\n' ∉ line ∧ '\r' ∉ line) :
    parseTrailers (first ++ "\n\n".toList ++ ['\n'].intercalate lines ++ ['\n']) = some ts := by
  have hh := matchTrailer_heads h
  obtain ⟨init, c, hi, hc⟩ := intercalate_eq_concat hne fun line hl => by
    obtain ⟨c, _, rfl, -⟩ := hh line hl
    exact ⟨cons_ne_nil _ _, (hplain _ (mem_cons_of_mem _ hl)).1⟩
  have hm : first ++ "\n\n".toList ++ ['\n'].intercalate lines = ['\n'].intercalate (first :: [] :: lines) := by
    obtain ⟨-, -, rfl⟩ := exists_cons_of_ne_nil hne
    rw [intercalate_cons_cons, intercalate_cons_cons]
    simp
  have hlines : ∀ line ∈ first :: [] :: lines, '\n' ∉ line ∧ '\r' ∉ line := by
    simp only [forall_mem_cons] at hplain ⊢
    exact ⟨hplain.1, by simp, hplain.2⟩
  have hcr : '\r' ∉ ['\n'].intercalate (first :: [] :: lines) ++ ['\n'] := by
    simp only [mem_append, not_or]
    refine ⟨fun hin => ?_, by decide⟩
    rcases mem_intercalate hin with heq | ⟨line, hl, hcr⟩
    · exact absurd heq (by decide)
    · exact (hlines line hl).2 hcr
  have he : ['\n'].intercalate (first :: [] :: lines) = (first ++ "\n\n".toList ++ init) ++ [c] := by
    rw [← hm, hi, append_assoc _ init]
  have ht : trimRight (· == '\n') (['\n'].intercalate (first :: [] :: lines) ++ ['\n']) =
      ['\n'].intercalate (first :: [] :: lines) := by
    rw [trimRight, rdropWhile_concat_pos _ _ _ (by decide), he, rdropWhile_concat_neg _ _ _ (by simpa using hc)]
  have hs : split '\n' (['\n'].intercalate (first :: [] :: lines)) = first :: [] :: lines :=
    splitOn_intercalate '\n' (fun line hl => (hlines line hl).1) (cons_ne_nil _ _)
  have hb : lastParagraph (first :: [] :: lines) = lines := lastParagraph_written fun line hl => by
    obtain ⟨c, cs, rfl, hc⟩ := hh line hl
    exact trimSpace_cons_ne_nil hc cs
  rw [hm, parseTrailers, replaceCRLF_of_not_mem hcr, ht]
  simp only [hs, hb, hne, parseBlock_lines h]
  rw [if_neg (by simp), if_neg (by simp only [length_cons]; omega)]
  rfl

/-! ## What a value is made of -/

theorem matchValue_subset {rest : Text} (h : matchValue rest = some v) : v ⊆ rest := by
  unfold matchValue at h
  split at h
  · cases h
  · rename_i heq
    cases h
    exact heq ▸ (dropWhile_suffix isReSpace).subset
  · cases h
  rename_i heq _
  cases h
  intro c hc
  rw [mem_singleton.1 hc]
  refine (List.takeWhile_prefix isReSpace).subset (heq ▸ mem_cons_of_mem _ (getLast_mem _))

theorem matchTrailer_subset {line : Text} {t : Trailer} (h : matchTrailer line = some t) : t.value ⊆ line := by
  unfold matchTrailer at h
  split at h
  · cases h
  rename_i c _
  split at h
  · split at h
    · rename_i ht
      obtain ⟨v, hv, rfl⟩ := Option.map_eq_some_iff.1 h
      intro d hd
      refine mem_cons_of_mem _ ((dropWhile_suffix isKeyChar).subset ?_)
      rw [ht]
      exact mem_cons_of_mem _ (matchValue_subset hv hd)
    · cases h
  · cases h

theorem appendToLast_values {P : Char → Prop} (hP : P ' ') {s : Text} (hs : ∀ c ∈ s, P c) : ∀ {out : List Trailer},
    (∀ t ∈ out, ∀ c ∈ t.value, P c) → ∀ t ∈ appendToLast s out, ∀ c ∈ t.value, P c
  | [], h => h
  | [t], h => by
    intro u hu c hc
    cases mem_singleton.1 hu
    rw [mem_append, mem_cons] at hc
    rcases hc with hc | rfl | hc
    · exact h t mem_cons_self c hc
    · exact hP
    · exact hs c hc
  | t :: u :: ts, h => by
    obtain ⟨ht, hts⟩ := forall_mem_cons.1 h
    exact forall_mem_cons.2 ⟨ht, appendToLast_values hP hs hts⟩

theorem parseBlock_values {P : Char → Prop} (hP : P ' ') : ∀ {lines : List Text} {out ts : List Trailer},
    (∀ t ∈ out, ∀ c ∈ t.value, P c) → (∀ line ∈ lines, ∀ c ∈ line, P c) → parseBlock out lines = some ts →
      ∀ t ∈ ts, ∀ c ∈ t.value, P c
  | [], out, ts, ho, _, h => by
    cases h
    exact ho
  | line :: lines, out, ts, ho, hlines, h => by
    obtain ⟨hl, hr⟩ := forall_mem_cons.1 hlines
    rw [parseBlock] at h
    split at h
    · cases h
    split at h
    · refine parseBlock_values hP (appendToLast_values hP (fun c hc => hl c ?_) ho) hr h
      exact trimSpace_subset _ hc
    split at h
    · cases h
    rename_i ht
    refine parseBlock_values hP (fun u hu => ?_) hr h
    rcases mem_append.1 hu with hu | hu
    · exact ho u hu
    · cases mem_singleton.1 hu
      exact fun c hc => hl c (matchTrailer_subset ht hc)

/-- The values of a message without carriage returns are parts of its lines. -/
theorem lookup_plain {message : Text} (hcr : '\r' ∉ message) (h : lookup message key = some v) : '\n' ∉ v ∧ '\r' ∉ v := by
  obtain ⟨t, ht, rfl⟩ := Option.map_eq_some_iff.1 h
  have hm := mem_of_find?_eq_some ht
  cases hts : parseTrailers message with
  | none => simp [hts] at hm
  | some =>
    rw [hts, Option.getD_some] at hm
    unfold parseTrailers at hts
    simp only at hts
    split at hts
    · cases hts
    split at hts
    · cases hts
    split at hts
    · cases hts
    have hv := parseBlock_values (P := fun c => c ≠ '\n' ∧ c ≠ '\r') (by decide) (by simp) (fun _ hl c hc => ?_) hts
      t hm
    · exact ⟨fun hin => (hv _ hin).1 rfl, fun hin => (hv _ hin).2 rfl⟩
    · simp only [lastParagraph, mem_reverse] at hl
      obtain ⟨hn, hin⟩ := mem_of_mem_split (mem_reverse.1 ((List.takeWhile_prefix _).subset hl)) hc
      rw [replaceCRLF_of_not_mem hcr] at hin
      exact ⟨hn, fun he => hcr (he ▸ (List.rdropWhile_prefix _ _).subset hin)⟩

example : checkRequiredTrailers "fix\n\nJam-Session: s\nJam-Turn: 1\nJam-Author: a@b\n".toList
    ["Jam-Session", "Jam-Turn", "Jam-Author"] = [] := by decide

end Jamsesh.Trailers
