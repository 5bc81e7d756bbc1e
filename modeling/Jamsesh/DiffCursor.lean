import Jamsesh.Heuristics
import Jamsesh.UnifiedDiff
/-!
# DiffCursor — the parser of a unified diff as a cursor over the base

`parseUnifiedDiffAddOnly` tells lines apart by how they begin: a deleted line with `--` and an added one with `++` look like
header lines and are skipped.  Otherwise it is a cursor over the base and a list of lines added at it (`Tracks`,
`parseLoop_spec`); a deletion that is taken for one ends the parse (`parseLoop_deletion`).
-/
namespace Jamsesh.Automerger

open List Text UnifiedDiff

/-! ## Scanned lines -/

theorem dropCR_cons {c : Char} {t : Text} (h : t = [] → c ≠ '\r') : dropCR (c :: t) = c :: dropCR t := by
  cases t with
  | nil => exact (trimSuffix_concat [] '\r' c).trans (if_neg (h rfl))
  | cons d t => exact trimSuffix_append [c] (cons_ne_nil d t) '\r'

theorem rawLines_lines : ∀ (ls : List Text), (∀ l ∈ ls, '\n' ∉ l) → rawLines (ls.flatMap (fun l => l ++ ['\n'])) = ls := by
  have hs : ∀ (ls : List Text), (∀ l ∈ ls, '\n' ∉ l) →
      split '\n' (ls.flatMap (fun l => l ++ ['\n'])) = ls ++ [[]] := by
    intro ls
    induction ls with
    | nil => intro _; rfl
    | cons l _ ih =>
      intro h
      have ht := ih (fun l' hl' => h l' (mem_cons_of_mem l hl'))
      unfold split at ht ⊢
      rw [flatMap_cons, append_assoc, singleton_append,
        splitOn_append_cons_self_of_not_mem (h l mem_cons_self), ht]
      rfl
  intro ls h
  unfold rawLines
  rw [hs ls h, reverse_append]
  simp

/-! ## Lines of the two files -/

/-- A line as the heuristics see it: a carriage return before the newline is dropped. -/
def lineText (l : Line) : Text := if l.ended then dropCR l.text else l.text

theorem replaceCRLF_cons {c : Char} {s : Text} (h : c = '\r' → s.head? ≠ some '\n') :
    Trailers.replaceCRLF (c :: s) = c :: Trailers.replaceCRLF s := by
  rw [Trailers.replaceCRLF]
  rintro _ rfl rfl
  exact h rfl rfl

theorem replaceCRLF_line (rest : Text) : ∀ (t : Text), '\n' ∉ t →
    Trailers.replaceCRLF (t ++ '\n' :: rest) = dropCR t ++ '\n' :: Trailers.replaceCRLF rest
  | [], _ => replaceCRLF_cons fun hc => absurd hc (by decide)
  | c :: t, h => by
    rw [mem_cons, not_or] at h
    by_cases hcr : c = '\r' ∧ t = []
    · obtain ⟨rfl, rfl⟩ := hcr
      rfl
    rw [not_and] at hcr
    rw [cons_append, replaceCRLF_cons, replaceCRLF_line rest t h.2, dropCR_cons fun ht hc => hcr hc ht]
    · rfl
    · intro hc
      obtain ⟨d, t, rfl⟩ := exists_cons_of_ne_nil (hcr hc)
      simp only [cons_append, List.head?_cons, ne_eq, Option.some.injEq]
      rintro rfl
      exact h.2 mem_cons_self

theorem replaceCRLF_last : ∀ (t : Text), '\n' ∉ t → Trailers.replaceCRLF t = t
  | [], _ => rfl
  | c :: t, h => by
    rw [mem_cons, not_or] at h
    rw [replaceCRLF_cons, replaceCRLF_last t h.2]
    rintro -
    cases t with
    | nil => simp
    | cons =>
      simp only [List.head?_cons, ne_eq, Option.some.injEq]
      rintro rfl
      exact h.2 mem_cons_self

theorem normaliseLF_fileText : ∀ (ls : List Line), IsFile ls →
    normaliseLF (fileText ls) = fileText (ls.map (fun l => ⟨lineText l, l.ended⟩))
  | [], _ => rfl
  | l :: ls, h => by
    have ih := normaliseLF_fileText ls h.tail
    unfold normaliseLF fileText at ih ⊢
    rw [flatMap_cons, map_cons, flatMap_cons, ← ih]
    cases he : l.ended with
    | true => simp [Line.bytes, he, lineText, replaceCRLF_line _ l.text (h.no_newline l mem_cons_self)]
    | false =>
      -- a line without a newline is the last one
      cases ls with
      | nil => simp [Line.bytes, he, lineText, replaceCRLF_last l.text (h.no_newline l mem_cons_self), Trailers.replaceCRLF]
      | cons => rw [h.head_ended] at he; cases he

theorem lineText_subset (l : Line) : lineText l ⊆ l.text := by
  unfold lineText
  split
  · exact trimSuffix_subset l.text _
  · exact List.Subset.refl _

theorem isFile_map_lineText {ls : List Line} (h : IsFile ls) : IsFile (ls.map (fun l => ⟨lineText l, l.ended⟩)) where
  no_newline := fun _ hl' => by
    obtain ⟨l, hl, rfl⟩ := mem_map.1 hl'
    exact fun hn => h.no_newline l hl (lineText_subset l hn)
  ended := fun _ hl' => by
    rw [← map_dropLast] at hl'
    obtain ⟨l, hl, rfl⟩ := mem_map.1 hl'
    exact h.ended l hl
  nonempty := fun _ hl' he => by
    obtain ⟨l, hl, rfl⟩ := mem_map.1 hl'
    simp only at he ⊢
    rw [lineText, if_neg (by simp [he])]
    exact h.nonempty l hl he

theorem splitLines_fileText {ls : List Line} (h : IsFile ls) : splitLines (normaliseLF (fileText ls)) = ls.map lineText := by
  rw [normaliseLF_fileText ls h]
  cases ls with
  | nil => rfl
  | cons =>
    have hf := isFile_map_lineText h
    rw [splitLines, if_neg (hf.ne_nil (by simp)), trimSuffix_fileText _ (by simp) hf, split, splitOn_intercalate]
    · simp
    · intro t ht
      rw [mem_map] at ht
      obtain ⟨l', hl', rfl⟩ := ht
      exact hf.no_newline l' hl'
    · simp

/-! ## One line of the diff -/

def shown (l : OutLine) : Text := dropCR l.text

def looksOldName (l : Line) : Bool := hasPrefix l.text "--".toList

def looksNewName (l : Line) : Bool := hasPrefix l.text "++".toList

theorem hasPrefix_dropCR {a b : Char} (hb : b ≠ '\r') (t : Text) :
    hasPrefix (dropCR t) [a, b] = hasPrefix t [a, b] := by
  match t with
  | [] => rfl
  | [c] =>
    by_cases hc : c = '\r'
    · subst hc
      have hcr : dropCR ['\r'] = [] := rfl
      simp [hcr, hasPrefix, List.isPrefixOf]
    · rw [dropCR_cons fun _ => hc]
      rfl
  | c :: d :: t =>
    rw [dropCR_cons fun h => absurd h (by simp)]
    by_cases hd : d = '\r' ∧ t = []
    · obtain ⟨rfl, rfl⟩ := hd
      have hcr : dropCR ['\r'] = [] := rfl
      simp [hcr, hasPrefix, List.isPrefixOf, hb]
    · rw [dropCR_cons fun ht hdc => hd ⟨hdc, ht⟩]
      simp [hasPrefix, List.isPrefixOf]

theorem shown_keep (l : Line) : shown (.op (.keep l)) = ' ' :: dropCR l.text := dropCR_cons fun _ => by decide
theorem shown_del (l : Line) : shown (.op (.del l)) = '-' :: dropCR l.text := dropCR_cons fun _ => by decide
theorem shown_add (l : Line) : shown (.op (.add l)) = '+' :: dropCR l.text := dropCR_cons fun _ => by decide

theorem isPrefixOf_cons (a b : Char) (s t : Text) : List.isPrefixOf (a :: s) (b :: t) = (a == b && s.isPrefixOf t) := rfl

section
variable (st : DiffState)

omit st in
theorem dropCR_sign {c : Char} (hc : c ≠ '\r') (t : Text) : dropCR (c :: c :: c :: t) = c :: c :: c :: dropCR t := by
  rw [dropCR_cons fun _ => hc, dropCR_cons fun _ => hc, dropCR_cons fun _ => hc]

theorem diffStep_oldName (name : Text) : diffStep st (shown (.oldName name)) = .next st := by
  have hs : shown (.oldName name) = '-' :: '-' :: '-' :: dropCR (' ' :: name) := dropCR_sign (by decide) _
  simp [diffStep, hs]

theorem diffStep_newName (name : Text) : diffStep st (shown (.newName name)) = .next st := by
  have hs : shown (.newName name) = '+' :: '+' :: '+' :: dropCR (' ' :: name) := dropCR_sign (by decide) _
  simp [diffStep, hs]

def contextStep (st : DiffState) : DiffState :=
  match st.current with
  | none => st
  | some h =>
    if h.addedLines.length > 0 then ⟨st.hunks ++ [h], some ⟨st.baseLineNo + 1, []⟩, st.baseLineNo + 1⟩
    else { st with baseLineNo := st.baseLineNo + 1, current := some ⟨st.baseLineNo + 1, h.addedLines⟩ }

theorem diffStep_context {c : Char} (t : Text) (hc : c ≠ '-' ∧ c ≠ '+' ∧ c ≠ '@') :
    diffStep st (c :: t) = .next (contextStep st) := by
  have h1 : ∀ p : Text, p.head? = some '-' ∨ p.head? = some '+' ∨ p.head? = some '@' → hasPrefix (c :: t) p = false := by
    intro p hp
    cases p with
    | nil => simp at hp
    | cons =>
      rw [hasPrefix, isPrefixOf_cons]
      simp only [List.head?_cons, Option.some.injEq] at hp
      rcases hp with rfl | rfl | rfl
      · simp [Ne.symm hc.1]
      · simp [Ne.symm hc.2.1]
      · simp [Ne.symm hc.2.2]
  unfold diffStep contextStep
  rw [h1 "---".toList (by decide), h1 "+++".toList (by decide), h1 "@@ ".toList (by decide), h1 "-".toList (by decide),
    h1 "+".toList (by decide)]
  cases st.current with
  | none => rfl
  | some =>
    simp only [Bool.false_eq_true, or_self, if_false]
    split
    · rfl
    · rfl

theorem diffStep_keep (l : Line) : diffStep st (shown (.op (.keep l))) = .next (contextStep st) := by
  rw [shown_keep]
  exact diffStep_context st _ (by decide)

theorem diffStep_noNewline : diffStep st (shown .noNewline) = .next (contextStep st) :=
  diffStep_context st _ (by decide)

theorem diffStep_del (l : Line) :
    diffStep st (shown (.op (.del l))) = if looksOldName l then .next st else .notPureAdd := by
  have h3 : hasPrefix ('-' :: dropCR l.text) "---".toList = looksOldName l :=
    hasPrefix_dropCR (by decide) l.text
  rw [shown_del, diffStep, h3]
  cases looksOldName l <;> rfl

def addStep (st : DiffState) (content : Text) : DiffState :=
  match st.current with
  | none => st
  | some h => { st with current := some ⟨st.baseLineNo, h.addedLines ++ [content]⟩ }

theorem diffStep_add (l : Line) :
    diffStep st (shown (.op (.add l))) = .next (if looksNewName l then st else addStep st (dropCR l.text)) := by
  have h3 : hasPrefix ('+' :: dropCR l.text) "+++".toList = looksNewName l :=
    hasPrefix_dropCR (by decide) l.text
  rw [shown_add, diffStep, h3]
  unfold addStep
  cases looksNewName l with
  | true => rfl
  | false => cases st.current <;> rfl

end

/-! ## Hunk headers -/

theorem isDigit_of_mem_toDigits {n : Nat} {c : Char} (h : c ∈ Nat.toDigits 10 n) : isDigit c = true := by
  have hd := Nat.isDigit_of_mem_toDigits (by decide) (by decide) h
  simp only [Char.isDigit, Bool.and_eq_true, decide_eq_true_eq] at hd
  simp only [isDigit, Bool.and_eq_true, decide_eq_true_eq]
  exact hd

theorem not_mem_toDigits {n : Nat} {c : Char} (hc : isDigit c = false) : c ∉ Nat.toDigits 10 n := fun h => by
  rw [isDigit_of_mem_toDigits h] at hc
  cases hc

theorem atoi_toDigits {n : Nat} (h : n < 2 ^ 63) : atoi (Nat.toDigits 10 n) = .ok n := by
  have ha : (Nat.toDigits 10 n).all isDigit = true := all_eq_true.2 fun c hc => isDigit_of_mem_toDigits hc
  have hv : digitsValue (Nat.toDigits 10 n) = n := Nat.ofDigitChars_ten_toDigits
  have hsign : splitSign (Nat.toDigits 10 n) = (1, Nat.toDigits 10 n) := by
    unfold splitSign
    split
    · rename_i hs
      exact absurd (hs ▸ mem_cons_self) (not_mem_toDigits rfl)
    · rename_i hs
      exact absurd (hs ▸ mem_cons_self) (not_mem_toDigits rfl)
    · rfl
  unfold atoi
  simp only [hsign, ha, hv, Nat.toDigits_ne_nil, Bool.not_true, Bool.false_eq_true, or_self, if_false, Int.one_mul]
  rw [if_neg]
  omega

theorem Range.not_mem_text {c : Char} (hd : isDigit c = false) (hc : c ≠ ',') (r : Range) : c ∉ r.text := by
  unfold Range.text
  split
  · rw [append_nil]
    exact not_mem_toDigits hd
  · simp only [mem_append, mem_cons, not_or]
    exact ⟨not_mem_toDigits hd, hc, not_mem_toDigits hd⟩

theorem parse_range {r : Range} (hs : r.start < 2 ^ 63) (hl : r.len < 2 ^ 63) :
    (match index r.text ",".toList with
      | some comma => do
        let oldStart ← atoi (r.text.take comma)
        let oldLen ← atoi (r.text.drop (comma + 1))
        return (oldStart, oldLen)
      | none => do
        let oldStart ← atoi r.text
        return (oldStart, 1)) = (.ok (r.start, r.len)) := by
  by_cases h1 : r.len = 1
  · have ht : r.text = Nat.toDigits 10 r.start := by simp [Range.text, h1]
    have hi : index (Nat.toDigits 10 r.start) ",".toList = none := index_eq_none (not_mem_toDigits rfl)
    simp only [ht, hi, atoi_toDigits hs, h1]
    rfl
  · have ht : r.text = Nat.toDigits 10 r.start ++ (",".toList ++ Nat.toDigits 10 r.len) := by simp [Range.text, h1]
    have hi : index r.text ",".toList = some (Nat.toDigits 10 r.start).length := by
      rw [ht]
      refine index_append _ (by decide) _ _ fun c hc hcomma => ?_
      cases hcomma
      exact not_mem_toDigits rfl hc
    have htake : r.text.take (Nat.toDigits 10 r.start).length = Nat.toDigits 10 r.start := by simp [ht]
    have hd : r.text.drop ((Nat.toDigits 10 r.start).length + 1) = Nat.toDigits 10 r.len := by
      rw [ht, ← append_assoc]
      exact drop_left' (by simp)
    simp only [hi, htake, hd, atoi_toDigits hs, atoi_toDigits hl]
    rfl

theorem shown_range (old new : Range) : shown (.range old new) = OutLine.text (.range old new) := by
  have he : trimSuffix " @@".toList ['\r'] = " @@".toList := by decide
  unfold shown dropCR OutLine.text
  rw [trimSuffix_append _ (by simp), trimSuffix_append _ (by simp), trimSuffix_append _ (by simp),
    trimSuffix_append _ (by decide), he]

theorem parseHunkHeader_range {old : Range} (new : Range) (hs : old.start < 2 ^ 63) (hl : old.len < 2 ^ 63) :
    parseHunkHeader (shown (.range old new)) = .ok (old.start, old.len) := by
  have hline : OutLine.text (.range old new)
      = [] ++ ("@@ -".toList ++ (old.text ++ (" +".toList ++ (new.text ++ " @@".toList)))) := rfl
  have ho : index (OutLine.text (.range old new)) "@@ -".toList = some 0 := by
    rw [hline]
    exact index_append _ (by decide) _ _ (by simp)
  have hr : (OutLine.text (.range old new)).drop (0 + 4) = old.text ++ (" +".toList ++ (new.text ++ " @@".toList)) := rfl
  have hstop : index (old.text ++ (" +".toList ++ (new.text ++ " @@".toList))) " +".toList = some old.text.length := by
    refine index_append _ (by decide) _ _ fun c hc hspace => ?_
    cases hspace
    exact Range.not_mem_text rfl (by decide) old hc
  have ht : (old.text ++ (" +".toList ++ (new.text ++ " @@".toList))).take old.text.length = old.text := take_left
  rw [shown_range]
  unfold parseHunkHeader
  simp only [ho, hr, hstop, ht]
  exact parse_range hs hl

theorem diffStep_range (st : DiffState) {old : Range} (new : Range) (hs : old.start < 2 ^ 63) (hl : old.len < 2 ^ 63) :
    diffStep st (shown (.range old new))
      = .next { st with baseLineNo := old.start - 2, current := some ⟨old.start - 2, []⟩ } := by
  rw [diffStep, parseHunkHeader_range new hs hl, shown_range]
  rfl

/-! ## The parser as a cursor -/

structure Cursor where
  at_ : Int
  placed : List AddedLine

def absStep (c : Cursor) : OutLine → Cursor
  | .range old _ => { c with at_ := old.start - 2 }
  | .op (.keep _) => { c with at_ := c.at_ + 1 }
  | .noNewline => { c with at_ := c.at_ + 1 }
  | .op (.add l) => if looksNewName l then c else { c with placed := c.placed ++ [⟨c.at_, dropCR l.text, false⟩] }
  | _ => c

inductive Phase where
  | header | closed | filled
deriving DecidableEq

/-- How a line moves the phase; `none` where no unified diff has that line. -/
def nextPhase : Phase → OutLine → Option Phase
  | .header, .oldName _ => some .header
  | .header, .newName _ => some .header
  | .filled, .range _ _ => none
  | _, .range _ _ => some .closed
  | .header, _ => none
  | _, .op (.keep _) => some .closed
  | _, .noNewline => some .closed
  | _, .op (.add _) => some .filled
  | p, .op (.del _) => some p
  | _, _ => none

structure Tracks (st : DiffState) (p : Phase) (c : Cursor) : Prop where
  header : p = .header → st = ⟨[], none, -1⟩ ∧ c.placed = []
  open_ : p ≠ .header → ∃ h, st.current = some h ∧ st.baseLineNo = c.at_ ∧
    (h.addedLines ≠ [] → h.afterBaseLine = st.baseLineNo) ∧ (p = .closed → h.addedLines = [])
  placed : addedLines false st.flush = c.placed
  filled : ∀ h ∈ st.hunks, h.addedLines ≠ []

theorem tracks_start : Tracks ⟨[], none, -1⟩ .header ⟨0, []⟩ :=
  ⟨fun _ => ⟨rfl, rfl⟩, fun h => absurd rfl h, rfl, fun h hh => by cases hh⟩

theorem flush_some (hunks : List AddHunk) (h : AddHunk) (n : Int) :
    DiffState.flush ⟨hunks, some h, n⟩ = if h.addedLines = [] then hunks else hunks ++ [h] := by
  unfold DiffState.flush
  by_cases hh : h.addedLines = []
  · simp [hh]
  · simp [hh]

theorem addedLines_append (hs hs' : List AddHunk) :
    addedLines false (hs ++ hs') = addedLines false hs ++ addedLines false hs' := flatMap_append

section
variable {st : DiffState} {p : Phase} {c : Cursor} (h : Tracks st p c)

include h

theorem Tracks.flush_filled : ∀ g ∈ st.flush, g.addedLines ≠ [] := by
  intro g hg
  obtain ⟨_, _ | _, n⟩ := st
  · exact h.filled g hg
  rw [flush_some] at hg
  split at hg
  · exact h.filled g hg
  · rcases mem_append.1 hg with hg | hg
    · exact h.filled g hg
    · rwa [mem_singleton.1 hg]

theorem Tracks.context (hp : p ≠ .header) : Tracks (contextStep st) .closed { c with at_ := c.at_ + 1 } := by
  have hf := h.flush_filled
  obtain ⟨hunks, _, n⟩ := st
  obtain ⟨g, rfl, hat, -, -⟩ := h.open_ hp
  -- a context line closes the open hunk
  have hs : contextStep ⟨hunks, some g, n⟩ = ⟨DiffState.flush ⟨hunks, some g, n⟩, some ⟨n + 1, []⟩, n + 1⟩ := by
    by_cases hg : g.addedLines = []
    · simp [contextStep, flush_some, hg]
    · simp [contextStep, flush_some, hg]
  rw [hs]
  refine ⟨fun hc => (by cases hc), fun _ => ⟨_, rfl, congrArg (· + 1) hat, by simp, fun _ => rfl⟩, ?_, hf⟩
  rw [flush_some, if_pos rfl]
  exact h.placed

theorem Tracks.add (hp : p ≠ .header) (content : Text) :
    Tracks (addStep st content) .filled { c with placed := c.placed ++ [⟨c.at_, content, false⟩] } := by
  obtain ⟨hunks, _, n⟩ := st
  obtain ⟨g, rfl, hat, ha, -⟩ := h.open_ hp
  simp only at hat ha
  have hplaced := h.placed
  rw [flush_some] at hplaced
  have hs : addStep ⟨hunks, some g, n⟩ content = ⟨hunks, some ⟨n, g.addedLines ++ [content]⟩, n⟩ := rfl
  rw [hs]
  refine ⟨fun hc => (by cases hc), fun _ => ⟨_, rfl, hat, fun _ => rfl, fun hc => by cases hc⟩, ?_, h.filled⟩
  rw [flush_some, if_neg (by simp), addedLines_append]
  -- the open hunk's lines move to the cursor's place, where they already are
  by_cases hg : g.addedLines = []
  · rw [if_pos hg] at hplaced
    rw [hplaced, hg, hat]
    rfl
  · rw [if_neg hg, addedLines_append] at hplaced
    rw [← hplaced, append_assoc, append_cancel_left_eq]
    simp [addedLines, ha hg, hat]

theorem Tracks.range (hp : p ≠ .filled) (n : Int) :
    Tracks { st with baseLineNo := n, current := some ⟨n, []⟩ } .closed { c with at_ := n } := by
  refine ⟨fun hc => (by cases hc), fun _ => ⟨_, rfl, rfl, by simp, fun _ => rfl⟩, ?_, h.filled⟩
  rw [flush_some, if_pos rfl]
  have hplaced := h.placed
  cases p with
  | header =>
    obtain ⟨rfl, -⟩ := h.header rfl
    exact hplaced
  | closed =>
    obtain ⟨_, _, m⟩ := st
    obtain ⟨g, rfl, -, -, he⟩ := h.open_ (by simp)
    rw [flush_some, if_pos (he rfl)] at hplaced
    exact hplaced
  | filled => exact absurd rfl hp

theorem Tracks.fill (hp : p ≠ .header) : Tracks st .filled c := by
  obtain ⟨g, hg, hat, ha, -⟩ := h.open_ hp
  exact ⟨fun hc => (by cases hc), fun _ => ⟨g, hg, hat, ha, fun hc => by cases hc⟩, h.placed, h.filled⟩

theorem Tracks.flush_nil_iff : st.flush = [] ↔ c.placed = [] := by
  rw [← h.placed]
  constructor
  · intro hf
    rw [hf]
    rfl
  · intro hp
    by_contra hne
    obtain ⟨g, hg⟩ := exists_mem_of_ne_nil _ hne
    exact h.flush_filled g hg (by simpa using flatMap_eq_nil_iff.1 hp g hg)

end

def isDeletion : OutLine → Bool
  | .op (.del l) => !looksOldName l
  | _ => false

/-- The numbers of a header fit an `int`. -/
def Fits : OutLine → Prop
  | .range old _ => old.start < 2 ^ 63 ∧ old.len < 2 ^ 63
  | _ => True

theorem Tracks.step {st : DiffState} {p p' : Phase} {c : Cursor} (h : Tracks st p c) {l : OutLine}
    (hp : nextPhase p l = some p') (hf : Fits l) (hdel : isDeletion l = false) :
    ∃ st', diffStep st (shown l) = .next st' ∧ Tracks st' p' (absStep c l) := by
  cases l with
  | oldName name =>
    refine ⟨st, diffStep_oldName st name, ?_⟩
    cases p <;> cases hp
    exact h
  | newName name =>
    refine ⟨st, diffStep_newName st name, ?_⟩
    cases p <;> cases hp
    exact h
  | range _ new =>
    refine ⟨_, diffStep_range st new hf.1 hf.2, ?_⟩
    cases p <;> cases hp
    all_goals exact h.range (by simp) _
  | noNewline =>
    refine ⟨_, diffStep_noNewline st, ?_⟩
    cases p <;> cases hp
    all_goals exact h.context (by simp)
  | op o =>
    cases o with
    | keep l =>
      refine ⟨_, diffStep_keep st l, ?_⟩
      cases p <;> cases hp
      all_goals exact h.context (by simp)
    | del l =>
      have hl : looksOldName l = true := by simpa [isDeletion] using hdel
      refine ⟨st, by rw [diffStep_del, if_pos hl], ?_⟩
      cases p <;> cases hp
      all_goals exact h
    | add l =>
      refine ⟨_, diffStep_add st l, ?_⟩
      have hopen : p ≠ .header := by rintro rfl; cases hp
      have hfilled : p' = .filled := by cases p <;> cases hp <;> rfl
      subst hfilled
      cases hl : looksNewName l with
      | true =>
        simp only [absStep, hl]
        exact h.fill hopen
      | false =>
        simp only [absStep, hl]
        exact h.add hopen _

theorem parseLoop_spec : ∀ (ls : List OutLine) {st : DiffState} {p p' : Phase} {c : Cursor}, Tracks st p c →
    ls.foldlM nextPhase p = some p' → (∀ l ∈ ls, Fits l) → (∀ l ∈ ls, isDeletion l = false) →
    ∃ st', parseLoop (ls.map shown) st = .ok (some st') ∧ Tracks st' p' (ls.foldl absStep c)
  | [], st, p, p', c, h, hp, _, _ => by
    cases hp
    exact ⟨st, rfl, h⟩
  | l :: ls, st, p, p', c, h, hp, hf, hd => by
    rw [foldlM_cons] at hp
    obtain ⟨q, hq, hp⟩ := Option.bind_eq_some_iff.1 hp
    obtain ⟨_, hs₁, h₁⟩ := h.step hq (hf l mem_cons_self) (hd l mem_cons_self)
    obtain ⟨st', hs', h'⟩ := parseLoop_spec ls h₁ hp (fun x hx => hf x (mem_cons_of_mem l hx))
      (fun x hx => hd x (mem_cons_of_mem l hx))
    refine ⟨st', ?_, h'⟩
    rw [map_cons, parseLoop, hs₁]
    exact hs'

theorem parseLoop_deletion : ∀ (ls : List OutLine) {st : DiffState} {p p' : Phase} {c : Cursor}, Tracks st p c →
    ls.foldlM nextPhase p = some p' → (∀ l ∈ ls, Fits l) → (∃ l ∈ ls, isDeletion l = true) →
    parseLoop (ls.map shown) st = .ok none
  | [], _, _, _, _, _, _, _, hdel => by
    obtain ⟨l, hl, -⟩ := hdel
    cases hl
  | l :: ls, st, p, p', c, h, hp, hf, hdel => by
    rw [map_cons, parseLoop]
    cases hl : isDeletion l with
    | true =>
      cases l with
      | op o =>
        cases o with
        | del d =>
          have hd : looksOldName d = false := by simpa [isDeletion] using hl
          rw [diffStep_del, hd]
          rfl
        | keep | add => cases hl
      | _ => cases hl
    | false =>
      rw [foldlM_cons] at hp
      obtain ⟨q, hq, hp⟩ := Option.bind_eq_some_iff.1 hp
      obtain ⟨_, hs₁, h₁⟩ := h.step hq (hf l mem_cons_self) hl
      obtain ⟨d, hd, hdd⟩ := hdel
      rw [hs₁]
      refine parseLoop_deletion ls h₁ hp (fun x hx => hf x (mem_cons_of_mem l hx)) ⟨d, ?_, hdd⟩
      rcases mem_cons.1 hd with rfl | hd
      · rw [hl] at hdd
        cases hdd
      · exact hd

def takenAddition : OutLine → Option Text
  | .op (.add l) => if looksNewName l then none else some (dropCR l.text)
  | _ => none

theorem placed_content : ∀ (ls : List OutLine) (c : Cursor),
    (ls.foldl absStep c).placed.map (·.content) = c.placed.map (·.content) ++ ls.filterMap takenAddition
  | [], c => by simp
  | l :: ls, c => by
    rw [foldl_cons, placed_content ls, filterMap_cons]
    cases l with
    | op o =>
      cases o with
      | add l =>
        cases hl : looksNewName l with
        | true | false => simp [absStep, hl, takenAddition]
      | _ => rfl
    | _ => rfl

end Jamsesh.Automerger
