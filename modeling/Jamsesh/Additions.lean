import Jamsesh.Heuristics
/-!
# Additions — two sets of insertions woven into one base

Given hunks that say where each side has inserted what, the result of `isNonOverlappingAddition` is an interleaving of the two
versions: without theirs' lines it is ours, without ours' it is theirs (`additions_interleave`).
-/
namespace Jamsesh.Automerger

open List Text

/-- **The version that hunks make of a base** whose next line has the index `i`. -/
def patched : Int → List Text → List AddHunk → List Text
  | _, [], hunks => hunks.flatMap (·.addedLines)
  | i, line :: lines, hunks => (hunks.filter (·.afterBaseLine = i - 1)).flatMap (·.addedLines) ++
      line :: patched (i + 1) lines (hunks.filter (·.afterBaseLine ≠ i - 1))

/-- **Hunks that are right about a version**: in their order, within the base, and with the lines the version has. -/
structure Correct (base other : Text) (hunks : List AddHunk) : Prop where
  increasing : hunks.Pairwise (fun h h' => h.afterBaseLine < h'.afterBaseLine)
  within : splitLines (normaliseLF base) ≠ [] → ∀ h ∈ hunks, -1 ≤ h.afterBaseLine
  lines : patched 0 (splitLines (normaliseLF base)) hunks = splitLines (normaliseLF other)

/-- A line of the result: one of the base, or an insertion. -/
inductive Piece where
  | kept (line : Text)
  | added (a : AddedLine)

namespace Piece

def text : Piece → Text
  | kept line => line
  | added a => a.content

def added? : Piece → Option AddedLine
  | kept _ => none
  | added a => some a

def without (theirs : Bool) : Piece → Bool
  | kept _ => true
  | added a => a.theirs != theirs

end Piece

/-- **An interleaving of two versions**: each is what is left without the insertions of the other, every insertion is there
once, and none of ours comes behind one of theirs at its position. -/
structure Interleaved (ours theirs : Text) (oursHunks theirHunks : List AddHunk) (out : List Piece) : Prop where
  ours : (out.filter (Piece.without true)).map Piece.text = splitLines (normaliseLF ours)
  theirs : (out.filter (Piece.without false)).map Piece.text = splitLines (normaliseLF theirs)
  once : (out.filterMap Piece.added?).Perm (addedLines false oursHunks ++ addedLines true theirHunks)
  order : (out.filterMap Piece.added?).Pairwise (fun a b => a.theirs = true → b.theirs = false → a.afterLine < b.afterLine)

/-! ## Placing sorted insertions -/

/-- The walk over the base, with each insertion at its position. -/
def pieces : Int → List Text → List AddedLine → List Piece
  | _, [], added => added.map .added
  | i, line :: lines, added => (added.filter (·.afterLine = i - 1)).map .added ++
      .kept line :: pieces (i + 1) lines (added.filter (·.afterLine ≠ i - 1))

theorem takeWhile_sorted {i : Int} {added : List AddedLine} (hs : added.Pairwise (fun a b => a.afterLine ≤ b.afterLine))
    (hlow : ∀ a ∈ added, i - 1 ≤ a.afterLine) :
    added.takeWhile (·.afterLine = i - 1) = added.filter (·.afterLine = i - 1) ∧
      added.dropWhile (·.afterLine = i - 1) = added.filter (·.afterLine ≠ i - 1) := by
  induction hs with
  | nil => exact ⟨rfl, rfl⟩
  | @cons a added ha _ ih =>
    obtain ⟨_, hr⟩ := forall_mem_cons.1 hlow
    by_cases h : a.afterLine = i - 1
    · simp [h, ih hr]
    -- everything behind a later insertion is later too
    have hl : ∀ b ∈ added, b.afterLine ≠ i - 1 := fun b hb => by
      have := ha b hb
      omega
    have hn : added.filter (·.afterLine = i - 1) = [] :=
      filter_eq_nil_iff.2 fun b hb => by simpa using hl b hb
    have hall : added.filter (·.afterLine ≠ i - 1) = added :=
      filter_eq_self.2 fun b hb => by simpa using hl b hb
    simpa [h, hn] using hall.symm

theorem later_of_mem_filter {i : Int} {added : List AddedLine} (hl : ∀ a ∈ added, i - 1 ≤ a.afterLine) {a : AddedLine}
    (ha : a ∈ added.filter (·.afterLine ≠ i - 1)) : i + 1 - 1 ≤ a.afterLine := by
  obtain ⟨hm, hne⟩ := mem_filter.1 ha
  have := hl a hm
  rw [decide_eq_true_eq] at hne
  omega

theorem weave_pieces : ∀ (lines : List Text) (i : Int) (added : List AddedLine),
    added.Pairwise (fun a b => a.afterLine ≤ b.afterLine) → (lines ≠ [] → ∀ a ∈ added, i - 1 ≤ a.afterLine) →
      weave i lines added = (pieces i lines added).map Piece.text
  | [], i, added, _, _ => by
    rw [weave, pieces, map_map]
    rfl
  | line :: lines, i, added, hs, hl => by
    obtain ⟨ht, hd⟩ := takeWhile_sorted hs (hl (cons_ne_nil _ _))
    rw [weave, ht, hd, pieces, map_append, map_cons, map_map,
      weave_pieces lines (i + 1) _ (hs.filter _) fun _ a ha => later_of_mem_filter (hl (cons_ne_nil _ _)) ha]
    rfl

theorem pieces_without (theirs : Bool) : ∀ (lines : List Text) (i : Int) (added : List AddedLine),
    (pieces i lines added).filter (Piece.without theirs) = pieces i lines (added.filter (·.theirs != theirs))
  | [], i, added => by
    rw [pieces, pieces, filter_map]
    rfl
  | line :: lines, i, added => by
    have hc : ∀ p : AddedLine → Bool, (added.filter p).filter (·.theirs != theirs) =
        (added.filter (·.theirs != theirs)).filter p := fun p => filter_comm _ _ _
    rw [pieces, pieces, filter_append, filter_map, filter_cons_of_pos rfl, pieces_without theirs lines, ← hc, ← hc]
    rfl

theorem pieces_added : ∀ (lines : List Text) (i : Int) (added : List AddedLine),
    added.Pairwise (fun a b => a.afterLine ≤ b.afterLine) → (lines ≠ [] → ∀ a ∈ added, i - 1 ≤ a.afterLine) →
      (pieces i lines added).filterMap Piece.added? = added
  | [], i, added, _, _ => by simp [pieces, Function.comp_def, Piece.added?]
  | line :: lines, i, added, hs, hl => by
    obtain ⟨ht, hd⟩ := takeWhile_sorted hs (hl (cons_ne_nil _ _))
    rw [pieces, filterMap_append, filterMap_cons_none rfl, filterMap_map,
      pieces_added lines (i + 1) _ (hs.filter _) fun _ a ha => later_of_mem_filter (hl (cons_ne_nil _ _)) ha, ← ht,
      ← hd]
    have hsome : Piece.added? ∘ Piece.added = some := rfl
    rw [hsome, filterMap_some, takeWhile_append_dropWhile]

theorem addedLines_filter (theirs : Bool) (p : Int → Bool) (hunks : List AddHunk) :
    (addedLines theirs hunks).filter (fun a => p a.afterLine) = addedLines theirs (hunks.filter (fun h => p h.afterBaseLine)) := by
  induction hunks with
  | nil => rfl
  | cons h _ ih =>
    simp only [addedLines, flatMap_cons, filter_append] at ih ⊢
    rw [ih]
    cases hp : p h.afterBaseLine <;> simp [hp]

theorem addedLines_content (theirs : Bool) (hunks : List AddHunk) :
    (addedLines theirs hunks).map (·.content) = hunks.flatMap (·.addedLines) := by
  simp [addedLines, map_flatMap, Function.comp_def]

theorem pieces_addedLines (theirs : Bool) : ∀ (lines : List Text) (i : Int) (hunks : List AddHunk),
    (pieces i lines (addedLines theirs hunks)).map Piece.text = patched i lines hunks
  | [], i, hunks => by
    rw [pieces, patched, map_map, ← addedLines_content theirs]
    rfl
  | line :: lines, i, hunks => by
    rw [pieces, patched, addedLines_filter theirs (fun k => k = i - 1), addedLines_filter theirs (fun k => k ≠ i - 1),
      map_append, map_cons, pieces_addedLines theirs lines, map_map, ← addedLines_content theirs]
    rfl

/-! ## The order of insertion -/

theorem AddedLine.le_iff {a b : AddedLine} : a.le b = true ↔
    a.afterLine < b.afterLine ∨ (a.afterLine = b.afterLine ∧ (a.theirs = true → b.theirs = true)) := by
  unfold AddedLine.le
  split
  · rename_i h
    simp [h]
  · rename_i h
    cases a.theirs <;> simp [not_not.1 h]

theorem AddedLine.le_trans (a b c : AddedLine) (hab : a.le b = true) (hbc : b.le c = true) : a.le c = true := by
  rw [le_iff] at *
  rcases hab with h | ⟨h, ht⟩ <;> rcases hbc with h' | ⟨h', ht'⟩
  · exact .inl (Int.lt_trans h h')
  · exact .inl (h' ▸ h)
  · exact .inl (h ▸ h')
  · exact .inr ⟨h.trans h', fun x => ht' (ht x)⟩

theorem AddedLine.le_total (a b : AddedLine) : (a.le b || b.le a) = true := by
  rw [Bool.or_eq_true, le_iff, le_iff]
  rcases Int.lt_trichotomy a.afterLine b.afterLine with h | h | h
  · exact .inl (.inl h)
  · by_cases hb : b.theirs = true
    · exact .inl (.inr ⟨h, fun _ => hb⟩)
    · exact .inr (.inr ⟨h.symm, fun hb' => absurd hb' hb⟩)
  · exact .inr (.inl h)

theorem addedLines_sorted (theirs : Bool) {hunks : List AddHunk}
    (h : hunks.Pairwise (fun h h' => h.afterBaseLine < h'.afterBaseLine)) :
    (addedLines theirs hunks).Pairwise (fun a b => a.le b = true) := by
  rw [addedLines, pairwise_flatMap]
  refine ⟨fun h _ => ?_, h.imp fun hlt => ?_⟩
  · rw [pairwise_map]
    exact pairwise_of_forall fun _ _ => AddedLine.le_iff.2 (.inr ⟨rfl, id⟩)
  · simp only [forall_mem_map]
    exact fun _ _ _ _ => AddedLine.le_iff.2 (.inl hlt)

def sortedLines (oursHunks theirHunks : List AddHunk) : List AddedLine :=
  (addedLines false oursHunks ++ addedLines true theirHunks).mergeSort AddedLine.le

section
variable {oursHunks theirHunks : List AddHunk}

theorem sortedLines_le : (sortedLines oursHunks theirHunks).Pairwise (fun a b => a.le b = true) :=
  pairwise_mergeSort AddedLine.le_trans AddedLine.le_total _

theorem sortedLines_perm :
    (sortedLines oursHunks theirHunks).Perm (addedLines false oursHunks ++ addedLines true theirHunks) :=
  mergeSort_perm _ _

theorem addedLines_side {theirs : Bool} {hunks : List AddHunk} : ∀ a ∈ addedLines theirs hunks, a.theirs = theirs := by
  simp only [addedLines, mem_flatMap, mem_map]
  rintro _ ⟨h, -, l, -, rfl⟩
  rfl

theorem addedLines_filter_side {theirs dropped : Bool} {hunks : List AddHunk} :
    (addedLines theirs hunks).filter (·.theirs != dropped) = if theirs = dropped then [] else addedLines theirs hunks := by
  split
  · rename_i h
    exact filter_eq_nil_iff.2 fun a ha => by simp [addedLines_side a ha, h]
  · rename_i h
    exact filter_eq_self.2 fun a ha => by simp [addedLines_side a ha, h]

/-- The sort is stable, so it keeps the insertions of one side as they are. -/
theorem sortedLines_side {theirs dropped : Bool} {hunks : List AddHunk} (hne : theirs ≠ dropped)
    (h : hunks.Pairwise (fun h h' => h.afterBaseLine < h'.afterBaseLine))
    (hsub : (addedLines theirs hunks).Sublist (addedLines false oursHunks ++ addedLines true theirHunks))
    (hall : (addedLines false oursHunks ++ addedLines true theirHunks).filter (·.theirs != dropped) = addedLines theirs hunks) :
    (sortedLines oursHunks theirHunks).filter (·.theirs != dropped) = addedLines theirs hunks := by
  have hs := sublist_mergeSort AddedLine.le_trans AddedLine.le_total (addedLines_sorted theirs h) hsub
  have hk := hs.filter (·.theirs != dropped)
  rw [addedLines_filter_side, if_neg hne] at hk
  refine (hk.eq_of_length ?_).symm
  rw [← hall]
  exact ((sortedLines_perm.filter _).length_eq).symm

end

theorem splitLines_joinLines {lines : List Text} (h : ∀ l ∈ lines, '\n' ∉ l) : splitLines (joinLines lines) = lines := by
  cases lines with
  | nil => rfl
  | cons =>
    rw [joinLines, flatMap_newline _ (cons_ne_nil _ _), splitLines, if_neg (by simp), trimSuffix_concat, if_pos rfl]
    exact splitOn_intercalate '\n' h (cons_ne_nil _ _)

theorem newline_of_mem_splitLines {b l : Text} (h : l ∈ splitLines b) : '\n' ∉ l := by
  unfold splitLines at h
  split at h
  · cases h
  · exact not_mem_of_mem_split h

/-! ## The result -/

theorem interleaved_pieces {base ours theirs : Text} {oursHunks theirHunks : List AddHunk} (hours : Correct base ours oursHunks)
    (htheirs : Correct base theirs theirHunks) : weave 0 (splitLines (normaliseLF base)) (sortedLines oursHunks theirHunks) =
        (pieces 0 (splitLines (normaliseLF base)) (sortedLines oursHunks theirHunks)).map Piece.text ∧
      Interleaved ours theirs oursHunks theirHunks
        (pieces 0 (splitLines (normaliseLF base)) (sortedLines oursHunks theirHunks)) := by
  have hs : (sortedLines oursHunks theirHunks).Pairwise (fun a b => a.afterLine ≤ b.afterLine) :=
    sortedLines_le.imp fun hle => by
      rcases AddedLine.le_iff.1 hle with h | h
      · exact Int.le_of_lt h
      · exact Int.le_of_eq h.1
  have hl : splitLines (normaliseLF base) ≠ [] → ∀ a ∈ sortedLines oursHunks theirHunks, (0) - 1 ≤ a.afterLine := by
    intro hne a ha
    have ha := sortedLines_perm.subset ha
    simp only [mem_append, addedLines, mem_flatMap, mem_map] at ha
    rcases ha with ⟨h, hh, l, -, rfl⟩ | ⟨h, hh, l, -, rfl⟩
    · exact hours.within hne h hh
    · exact htheirs.within hne h hh
  have hadded := pieces_added _ 0 _ hs hl
  refine ⟨weave_pieces _ 0 _ hs hl, ?_, ?_, ?_, ?_⟩
  · rw [pieces_without, sortedLines_side (by decide) hours.increasing (sublist_append_left _ _)
      (by simp only [filter_append, addedLines_filter_side]; simp), pieces_addedLines, hours.lines]
  · rw [pieces_without, sortedLines_side (by decide) htheirs.increasing (sublist_append_right _ _)
      (by simp only [filter_append, addedLines_filter_side]; simp), pieces_addedLines, htheirs.lines]
  · rw [hadded]
    exact sortedLines_perm
  · rw [hadded]
    refine sortedLines_le.imp fun hle ha hb => (AddedLine.le_iff.1 hle).resolve_right fun h => ?_
    exact absurd (h.2 ha) (by simp [hb])

/-- **The insertions of both sides are woven into an interleaving.** -/
theorem additions_interleave (diff : Diff) (base ours theirs : Text) (oursHunks theirHunks : List AddHunk)
    (hours : diffAddOnly diff base ours = .ok (some oursHunks)) (htheirs : diffAddOnly diff base theirs = .ok (some theirHunks))
    (hcorrect : Correct base ours oursHunks) (hcorrect' : Correct base theirs theirHunks)
    (hdisjoint : ∀ h ∈ oursHunks, ∀ h' ∈ theirHunks, ∀ l ∈ h.addedLines, l ∉ h'.addedLines) :
    ∃ merged out, isNonOverlappingAddition diff base ours theirs = some merged ∧ splitLines merged = out.map Piece.text ∧
      Interleaved ours theirs oursHunks theirHunks out := by
  obtain ⟨hw, hout⟩ := interleaved_pieces hcorrect hcorrect'
  refine ⟨joinLines (weave 0 (splitLines (normaliseLF base)) (sortedLines oursHunks theirHunks)), _, ?_, ?_, hout⟩
  · rw [isNonOverlappingAddition, hours, htheirs]
    refine if_neg ?_
    simp only [addedLines, any_eq_true, contains_iff_mem, mem_map, mem_flatMap]
    rintro ⟨a, ⟨h', hh', l, hl, rfl⟩, b, ⟨h, hh, l', hl', rfl⟩, heq⟩
    have heq : l' = l := heq
    subst heq
    exact hdisjoint h hh h' hh' _ hl' hl
  · rw [← hw]
    refine splitLines_joinLines ?_
    rw [hw, forall_mem_map]
    intro p hp
    -- a piece is a line of ours or of theirs
    cases hs : p.without true with
    | true =>
      have hm := mem_map_of_mem (f := Piece.text) (mem_filter.2 ⟨hp, hs⟩)
      rw [hout.ours] at hm
      exact newline_of_mem_splitLines hm
    | false =>
      have ho : p.without false = true := by
        cases p with
        | kept => cases hs
        | added => simpa [Piece.without] using hs
      have hm := mem_map_of_mem (f := Piece.text) (mem_filter.2 ⟨hp, ho⟩)
      rw [hout.theirs] at hm
      exact newline_of_mem_splitLines hm

/-- A `diff` that finds one line more at the top, or at the end. -/
def topOrEnd : Diff := fun _ other =>
  if other = "x\na\n".toList then .ok "@@ -1 +1,2 @@\n+x\n a\n".toList else .ok "@@ -1 +1,2 @@\n a\n+y\n".toList

theorem additions_interleave_ends :
    ∃ merged out, isNonOverlappingAddition topOrEnd "a\n".toList "x\na\n".toList "a\ny\n".toList = some merged ∧
      splitLines merged = out.map Piece.text ∧
      Interleaved "x\na\n".toList "a\ny\n".toList [⟨-1, ["x".toList]⟩] [⟨0, ["y".toList]⟩] out :=
  additions_interleave topOrEnd _ _ _ [⟨-1, ["x".toList]⟩] [⟨0, ["y".toList]⟩] (by decide +kernel) (by decide +kernel)
    ⟨by simp, by decide, by decide +kernel⟩ ⟨by simp, by decide, by decide +kernel⟩ (by decide)

end Jamsesh.Automerger
