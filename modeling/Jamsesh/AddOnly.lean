import Jamsesh.DiffCursor
/-!
# AddOnly — which unified diffs the additions heuristic reads right

The scanner hands the parser the lines before the first one of 64 KiB or more (`visible`).  The heuristic is right about a diff
exactly when it sees a deletion or no addition at all, or when there is no deletion and no addition is skipped, hidden or
stripped of a carriage return that is part of its line (`addOnly_sound_iff`).
-/
namespace Jamsesh.Automerger

open List Text UnifiedDiff

/-! ## The lines of a script -/

theorem nextPhase_op {p : Phase} (hp : p ≠ .header) (o : Op) : ∃ q, nextPhase p (.op o) = some q ∧ q ≠ .header ∧
    (∀ l, o = .keep l → q = .closed) := by
  cases p with
  | header => exact absurd rfl hp
  | closed =>
    cases o with
    | keep => exact ⟨.closed, rfl, by simp, fun _ _ => rfl⟩
    | del => exact ⟨.closed, rfl, by simp, fun _ h => by cases h⟩
    | add => exact ⟨.filled, rfl, by simp, fun _ h => by cases h⟩
  | filled =>
    cases o with
    | keep => exact ⟨.closed, rfl, by simp, fun _ _ => rfl⟩
    | del | add => exact ⟨.filled, rfl, by simp, fun _ h => by cases h⟩

theorem out_phase {p : Phase} (hp : p ≠ .header) (o : Op) : ∃ q, o.out.foldlM nextPhase p = some q ∧ q ≠ .header ∧
    (∀ l, o = .keep l → q = .closed) := by
  obtain ⟨q, hq, hne, hk⟩ := nextPhase_op hp o
  unfold Op.out
  rw [foldlM_cons, hq]
  cases o.line.ended with
  | true => exact ⟨q, rfl, hne, hk⟩
  | false =>
    refine ⟨.closed, ?_, by simp, fun _ _ => rfl⟩
    cases q with
    | header => exact absurd rfl hne
    | closed | filled => rfl

theorem ops_phase : ∀ (ops : List Op) {p : Phase}, p ≠ .header →
    ∃ q, (ops.flatMap Op.out).foldlM nextPhase p = some q ∧ q ≠ .header ∧ (∀ l, ops.getLast? = some (.keep l) → q = .closed)
  | [], p, hp => ⟨p, rfl, hp, fun l h => by cases h⟩
  | o :: ops, p, hp => by
    obtain ⟨q, hq, hne, hk⟩ := out_phase hp o
    obtain ⟨q', hq', hn', hk'⟩ := ops_phase ops hne
    refine ⟨q', ?_, hn', fun l hl => ?_⟩
    · rw [flatMap_cons, foldlM_append, hq]
      exact hq'
    · cases ops with
      | nil =>
        cases hq'
        exact hk l (Option.some.inj hl)
      | cons => exact hk' l (by rw [List.getLast?_cons_cons] at hl; exact hl)

theorem hunksOut_phase : ∀ (hs : List Hunk) (a b : Nat) {p : Phase}, p ≠ .filled →
    (∀ h ∈ hs.dropLast, ∃ l, h.ops.getLast? = some (.keep l)) → ∃ q, (hunksOut a b hs).foldlM nextPhase p = some q
  | [], _, _, p, _, _ => ⟨p, rfl⟩
  | h :: hs, a, b, p, hp, hlast => by
    obtain ⟨q, hq, _, hk⟩ := ops_phase h.ops (p := .closed) (by simp)
    have ho : ∀ old new : Range, nextPhase p (.range old new) = some .closed := by
      intro _ _
      cases p with
      | header | closed => rfl
      | filled => exact absurd rfl hp
    unfold hunksOut
    simp only [foldlM_cons, ho, Option.bind_eq_bind, Option.bind_some, foldlM_append, hq]
    cases hs with
    | nil => exact ⟨q, rfl⟩
    | cons h' hs =>
      obtain ⟨l, hl⟩ := hlast h mem_cons_self
      rw [hk l hl]
      exact hunksOut_phase (h' :: hs) _ _ (by simp) (fun g hg => hlast g (mem_cons_of_mem h hg))

theorem out_op {o : Op} {l : OutLine} (hl : l ∈ o.out) : l = .op o ∨ l = .noNewline := by
  rcases mem_cons.1 hl with hl | hl
  · exact .inl hl
  · split at hl
    · cases hl
    · exact .inr (mem_singleton.1 hl)

theorem hunksOut_fits : ∀ (hs : List Hunk) (a b : Nat), a + (baseLines (hs.flatMap Hunk.all)).length < 2 ^ 63 →
    ∀ l ∈ hunksOut a b hs, Fits l
  | [], _, _, _, l, hl => by cases hl
  | h :: hs, a, b, hlen, l, hl => by
    rw [flatMap_cons, baseLines_append, Hunk.all, baseLines_append, baseLines_keep, length_append, length_append] at hlen
    unfold hunksOut at hl
    rcases mem_cons.1 hl with rfl | hl
    · simp only [Fits, Range.start]
      split <;> omega
    rcases mem_append.1 hl with hl | hl
    · obtain ⟨o, -, ho⟩ := mem_flatMap.1 hl
      rcases out_op ho with rfl | rfl
      · exact trivial
      · exact trivial
    · exact hunksOut_fits hs _ _ (by simp only; omega) l hl

/-! ## Placing the additions -/

/-- Where the additions of an edit belong, the next base line having index `i`. -/
def place : Int → List Op → List AddedLine
  | _, [] => []
  | i, .keep _ :: ops => place (i + 1) ops
  | i, .del _ :: ops => place (i + 1) ops
  | i, .add l :: ops => ⟨i - 1, dropCR l.text, false⟩ :: place i ops

theorem place_append : ∀ (xs ys : List Op) (i : Int),
    place i (xs ++ ys) = place i xs ++ place (i + (baseLines xs).length) ys
  | [], ys, i => by simp [place, baseLines]
  | .add l :: xs, ys, i => by
    rw [cons_append, place, place, place_append xs ys i]
    rfl
  | .keep l :: xs, ys, i | .del l :: xs, ys, i => by
    rw [cons_append, place, place, place_append xs ys (i + 1)]
    have hl : i + ((baseLines xs).length + 1) = i + 1 + (baseLines xs).length := by omega
    rw [← hl]
    rfl

theorem place_keep : ∀ (ls : List Line) (i : Int), place i (ls.map .keep) = []
  | [], _ => rfl
  | _ :: ls, i => place_keep ls (i + 1)

def OnlyAdds (ops : List Op) : Prop := ∀ o ∈ ops, ∀ l, o ≠ .del l ∧ (o = .add l → looksNewName l = false)

theorem OnlyAdds.mono {xs ys : List Op} (h : OnlyAdds ys) (hs : xs ⊆ ys) : OnlyAdds xs :=
  fun o ho => h o (hs ho)

theorem ops_place : ∀ (ops : List Op) (i : Int) (pl : List AddedLine), OnlyAdds ops →
    (∀ o ∈ ops.dropLast, o.line.ended = true) →
    ((ops.flatMap Op.out).foldl absStep ⟨i - 1, pl⟩).placed = pl ++ place i ops
  | [], i, pl, _, _ => by simp [place]
  | o :: ops, i, pl, ha, he => by
    have hrest : ∀ (i : Int) (pl : List AddedLine),
        ((ops.flatMap Op.out).foldl absStep ⟨i - 1, pl⟩).placed = pl ++ place i ops := fun i pl => by
      refine ops_place ops i pl (ha.mono (subset_cons_self o ops)) (fun o' ho' => he o' ?_)
      cases ops with
      | nil => cases ho'
      | cons => exact mem_cons_of_mem o ho'
    -- only the last line of all may lack its newline
    have hlast : o.line.ended = false → ops = [] := by
      intro ho
      cases ops with
      | nil => rfl
      | cons =>
        rw [he o mem_cons_self] at ho
        cases ho
    rw [flatMap_cons, foldl_append, Op.out, foldl_cons]
    cases o with
    | del l => exact absurd rfl (ha _ mem_cons_self l).1
    | keep l =>
      have hstep : absStep ⟨i - 1, pl⟩ (.op (.keep l)) = ⟨i + 1 - 1, pl⟩ := by simp [absStep]
      cases hl : l.ended with
      | true =>
        rw [hstep, place, ← hrest (i + 1) pl]
        simp [Op.line, hl]
      | false =>
        rw [hlast hl]
        simp [Op.line, hl, absStep, place]
    | add l =>
      have hlooks := (ha _ mem_cons_self l).2 rfl
      have hstep : absStep ⟨i - 1, pl⟩ (.op (.add l)) = ⟨i - 1, pl ++ [⟨i - 1, dropCR l.text, false⟩]⟩ := by
        simp [absStep, hlooks]
      rw [hstep, place]
      cases hl : l.ended with
      | true =>
        have := hrest i (pl ++ [⟨i - 1, dropCR l.text, false⟩])
        rw [append_assoc, singleton_append] at this
        rw [← this]
        simp [Op.line, hl]
      | false =>
        rw [hlast hl]
        simp [Op.line, hl, absStep, place]

theorem mem_dropLast_append {α : Type} {x : α} {xs : List α} (h : x ∈ xs.dropLast) (ys zs : List α) :
    x ∈ (ys ++ (xs ++ zs)).dropLast := by
  have hxs : xs ≠ [] := by
    rintro rfl
    cases h
  rw [dropLast_append_of_ne_nil (by simp [hxs])]
  refine mem_append_right ys ?_
  by_cases hzs : zs = []
  · rw [hzs, append_nil]
    exact h
  · rw [dropLast_append_of_ne_nil hzs]
    exact mem_append_left _ (dropLast_subset xs h)

theorem hunks_place : ∀ (hs : List Hunk) (a b : Nat) (c : Cursor), OnlyAdds (hs.flatMap Hunk.all) →
    (∀ o ∈ (hs.flatMap Hunk.all).dropLast, o.line.ended = true) → (∀ h ∈ hs, baseLines h.ops ≠ []) →
    ((hunksOut a b hs).foldl absStep c).placed = c.placed ++ place a (hs.flatMap Hunk.all)
  | [], _, _, c, _, _, _ => by simp [hunksOut, place]
  | h :: hs, a, b, c, ha, he, hb => by
    rw [flatMap_cons] at ha he
    have hl : (baseLines h.ops).length ≠ 0 := fun h0 => hb h mem_cons_self (length_eq_zero_iff.1 h0)
    have hopsAdds : OnlyAdds h.ops := ha.mono fun o ho => mem_append_left _ (mem_append_right _ ho)
    have hopsEnded : ∀ o ∈ h.ops.dropLast, o.line.ended = true := fun o ho => he o (by
      rw [Hunk.all, append_assoc]
      exact mem_dropLast_append ho _ _)
    have hr : ∀ o ∈ (hs.flatMap Hunk.all).dropLast, o.line.ended = true := fun o ho => he o (by
      have := mem_dropLast_append ho h.all []
      rwa [append_nil] at this)
    have hstart : absStep c (.range ⟨a + h.gap.length, (baseLines h.ops).length⟩
        ⟨b + h.gap.length, (otherLines h.ops).length⟩) = ⟨(a + h.gap.length) - 1, c.placed⟩ := by
      simp only [absStep, Range.start, if_neg hl, Cursor.mk.injEq, and_true]
      omega
    rw [hunksOut]
    simp only [foldl_cons, foldl_append]
    rw [hstart, hunks_place hs _ _ _ (ha.mono (subset_append_right _ _)) hr
      (fun g hg => hb g (mem_cons_of_mem h hg)), ops_place h.ops _ _ hopsAdds hopsEnded, append_assoc,
      flatMap_cons, place_append, Hunk.all, place_append, place_keep, baseLines_append, baseLines_keep,
      length_append]
    simp only [nil_append, Int.natCast_add, Int.add_assoc]

/-! ## Weaving the additions in -/

theorem weave_nil (i : Int) (added : List AddedLine) : weave i [] added = added.map (·.content) := rfl

theorem weave_here {i : Int} (lines : List Text) {a : AddedLine} (h : a.afterLine = i - 1) (added : List AddedLine) :
    weave i lines (a :: added) = a.content :: weave i lines added := by
  cases lines with
  | nil => rfl
  | cons => simp [weave, h]

theorem weave_later {i : Int} (l : Text) (lines : List Text) {added : List AddedLine}
    (h : ∀ a ∈ added, a.afterLine ≠ i - 1) : weave i (l :: lines) added = l :: weave (i + 1) lines added := by
  cases added with
  | nil => simp [weave]
  | cons a =>
    have ha := h a mem_cons_self
    simp [weave, ha]

theorem weave_length : ∀ (lines : List Text) (i : Int) (added : List AddedLine),
    (weave i lines added).length = lines.length + added.length
  | [], i, added => by simp [weave_nil]
  | l :: lines, i, added => by
    rw [weave, length_append, length_map, length_cons, weave_length lines, length_cons]
    have hs := congrArg List.length (takeWhile_append_dropWhile (p := fun a : AddedLine => decide (a.afterLine = i - 1))
      (l := added))
    rw [length_append] at hs
    omega

theorem place_after : ∀ (ops : List Op) (i : Int), ∀ a ∈ place i ops, i - 1 ≤ a.afterLine
  | [], _, a, ha => by cases ha
  | .add l :: ops, i, a, ha => by
    rcases mem_cons.1 ha with rfl | ha
    · exact Int.le_refl _
    · exact place_after ops i a ha
  | .keep l :: ops, i, a, ha | .del l :: ops, i, a, ha => by
    have := place_after ops (i + 1) a ha
    omega

def wovenLine : Op → Text
  | .add l => dropCR l.text
  | o => lineText o.line

theorem weave_place : ∀ (ops : List Op) (i : Int), (∀ l, .del l ∉ ops) →
    weave i ((baseLines ops).map lineText) (place i ops) = ops.map wovenLine
  | [], _, _ => rfl
  | .del l :: _, _, h => absurd mem_cons_self (h l)
  | .keep l :: ops, i, h => by
    have hl : ∀ a ∈ place (i + 1) ops, a.afterLine ≠ i - 1 := fun a ha _ => by
      have := place_after ops (i + 1) a ha
      omega
    have hb : baseLines (.keep l :: ops) = l :: baseLines ops := rfl
    rw [hb, map_cons, place, weave_later _ _ hl, weave_place ops (i + 1) (fun l' hl' => h l' (mem_cons_of_mem _ hl'))]
    rfl
  | .add l :: ops, i, h => by
    have hb : baseLines (.add l :: ops) = baseLines ops := rfl
    rw [hb, place, weave_here _ rfl, weave_place ops i (fun l' hl' => h l' (mem_cons_of_mem _ hl'))]
    rfl

/-! ## What the output shows -/

def opOf : OutLine → Option Op
  | .op o => some o
  | _ => none

def takenOp : Op → Option Text
  | .add l => if looksNewName l then none else some (dropCR l.text)
  | _ => none

theorem takenAddition_eq (l : OutLine) : takenAddition l = (opOf l).bind takenOp := by
  cases l with
  | op o => cases o <;> rfl
  | _ => rfl

theorem opOf_out (ops : List Op) : (ops.flatMap Op.out).filterMap opOf = ops := by
  induction ops with
  | nil => rfl
  | cons o _ ih =>
    rw [flatMap_cons, filterMap_append, ih, Op.out, filterMap_cons]
    cases o.line.ended <;> rfl

theorem opOf_hunksOut : ∀ (hs : List Hunk) (a b : Nat), (hunksOut a b hs).filterMap opOf = hs.flatMap Hunk.ops
  | [], _, _ => rfl
  | h :: hs, a, b => by
    rw [hunksOut]
    simp only [filterMap_cons, opOf, filterMap_append]
    rw [opOf_out, opOf_hunksOut hs, flatMap_cons]

theorem opOf_script (s : Script) : s.out.filterMap opOf = s.hunks.flatMap Hunk.ops := by
  unfold Script.out
  split
  · rename_i h
    rw [h]
    rfl
  · rw [filterMap_cons, filterMap_cons]
    exact opOf_hunksOut s.hunks 0 0

theorem mem_out_iff (s : Script) {o : Op} (ho : ∀ l, o ≠ .keep l) : .op o ∈ s.out ↔ o ∈ s.ops := by
  have hout : .op o ∈ s.out ↔ o ∈ s.hunks.flatMap Hunk.ops := by
    rw [← opOf_script, mem_filterMap]
    constructor
    · exact fun h => ⟨_, h, rfl⟩
    · rintro ⟨l, hl, ho⟩
      cases l with
      | op => cases ho; exact hl
      | _ => cases ho
  rw [hout]
  unfold Script.ops allOps Hunk.all
  simp only [mem_append, mem_flatMap, mem_map]
  constructor
  · rintro ⟨h, hh, hin⟩
    exact .inl ⟨h, hh, .inr hin⟩
  · rintro (⟨h, hh, ⟨l, -, rfl⟩ | hin⟩ | ⟨l, -, rfl⟩)
    · exact absurd rfl (ho l)
    · exact ⟨h, hh, hin⟩
    · exact absurd rfl (ho l)

theorem filterMap_keep {α : Type} {f : Op → Option α} (hf : ∀ l, f (.keep l) = none) (ls : List Line) :
    (ls.map Op.keep).filterMap f = [] := by
  rw [filterMap_map, filterMap_eq_nil_iff]
  exact fun l _ => hf l

theorem filterMap_ops {α : Type} {f : Op → Option α} (hf : ∀ l, f (.keep l) = none) (s : Script) :
    s.ops.filterMap f = (s.hunks.flatMap Hunk.ops).filterMap f := by
  have hh : ∀ hs : List Hunk, (hs.flatMap Hunk.all).filterMap f = (hs.flatMap Hunk.ops).filterMap f := by
    intro hs
    induction hs with
    | nil => rfl
    | cons h _ ih =>
      rw [flatMap_cons, flatMap_cons, filterMap_append, filterMap_append, ih, Hunk.all,
        filterMap_append, filterMap_keep hf, nil_append]
  rw [Script.ops, allOps, filterMap_append, hh, filterMap_keep hf, append_nil]

theorem takenAddition_script (s : Script) : s.out.filterMap takenAddition = s.ops.filterMap takenOp := by
  have hf : takenAddition = fun l => (opOf l).bind takenOp := funext takenAddition_eq
  rw [hf, ← filterMap_filterMap, opOf_script, filterMap_ops (fun _ => rfl)]

theorem hunksOut_cases : ∀ (hs : List Hunk) (a b : Nat) (l : OutLine), l ∈ hunksOut a b hs →
    (∃ old new, l = .range old new) ∨ l = .noNewline ∨ ∃ o ∈ hs.flatMap Hunk.all, l = .op o
  | [], _, _, l, hl => by cases hl
  | h :: hs, a, b, l, hl => by
    rw [hunksOut] at hl
    rcases mem_cons.1 hl with hl | hl
    · exact .inl ⟨_, _, hl⟩
    rcases mem_append.1 hl with hl | hl
    · obtain ⟨o, ho, hl⟩ := mem_flatMap.1 hl
      rcases out_op hl with hl | hl
      · exact .inr (.inr ⟨o, mem_append_left _ (mem_append_right _ ho), hl⟩)
      · exact .inr (.inl hl)
    · rcases hunksOut_cases hs _ _ l hl with hr | hn | ⟨o, ho, hop⟩
      · exact .inl hr
      · exact .inr (.inl hn)
      · exact .inr (.inr ⟨o, mem_append_right _ ho, hop⟩)

theorem line_no_newline (s : Script) {o : Op} (ho : o ∈ s.ops) : '\n' ∉ o.line.text := by
  cases o with
  | keep l | del l => exact s.base_isFile.no_newline l (mem_filterMap.2 ⟨_, ho, rfl⟩)
  | add l => exact s.other_isFile.no_newline l (mem_filterMap.2 ⟨_, ho, rfl⟩)

theorem hunksOut_no_newline (s : Script) : ∀ l ∈ hunksOut 0 0 s.hunks, '\n' ∉ l.text := by
  intro l hl
  rcases hunksOut_cases s.hunks 0 0 l hl with ⟨old, new, rfl⟩ | rfl | ⟨o, ho, rfl⟩
  · have hr := Range.not_mem_text (c := '\n') rfl (by decide)
    rw [OutLine.text_range, mem_append, mem_append, mem_append, mem_append, not_or, not_or, not_or, not_or]
    exact ⟨by decide, hr old, by decide, hr new, by decide⟩
  · decide
  have hn := line_no_newline s (mem_append_left _ ho)
  cases o with
  | keep | del | add => exact fun h => (mem_cons.1 h).elim (by decide) hn

theorem out_cases (s : Script) {l : OutLine} (hl : l ∈ s.out) :
    l = .oldName s.oldName ∨ l = .newName s.newName ∨ l ∈ hunksOut 0 0 s.hunks := by
  unfold Script.out at hl
  split at hl
  · cases hl
  · rwa [mem_cons, mem_cons] at hl

theorem out_no_newline (s : Script) : ∀ l ∈ s.out, '\n' ∉ l.text := by
  intro l hl
  rcases out_cases s hl with rfl | rfl | hl
  · rw [OutLine.text_oldName, mem_append, not_or]
    exact ⟨by decide, s.old_no_newline⟩
  · rw [OutLine.text_newName, mem_append, not_or]
    exact ⟨by decide, s.new_no_newline⟩
  · exact hunksOut_no_newline s l hl

/-- The lines that the scanner reaches: those before the first that is too long. -/
def visible (s : Script) : List OutLine := s.out.takeWhile (fun l => l.text.length < maxToken)

def hidden (s : Script) : List OutLine := s.out.dropWhile (fun l => l.text.length < maxToken)

theorem visible_append_hidden (s : Script) : visible s ++ hidden s = s.out := takeWhile_append_dropWhile

theorem scanLines_script (s : Script) : scanLines s.text = (visible s).map shown := by
  have htext : s.text = (s.out.map OutLine.text).flatMap (fun l => l ++ ['\n']) := by
    rw [flatMap_map]
    rfl
  have hlines : ∀ l ∈ s.out.map OutLine.text, '\n' ∉ l := by
    intro t ht
    obtain ⟨l, hl, rfl⟩ := mem_map.1 ht
    exact out_no_newline s l hl
  rw [scanLines, htext, rawLines_lines _ hlines, takeWhile_map, map_map]
  rfl

theorem visible_phase (s : Script) : ∃ p, (visible s).foldlM nextPhase .header = some p := by
  have ho : ∃ p, s.out.foldlM nextPhase .header = some p := by
    unfold Script.out
    split
    · exact ⟨_, rfl⟩
    · obtain ⟨p, hp⟩ := hunksOut_phase s.hunks 0 0 (p := .header) (by simp) s.followed
      exact ⟨p, hp⟩
  obtain ⟨p, hp⟩ := ho
  rw [← visible_append_hidden, foldlM_append] at hp
  obtain ⟨q, hq, -⟩ := Option.bind_eq_some_iff.1 hp
  exact ⟨q, hq⟩

theorem visible_fits (s : Script) (hlen : s.base.length < 2 ^ 63) : ∀ l ∈ visible s, Fits l := by
  intro l hl
  rcases out_cases s ((List.takeWhile_prefix _).subset hl) with rfl | rfl | hl
  · exact trivial
  · exact trivial
  refine hunksOut_fits s.hunks 0 0 ?_ l hl
  have hle := length_le_fileText s.base_isFile
  rw [allOps, baseLines_append, length_append] at hle
  have hb : s.base.length = (fileText (baseLines (allOps s.hunks s.tail))).length := rfl
  rw [allOps, baseLines_append] at hb
  omega

theorem parse_script (s : Script) (hl : s.base.length < 2 ^ 63) :
    ((∃ l ∈ visible s, isDeletion l = true) → parseUnifiedDiffAddOnly s.text = .ok none) ∧
    ((∀ l ∈ visible s, isDeletion l = false) → ∃ st : DiffState,
      parseUnifiedDiffAddOnly s.text = .ok (if st.flush = [] then none else some st.flush) ∧
      addedLines false st.flush = ((visible s).foldl absStep ⟨0, []⟩).placed ∧
      (st.flush = [] ↔ (visible s).filterMap takenAddition = [])) := by
  obtain ⟨p, hp⟩ := visible_phase s
  constructor
  · intro hdel
    unfold parseUnifiedDiffAddOnly
    rw [scanLines_script, parseLoop_deletion (visible s) tracks_start hp (visible_fits s hl) hdel]
  · intro hdel
    obtain ⟨st, hst, ht⟩ := parseLoop_spec (visible s) tracks_start hp (visible_fits s hl) hdel
    refine ⟨st, ?_, ht.placed, ?_⟩
    · unfold parseUnifiedDiffAddOnly
      rw [scanLines_script, hst]
    · have hc := placed_content (visible s) ⟨0, []⟩
      rw [map_nil, nil_append] at hc
      rw [ht.flush_nil_iff, ← hc, map_eq_nil_iff]

/-! ## Which diffs are read right -/

/-- **The parser is right about a diff**: when it answers with additions, the diff deletes nothing, and the additions woven
into the base are the other file. -/
def ReadsRight (s : Script) : Prop :=
  ∀ hunks, parseUnifiedDiffAddOnly s.text = .ok (some hunks) → (∀ l, .op (.del l) ∉ s.out) ∧
    weave 0 (splitLines (normaliseLF s.base)) (addedLines false hunks) = splitLines (normaliseLF s.other)

/-- No line is deleted, and every added line is reached, taken for one and read in full. -/
structure PlainAdds (s : Script) : Prop where
  no_del : ∀ l, .op (.del l) ∉ s.out
  reached : ∀ l, .op (.add l) ∉ hidden s
  taken : ∀ l, .op (.add l) ∈ s.out → looksNewName l = false
  full : ∀ l, .op (.add l) ∈ s.out → l.ended = true ∨ hasSuffix l.text ['\r'] = false

theorem placed_of_no_add : ∀ (ls : List OutLine) (c : Cursor), (∀ l, .op (.add l) ∉ ls) →
    (ls.foldl absStep c).placed = c.placed
  | [], _, _ => rfl
  | l :: ls, c, h => by
    rw [foldl_cons, placed_of_no_add ls _ (fun l' hl' => h l' (mem_cons_of_mem l hl'))]
    cases l with
    | op o =>
      cases o with
      | add l => exact absurd mem_cons_self (h l)
      | _ => rfl
    | _ => rfl

section
variable {s : Script} (hdel : ∀ l, .op (.del l) ∉ s.out)

include hdel

theorem no_del_ops : ∀ l, .del l ∉ s.ops := fun l hl => hdel l ((mem_out_iff s (by simp)).2 hl)

theorem otherLines_of_no_del : otherLines (allOps s.hunks s.tail) = s.ops.map Op.line := by
  have hnd := no_del_ops hdel
  change otherLines s.ops = _
  generalize s.ops = ops at *
  induction ops with
  | nil => rfl
  | cons o _ ih =>
    have ih := ih (fun l hl => hnd l (mem_cons_of_mem o hl))
    cases o with
    | del l => exact absurd mem_cons_self (hnd l)
    | keep l | add l => exact congrArg (l :: ·) ih

theorem splitLines_other : splitLines (normaliseLF s.other) = s.ops.map (fun o => lineText o.line) := by
  have hf : s.other = fileText (otherLines (allOps s.hunks s.tail)) := rfl
  rw [hf, splitLines_fileText s.other_isFile, otherLines_of_no_del hdel, map_map]
  rfl

omit hdel in
theorem splitLines_base : splitLines (normaliseLF s.base) = (baseLines s.ops).map lineText :=
  splitLines_fileText s.base_isFile

theorem weave_script (hr : ∀ l, .op (.add l) ∉ hidden s) (ht : ∀ l, .op (.add l) ∈ s.out → looksNewName l = false) :
    weave 0 (splitLines (normaliseLF s.base)) ((visible s).foldl absStep ⟨0, []⟩).placed = s.ops.map wovenLine := by
  have hnd := no_del_ops hdel
  have hadds : OnlyAdds s.ops := by
    intro o ho l
    refine ⟨fun h => hnd l (h ▸ ho), fun h => ht l ?_⟩
    subst h
    exact (mem_out_iff s (by simp)).2 ho
  have hall : ((visible s).foldl absStep ⟨0, []⟩).placed = (s.out.foldl absStep ⟨0, []⟩).placed := by
    rw [← visible_append_hidden, foldl_append, placed_of_no_add _ _ hr]
  rw [splitLines_base]
  by_cases hb : baseLines s.ops = []
  · -- nothing to weave into: the additions are the file
    have honly : s.ops.filterMap takenOp = s.ops.map wovenLine := by
      rw [← filterMap_eq_map]
      refine filterMap_congr fun o ho => ?_
      cases o with
      | keep l =>
        have hmem : l ∈ baseLines s.ops := mem_filterMap.2 ⟨_, ho, rfl⟩
        rw [hb] at hmem
        cases hmem
      | del l => exact absurd ho (hnd l)
      | add l => simp [takenOp, (hadds _ ho l).2 rfl, wovenLine]
    rw [hb, map_nil, weave_nil, hall, placed_content, takenAddition_script, honly]
    rfl
  · have hplace : (s.out.foldl absStep ⟨0, []⟩).placed = place 0 s.ops := by
      have hanch : ∀ h ∈ s.hunks, baseLines h.ops ≠ [] := fun h hh => (s.anchored h hh).resolve_right hb
      have hended : ∀ o ∈ (s.hunks.flatMap Hunk.all).dropLast, o.line.ended = true := by
        intro o ho
        refine s.other_isFile.ended o.line ?_
        rw [otherLines_of_no_del hdel, ← map_dropLast]
        exact mem_map_of_mem (mem_dropLast_append ho [] _)
      have hops : place 0 s.ops = place 0 (s.hunks.flatMap Hunk.all) := by
        rw [Script.ops, allOps, place_append, place_keep, append_nil]
      rw [hops]
      unfold Script.out
      by_cases hn : s.hunks = []
      · rw [if_pos hn, hn]
        rfl
      rw [if_neg hn]
      have := hunks_place s.hunks 0 0 ⟨0, []⟩ (hadds.mono (subset_append_left _ _)) hended hanch
      rw [nil_append] at this
      exact this
    rw [hall, hplace]
    exact weave_place s.ops 0 hnd

end

def isAdd : OutLine → Bool
  | .op (.add _) => true
  | _ => false

def isSkipped : OutLine → Bool
  | .op (.add l) => looksNewName l
  | _ => false

theorem taken_add_skipped : ∀ (ls : List OutLine),
    (ls.filterMap takenAddition).length + ls.countP isSkipped = ls.countP isAdd
  | [] => rfl
  | l :: ls => by
    have ih := taken_add_skipped ls
    rw [filterMap_cons, countP_cons, countP_cons]
    cases l with
    | op o =>
      cases o with
      | add l =>
        cases hl : looksNewName l with
        | true | false => simp [takenAddition, hl, isSkipped, isAdd]; omega
      | keep | del => exact ih
    | _ => exact ih

def addedOp : Op → Option Line
  | .add l => some l
  | _ => none

theorem length_ops : ∀ (ops : List Op), (∀ l, .del l ∉ ops) →
    ops.length = (baseLines ops).length + (ops.filterMap addedOp).length
  | [], _ => rfl
  | o :: ops, h => by
    have ih := length_ops ops (fun l hl => h l (mem_cons_of_mem o hl))
    cases o with
    | del l => exact absurd mem_cons_self (h l)
    | keep | add =>
      simp only [baseLines, filterMap_cons, Op.base, addedOp, length_cons] at ih ⊢
      omega

theorem countP_isAdd (s : Script) (hdel : ∀ l, .op (.del l) ∉ s.out) :
    s.ops.length = (baseLines s.ops).length + s.out.countP isAdd := by
  have hc : ∀ ls : List OutLine, ls.countP isAdd = ((ls.filterMap opOf).filterMap addedOp).length := by
    intro ls
    rw [filterMap_filterMap]
    induction ls with
    | nil => rfl
    | cons l _ ih =>
      rw [countP_cons, filterMap_cons]
      cases l with
      | op o =>
        cases o with
        | add => simp [isAdd, opOf, addedOp, ih]
        | keep | del => exact ih
      | _ => exact ih
  rw [hc, opOf_script, ← filterMap_ops (fun _ => rfl)]
  exact length_ops s.ops (no_del_ops hdel)

theorem wovenLine_eq_iff (l : Line) :
    wovenLine (.add l) = lineText l ↔ (l.ended = true ∨ hasSuffix l.text ['\r'] = false) := by
  unfold wovenLine lineText
  cases l.ended with
  | true => simp
  | false =>
    simp only [Bool.false_eq_true, if_false, false_or]
    unfold dropCR trimSuffix
    cases hs : hasSuffix l.text ['\r'] with
    | false => simp
    | true =>
      have hl := (isSuffixOf_iff_suffix.1 hs).length_le
      simp only [if_true, Bool.true_eq_false, iff_false]
      intro heq
      have := congrArg List.length heq
      simp only [length_take, length_cons] at this hl
      omega

/-- **Which diffs the parser reads right**: those in which it sees a deletion, those in which it sees no addition, and those
that only add lines, all of which it reaches, takes for additions and reads in full. -/
theorem addOnly_sound_iff (s : Script) (hlen : s.base.length < 2 ^ 63) :
    ReadsRight s ↔ (∃ l ∈ visible s, isDeletion l = true) ∨ (visible s).filterMap takenAddition = [] ∨ PlainAdds s := by
  obtain ⟨hs, hu⟩ := parse_script s hlen
  by_cases hd : ∃ l ∈ visible s, isDeletion l = true
  · refine iff_of_true (fun _ hp => ?_) (.inl hd)
    rw [hs hd] at hp
    cases hp
  rw [or_iff_right hd]
  obtain ⟨st, hparse, hplaced, he⟩ := hu fun l hl => by
    by_contra hne
    exact hd ⟨l, hl, by simpa using hne⟩
  by_cases hn : (visible s).filterMap takenAddition = []
  · refine iff_of_true (fun _ hp => ?_) (.inl hn)
    rw [hparse, if_pos (he.2 hn)] at hp
    cases hp
  rw [or_iff_right hn]
  have hanswer : parseUnifiedDiffAddOnly s.text = .ok (some st.flush) := by
    rw [hparse, if_neg fun h => hn (he.1 h)]
  constructor
  · intro hr
    obtain ⟨hdel, hw⟩ := hr st.flush hanswer
    -- as many lines as the other file has: so nothing added is missing
    have hlength := congrArg List.length hw
    have hcontent := congrArg List.length (placed_content (visible s) ⟨0, []⟩)
    have hskip := taken_add_skipped (visible s)
    have hadd := countP_isAdd s hdel
    rw [← visible_append_hidden, countP_append] at hadd
    rw [hplaced, weave_length, splitLines_base, splitLines_other hdel, length_map, length_map] at hlength
    rw [length_map, map_nil, nil_append] at hcontent
    have hreached : ∀ l, .op (.add l) ∉ hidden s := fun l hl =>
      absurd (countP_eq_zero.1 (by omega : (hidden s).countP isAdd = 0) _ hl) (by simp [isAdd])
    have htaken : ∀ l, .op (.add l) ∈ s.out → looksNewName l = false := by
      intro l hl
      rw [← visible_append_hidden] at hl
      have hv := (mem_append.1 hl).resolve_right (hreached l)
      have := countP_eq_zero.1 (by omega : (visible s).countP isSkipped = 0) _ hv
      simpa [isSkipped] using this
    refine ⟨hdel, hreached, htaken, fun l hl => ?_⟩
    rw [hplaced, weave_script hdel hreached htaken, splitLines_other hdel, map_inj_left] at hw
    exact (wovenLine_eq_iff l).1 (hw (.add l) ((mem_out_iff s (by simp)).1 hl))
  · intro hplain _ hp
    rw [hanswer] at hp
    cases hp
    refine ⟨hplain.no_del, ?_⟩
    rw [hplaced, weave_script hplain.no_del hplain.reached hplain.taken, splitLines_other hplain.no_del, map_inj_left]
    intro o ho
    cases o with
    | add l => exact (wovenLine_eq_iff l).2 (hplain.full l ((mem_out_iff s (by simp)).2 ho))
    | keep | del => rfl

def swapScript (gone : String) (h : '\n' ∉ gone.toList) : Script where
  oldName := "base".toList
  newName := "other".toList
  hunks := [⟨[], [.del ⟨gone.toList, true⟩, .keep ⟨"keep".toList, true⟩, .add ⟨"new".toList, true⟩]⟩]
  tail := []
  old_no_newline := by decide
  new_no_newline := by decide
  base_isFile := {
    no_newline := fun l hl => by
      rcases mem_cons.1 hl with rfl | hl
      · exact h
      · cases mem_singleton.1 hl
        decide
    ended := fun l hl => by
      cases mem_singleton.1 hl
      rfl
    nonempty := fun l hl he => by
      rcases mem_cons.1 hl with rfl | hl
      · cases he
      · cases mem_singleton.1 hl
        cases he }
  other_isFile := show IsFile [⟨"keep".toList, true⟩, ⟨"new".toList, true⟩] from ⟨by decide, by decide, by decide⟩
  anchored := fun h hh => by
    cases mem_singleton.1 hh
    exact .inl (by simp [baseLines, Op.base])
  followed := fun h hh => by cases hh

theorem addOnly_sound_swap : (swapScript "old" (by decide)).base.length < 2 ^ 63 ∧
    (ReadsRight (swapScript "old" (by decide)) ↔
      (∃ l ∈ visible (swapScript "old" (by decide)), isDeletion l = true) ∨
        (visible (swapScript "old" (by decide))).filterMap takenAddition = [] ∨ PlainAdds (swapScript "old" (by decide))) := by
  have hl : (swapScript "old" (by decide)).base.length < 2 ^ 63 := by decide
  exact ⟨hl, addOnly_sound_iff _ hl⟩

/-- **A deleted line that begins with two dashes is not seen**: the diff of `-- old comment`, `keep` and `keep`, `new` is taken
for one that only adds. -/
theorem deleted_comment_unseen : ¬ ReadsRight (swapScript "-- old comment" (by decide)) := by
  intro hright
  have hparse : parseUnifiedDiffAddOnly (swapScript "-- old comment" (by decide)).text
      = .ok (some [⟨0, ["new".toList]⟩]) := by rfl
  exact (hright _ hparse).1 ⟨"-- old comment".toList, true⟩ (by decide)

end Jamsesh.Automerger
