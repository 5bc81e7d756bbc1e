import Mathlib.Data.List.Sort
/-!
# HashRing — a sorted list walked as a ring

A lookup goes to the first node at or past a place, or else to the first of all, and a walk goes once around
(`turned`).  Leaving nodes out of the list leaves them out of the walk (`turned_filter`, `head?_turned_filter`).
-/
namespace Jamsesh.HashRing

open List

variable {N : Type}

/-! ## The walk -/

/-- The ring from a place on; `past` says which nodes are at or past it. -/
def turned (past : N → Bool) (l : List N) : List N := l.filter past ++ l.filter (fun v => !past v)

def place (past : N → Bool) (l : List N) : Nat := if l.findIdx past = l.length then 0 else l.findIdx past

def Upward (past : N → Bool) (l : List N) : Prop := l.Pairwise (fun v w => past v = true → past w = true)

variable {past : N → Bool} {l : List N}

theorem split_at_place (h : Upward past l) :
    l.drop (l.findIdx past) = l.filter past ∧ l.take (l.findIdx past) = l.filter (fun v => !past v) := by
  induction l with
  | nil => exact ⟨rfl, rfl⟩
  | cons v l ih =>
    obtain ⟨hv, hl⟩ := pairwise_cons.1 h
    by_cases hp : past v = true
    · have ha : ∀ w ∈ v :: l, past w = true := forall_mem_cons.2 ⟨hp, fun w hw => hv w hw hp⟩
      rw [findIdx_cons, hp, cond_true, drop_zero, take_zero, filter_eq_self.2 ha]
      exact ⟨rfl, (filter_eq_nil_iff.2 fun w hw => by simp [ha w hw]).symm⟩
    have hp' : past v = false := by simpa using hp
    obtain ⟨hd, ht⟩ := ih hl
    rw [findIdx_cons, hp', cond_false, drop_succ_cons, take_succ_cons, hd, ht,
      filter_cons_of_neg (by simp [hp']), filter_cons_of_pos (by simp [hp'])]
    exact ⟨rfl, rfl⟩

theorem turned_eq (h : Upward past l) : l.drop (place past l) ++ l.take (place past l) = turned past l := by
  obtain ⟨hd, ht⟩ := split_at_place h
  unfold place turned
  split
  · rename_i he
    rw [he, drop_length] at hd
    rw [he, take_length] at ht
    rw [← hd, ← ht, drop_zero, take_zero, append_nil, nil_append]
  · rw [hd, ht]

theorem turned_filter (p : N → Bool) : turned past (l.filter p) = (turned past l).filter p := by
  unfold turned
  rw [filter_append, filter_comm, filter_comm _ (fun v => !past v)]

theorem head?_turned_filter (p : N → Bool) : (turned past (l.filter p)).head? = (turned past l).find? p := by
  rw [turned_filter, List.head?_filter]

theorem mem_turned {v : N} : v ∈ turned past l ↔ v ∈ l := by
  unfold turned
  rw [mem_append, mem_filter, mem_filter]
  cases past v <;> simp

/-! ## Sorting -/

variable (le : N → N → Prop) [DecidableRel le] [IsTrans N le]

theorem filter_orderedInsert {p : N → Bool} (v : N) : ∀ {l : List N}, l.Pairwise le →
    (l.orderedInsert le v).filter p = if p v then (l.filter p).orderedInsert le v else l.filter p
  | [], _ => by
    cases hp : p v <;> simp [hp]
  | w :: l, h => by
    obtain ⟨hw, hl⟩ := pairwise_cons.1 h
    have ih := filter_orderedInsert (p := p) v hl
    by_cases hvw : le v w
    · -- `v` comes first, and before everything that is left of the rest
      have hf : ∀ u ∈ (w :: l).filter p, le v u := fun u hu => by
        rcases mem_cons.1 (mem_filter.1 hu).1 with rfl | hu
        · exact hvw
        · exact IsTrans.trans v w u hvw (hw u hu)
      rw [orderedInsert_cons_of_le le l hvw, filter_cons]
      generalize (w :: l).filter p = rest at hf
      split
      · cases rest with
        | nil => rfl
        | cons u rest => rw [orderedInsert_cons_of_le le rest (hf u mem_cons_self)]
      · rfl
    · rw [orderedInsert_of_not_le le l hvw, filter_cons, filter_cons, ih]
      by_cases hpw : p w = true
      · rw [if_pos hpw, if_pos hpw]
        split
        · rw [orderedInsert_of_not_le le _ hvw]
        · rfl
      · rw [if_neg hpw, if_neg hpw]

theorem filter_insertionSort [Std.Total le] (p : N → Bool) (l : List N) :
    (l.insertionSort le).filter p = (l.filter p).insertionSort le := by
  induction l with
  | nil => rfl
  | cons v l ih =>
    rw [insertionSort_cons, filter_orderedInsert le v (pairwise_insertionSort le l), ih, filter_cons]
    split
    · rw [insertionSort_cons]
    · rfl

end Jamsesh.HashRing
