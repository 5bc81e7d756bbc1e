import Mathlib.Data.List.Induction
import Mathlib.Data.List.Nodup
/-!
# BottomUp — values that are handed up a forest

A loop over a forest, children before parents: each node has gathered all of its children when its turn comes
(`gathered_turn`), so the values are the one solution of "the value of a node from those of its children" (`exists_values`).
-/
namespace Jamsesh.BottomUp

open List

variable {N V E : Type} [DecidableEq N] (parent : N → Option N) (entry : N → V → E)

def children (l : List N) (n : N) : List N := l.filter (fun c => parent c = some n)

def handUp (held : N → List E) (n : N) (v : V) : N → List E :=
  match parent n with
  | none => held
  | some p => fun m => if m = p then held m ++ [entry n v] else held m

def gathered (held : N → List E) (l : List N) (value : N → V) (n : N) : List E :=
  held n ++ (children parent l n).map (fun c => entry c (value c))

def ChildrenFirst (l : List N) : Prop := ∀ pre n post, l = pre ++ n :: post → ∀ c ∈ n :: post, parent c ≠ some n

variable {parent entry} {held : N → List E} {l pre post : List N} {value : N → V} {n : N}

theorem mem_children {c : N} : c ∈ children parent l n ↔ c ∈ l ∧ parent c = some n := by
  rw [children, mem_filter, decide_eq_true_eq]

theorem gathered_nil : gathered parent entry held [] value = held := by
  funext n
  exact append_nil _

theorem handUp_gathered :
    handUp parent entry (gathered parent entry held pre value) n (value n) = gathered parent entry held (pre ++ [n]) value := by
  funext m
  unfold handUp gathered children
  rw [filter_append, map_append, ← append_assoc]
  cases hp : parent n with
  | none => simp [hp]
  | some p =>
    dsimp only
    by_cases hm : m = p
    · rw [if_pos hm, hm]
      simp [hp]
    · rw [if_neg hm]
      simp [hp, Ne.symm hm]

theorem gathered_turn (h : ChildrenFirst parent l) (hl : l = pre ++ n :: post) :
    gathered parent entry held pre value n = gathered parent entry held l value n := by
  have hlater : (n :: post).filter (fun c => parent c = some n) = [] :=
    filter_eq_nil_iff.2 (fun c hc => by simpa using h pre n post hl c hc)
  have hchildren : children parent l n = children parent pre n := by
    rw [children, hl, filter_append, hlater, append_nil, children]
  rw [gathered, gathered, hchildren]

theorem gathered_congr {value' : N → V} (h : ∀ c ∈ children parent l n, value c = value' c) :
    gathered parent entry held l value n = gathered parent entry held l value' n := by
  unfold gathered
  rw [map_congr_left (fun c hc => by rw [h c hc])]

omit [DecidableEq N] in
theorem childrenFirst_of_pairwise {r : N → N → Prop} (hr : ∀ n, r n n) (hl : l.Pairwise r)
    (h : ∀ c ∈ l, ∀ n, parent c = some n → ¬ r n c) : ChildrenFirst parent l := by
  rintro pre n post rfl c hc hp
  refine h c (mem_append_right pre hc) n hp ?_
  rcases mem_cons.1 hc with rfl | hc
  · exact hr c
  · exact (pairwise_cons.1 (pairwise_append.1 hl).2.1).1 c hc

omit [DecidableEq N] in
theorem ChildrenFirst.of_append (h : ChildrenFirst parent (l ++ post)) : ChildrenFirst parent l := by
  rintro pre n rest rfl c hc
  refine h pre n (rest ++ post) (by simp) c ?_
  rcases mem_cons.1 hc with rfl | hc
  · exact mem_cons_self
  · exact mem_cons_of_mem n (mem_append_left post hc)

omit [DecidableEq N] in
theorem ChildrenFirst.last {x : N} (h : ChildrenFirst parent (l ++ [x])) (hn : n ∈ l ++ [x]) : parent x ≠ some n := by
  rcases mem_append.1 hn with hnl | hnx
  · obtain ⟨pre, post, rfl⟩ := append_of_mem hnl
    refine h pre n (post ++ [x]) (by simp) x ?_
    exact mem_cons_of_mem n (mem_append_right post mem_cons_self)
  · cases mem_singleton.1 hnx
    exact h l n [] rfl n mem_cons_self

theorem exists_values [Nonempty V] (eval : N → List E → V) (l : List N) :
    ChildrenFirst parent l → l.Nodup → ∃ value : N → V, ∀ n ∈ l, value n = eval n (gathered parent entry held l value n) := by
  induction l using List.reverseRecOn with
  | nil => exact fun _ _ => ⟨fun _ => Classical.arbitrary V, fun n hn => by cases hn⟩
  | append_singleton l x ih =>
    intro hf hnodup
    obtain ⟨value, hv⟩ := ih hf.of_append hnodup.of_append_left
    have hx : x ∉ l := fun hx => (nodup_append.1 hnodup).2.2 x hx x mem_cons_self rfl
    refine ⟨Function.update value x (eval x (gathered parent entry held (l ++ [x]) value x)), fun n hn => ?_⟩
    have ho : ∀ c ∈ children parent (l ++ [x]) n,
        Function.update value x (eval x (gathered parent entry held (l ++ [x]) value x)) c = value c := by
      intro c hc
      refine Function.update_of_ne ?_ _ _
      rintro rfl
      exact hf.last hn (mem_children.1 hc).2
    rw [gathered_congr ho]
    rcases mem_append.1 hn with hnl | hnx
    · have hchildren : children parent (l ++ [x]) n = children parent l n := by
        rw [children, filter_append, children]
        simp [hf.last hn]
      have hne : n ≠ x := fun h => hx (h ▸ hnl)
      rw [Function.update_of_ne hne, hv n hnl, gathered, gathered, hchildren]
    · rw [mem_singleton.1 hnx, Function.update_self]

end Jamsesh.BottomUp
