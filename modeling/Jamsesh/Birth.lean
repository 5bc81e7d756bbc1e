import Mathlib.Data.List.Basic
import Mathlib.Data.List.Induction
/-!
# Birth — where the rows of a state come from

A row that a state has was there from the start, or one event brought it and it stayed (`exists_birth`).  So a property of the
event that brought a row holds of every row of every state exactly when it holds of each event that brings one
(`provenance_iff`).
-/
namespace Jamsesh.Birth

open List

variable {S E R : Type} (step : S → E → S) (rows : S → R → Prop)

def run (s : S) (es : List E) : S := es.foldl step s

theorem run_append (s : S) (xs ys : List E) : run step s (xs ++ ys) = run step (run step s xs) ys := foldl_append

theorem run_snoc (s : S) (es : List E) (e : E) : run step s (es ++ [e]) = step (run step s es) e := run_append step s es [e]

def Brings (s : S) (e : E) (r : R) : Prop := ¬ rows s r ∧ rows (step s e) r

def Stays (s : S) (es : List E) (r : R) : Prop := ∀ pre, pre <+: es → rows (run step s pre) r

/-- **The birth of a row**: the event that brought it, after which it stayed. -/
structure BornAt (s : S) (es : List E) (r : R) (pre : List E) (e : E) : Prop where
  split : ∃ post, es = pre ++ e :: post ∧ Stays step rows (step (run step s pre) e) post r
  brings : Brings step rows (run step s pre) e r

theorem Stays.snoc {s : S} {es : List E} {e : E} {r : R} (h : Stays step rows s es r)
    (hl : rows (run step s (es ++ [e])) r) : Stays step rows s (es ++ [e]) r := by
  intro pre hp
  rcases prefix_concat_iff.1 hp with rfl | hp
  · exact hl
  · exact h pre hp

theorem exists_birth (s : S) (es : List E) (r : R) (h : rows (run step s es) r) :
    Stays step rows s es r ∨ ∃ pre e, BornAt step rows s es r pre e := by
  induction es using List.reverseRecOn with
  | nil =>
    left
    intro _ hp
    rw [prefix_nil.1 hp]
    exact h
  | append_singleton es e ih =>
    by_cases hb : rows (run step s es) r
    · rcases ih hb with hs | ⟨pre, e', hborn⟩
      · exact .inl (Stays.snoc step rows hs h)
      obtain ⟨post, hsplit, hs⟩ := hborn.split
      refine .inr ⟨pre, e', ⟨post ++ [e], by rw [hsplit]; simp, ?_⟩, hborn.brings⟩
      refine Stays.snoc step rows hs ?_
      rw [hsplit, append_assoc, cons_append, run_append] at h
      exact h
    · right
      rw [run_snoc] at h
      refine ⟨es, e, ⟨[], rfl, fun _ hp => ?_⟩, hb, h⟩
      rw [prefix_nil.1 hp]
      exact h

theorem BornAt.last {s : S} {es pre : List E} {e e' : E} {r : R} (hb : BornAt step rows s (es ++ [e]) r pre e')
    (ha : ¬ rows (run step s es) r) : pre = es ∧ e' = e := by
  obtain ⟨post, hs, hstay⟩ := hb.split
  rcases eq_nil_or_concat' post with rfl | ⟨post, x, rfl⟩
  · have := append_inj' hs rfl
    exact ⟨this.1.symm, (List.cons.inj this.2).1.symm⟩
  have hes : es = pre ++ e' :: post := by
    rw [← cons_append, ← append_assoc] at hs
    exact (append_inj' hs rfl).1
  refine absurd ?_ ha
  rw [hes, run_append]
  exact hstay post (prefix_append post [x])

theorem provenance_iff (good : S → E → R → Prop) (s : S) (es : List E) :
    (∀ path, path <+: es → ∀ r, rows (run step s path) r → Stays step rows s path r ∨
        ∃ pre e, BornAt step rows s path r pre e ∧ good (run step s pre) e r) ↔
      ∀ pre e post, es = pre ++ e :: post → ∀ r, Brings step rows (run step s pre) e r → good (run step s pre) e r := by
  constructor
  · rintro ha pre e post rfl r hbrings
    have hp : pre ++ [e] <+: pre ++ e :: post := by simp
    have hrow : rows (run step s (pre ++ [e])) r := by
      rw [run_snoc]
      exact hbrings.2
    rcases ha _ hp r hrow with hs | ⟨_, _, hb, hg⟩
    · exact absurd (hs pre (prefix_append pre [e])) hbrings.1
    · obtain ⟨rfl, rfl⟩ := hb.last step rows hbrings.1
      exact hg
  · rintro hg path ⟨rest, rfl⟩ r hr
    rcases exists_birth step rows s path r hr with hs | ⟨pre, e, hb⟩
    · exact .inl hs
    · obtain ⟨post, rfl, -⟩ := hb.split
      exact .inr ⟨pre, e, hb, hg pre e (post ++ rest) (by simp) r hb.brings⟩

end Jamsesh.Birth
