import Mathlib.Data.List.Basic
/-!
# Machine — runs of guarded actions, and what holds along them

A machine takes an action in a state or refuses it.  A run is a list of actions that it takes (`exec`), and `Along` says that
each meets a condition where it is taken.  What holds at the start and is kept by every such action holds in every state of the
run (`invariant`).
-/
namespace Jamsesh.Machine

variable {S A : Type}

def exec (step : S → A → Option S) : S → List A → Option S
  | s, [] => some s
  | s, a :: as => (step s a).bind (fun s' => exec step s' as)

def Along (step : S → A → Option S) (ok : S → A → Prop) : S → List A → Prop
  | _, [] => True
  | s, a :: as => ok s a ∧ ∀ s', step s a = some s' → Along step ok s' as

variable {step : S → A → Option S} {ok : S → A → Prop} {s s' : S} {a : A} {as : List A}

theorem exec_cons : exec step s (a :: as) = some s' ↔ ∃ s₁, step s a = some s₁ ∧ exec step s₁ as = some s' :=
  Option.bind_eq_some_iff

theorem exec_append (as as' : List A) : exec step s (as ++ as') = (exec step s as).bind (fun s' => exec step s' as') := by
  induction as generalizing s with
  | nil => rfl
  | cons a _ ih =>
    rw [List.cons_append, exec, exec, Option.bind_assoc]
    simp only [ih]

theorem Along.cons_of_step {s₁ : S} (ha : ok s a) (hs₁ : step s a = some s₁) (h : Along step ok s₁ as) :
    Along step ok s (a :: as) := by
  refine ⟨ha, fun _ hs₂ => ?_⟩
  rw [hs₁] at hs₂
  cases hs₂
  exact h

theorem invariant {I : S → Prop} (hs : ∀ s a s', I s → ok s a → step s a = some s' → I s') (hI : I s)
    (hok : Along step ok s as) (hr : exec step s as = some s') : I s' := by
  induction as generalizing s with
  | nil =>
    cases hr
    exact hI
  | cons a _ ih =>
    obtain ⟨s₁, hs₁, hr⟩ := exec_cons.1 hr
    exact ih (hs s a s₁ hI hok.1 hs₁) (hok.2 s₁ hs₁) hr

theorem along_forall {p : A → Prop} (hp : ∀ a ∈ as, p a) : Along step (fun _ a => p a) s as := by
  induction as generalizing s with
  | nil => trivial
  | cons a _ ih =>
    obtain ⟨ha, hp⟩ := List.forall_mem_cons.1 hp
    exact ⟨ha, fun _ _ => ih hp⟩

theorem always {I : S → Prop} (hstep : ∀ s a s', I s → step s a = some s' → I s') (hI : I s)
    (hr : exec step s as = some s') : I s' :=
  invariant (fun s a s' hI _ hs => hstep s a s' hI hs) hI (along_forall fun _ _ => trivial) hr

/-- **Some action is enough**: where each of the actions keeps `I`, one of them takes `I` to `J`, and nothing takes `J` away. -/
theorem reaches {I J : S → Prop} {q p : A → Prop} (hI : ∀ s a s', q a → I s → step s a = some s' → I s')
    (hgo : ∀ s a s', q a → p a → I s → step s a = some s' → J s') (hJ : ∀ s a s', J s → step s a = some s' → J s')
    (hs : I s) (hq : ∀ a ∈ as, q a) (hp : ∃ a ∈ as, p a) (hr : exec step s as = some s') : J s' := by
  induction as generalizing s with
  | nil =>
    obtain ⟨a, ha, -⟩ := hp
    cases ha
  | cons a as ih =>
    obtain ⟨s₁, hs₁, hr⟩ := exec_cons.1 hr
    obtain ⟨ha, hq⟩ := List.forall_mem_cons.1 hq
    rcases (List.exists_mem_cons_iff p a as).1 hp with hp | hp
    · exact always hJ (hgo s a s₁ ha hp hs hs₁) hr
    · exact ih (hI s a s₁ ha hs hs₁) hq hp hr

theorem along_of_invariant {I : S → Prop} {ok' : S → A → Prop} (hs : ∀ s a s', I s → ok s a → step s a = some s' → I s')
    (ho' : ∀ s a, I s → ok s a → ok' s a) (hI : I s) (hok : Along step ok s as) : Along step ok' s as := by
  induction as generalizing s with
  | nil => trivial
  | cons a _ ih => exact ⟨ho' s a hI hok.1, fun s₁ hs₁ => ih (hs s a s₁ hI hok.1 hs₁) (hok.2 s₁ hs₁)⟩

theorem Along.and_forall {p : A → Prop} (hok : Along step ok s as) (hp : ∀ a ∈ as, p a) :
    Along step (fun s a => ok s a ∧ p a) s as := by
  induction as generalizing s with
  | nil => trivial
  | cons a _ ih =>
    obtain ⟨ha, hp⟩ := List.forall_mem_cons.1 hp
    exact ⟨⟨hok.1, ha⟩, fun s₁ hs₁ => ih (hok.2 s₁ hs₁) hp⟩

instance decidableAlong [h : ∀ s a, Decidable (ok s a)] : ∀ (s : S) (as : List A), Decidable (Along step ok s as)
  | _, [] => isTrue trivial
  | s, a :: as =>
    match hs : step s a with
    | none => decidable_of_iff (ok s a) (by simp [Along, hs])
    | some s₁ =>
      have := decidableAlong s₁ as
      decidable_of_iff (ok s a ∧ Along step ok s₁ as) (by simp [Along, hs])

end Jamsesh.Machine
