import Jamsesh.Tenure
/-!
# Survival — merges, and the copies in which they were made (`automerger/outcomes.go`, `objectstore/lifecycle.go`)

The auto-merger moves the draft in the copy of its pod; object storage gets it with the next push that syncs this copy, and a
release does not look whether there was one (`merge_lost`).  Merges survive where the auto-merger works on the pod that has the
session, and a pod parts with it only when its copy is saved (`merges_survive`).
-/
namespace Jamsesh.Cluster

open List Machine

variable {C : Type} {parents : C → List C}

def Behind (parents : C → List C) (refs : Refs C) (commits xs : List C) : Prop :=
  ∀ x ∈ xs, ∃ tip, refs.lookup .draft = some tip ∧ ReachesIn parents commits tip.commit x

theorem Behind.mono {refs : Refs C} {commits commits' xs : List C} (h : Behind parents refs commits xs)
    (hs : commits ⊆ commits') : Behind parents refs commits' xs := by
  intro x hx
  obtain ⟨tip, ht, hr⟩ := h x hx
  exact ⟨tip, ht, hr.mono hs⟩

theorem Behind.hydrated {s : State C} {xs : List C} (h : Behind parents s.savedRefs s.stored xs) (old : Option (Copy C)) :
    Behind parents (s.hydrated old).refs (s.hydrated old).commits xs := by
  intro x hx
  obtain ⟨tip, ht, hr⟩ := h x hx
  unfold State.savedRefs at ht
  unfold State.hydrated
  cases hm : s.manifest with
  | none =>
    rw [hm] at ht
    cases ht
  | some m =>
    rw [hm] at ht
    refine ⟨tip, ?_, hr.mono (subset_append_left _ _)⟩
    rw [lookup_append, show m.refs.lookup .draft = some tip from ht, Option.some_or]

variable [DecidableEq C] {s s' : State C} {a : Act C}

theorem Moves.behind {p now : Nat} {c : Copy C} {moves : List (Ref × C)} {added xs : List C}
    (h : Moves parents p c a moves added) (hc : Behind parents c.refs c.commits xs) :
    Behind parents (c.advance moves added now).refs (c.advance moves added now).commits xs := by
  intro x hx
  obtain ⟨tip, ht, hr⟩ := hc x hx
  have hr' := hr.mono (subset_append_left c.commits added)
  cases h with
  | push j _ _ ha =>
    refine ⟨tip, ?_, hr'⟩
    rw [seed_eq_nil ht, nil_append, lookup_advance_of_ne (fun u hu => (ha.2 u hu).1), ht]
  | merge _ _ merged _ ht' _ hp =>
    rw [ht] at ht'
    cases ht'
    -- the draft that was there is a parent of the new one
    refine ⟨⟨merged, now⟩, rfl, .of_parent (by simp [Copy.advance]) ?_ hr'⟩
    rw [hp]
    exact mem_cons_self
  | fork =>
    refine ⟨tip, ?_, hr'⟩
    rw [lookup_advance_of_ne (fun u hu => by rw [mem_singleton.1 hu]; exact fun h => by cases h), ht]

/-! ## The property and the condition -/

/-- **Every announced merge is behind the draft of a copy that is hydrated.** -/
def Survive (parents : C → List C) (s : State C) (a : Act C) : Prop :=
  ∀ p token s', a = .hydrate p token true → s.step parents a = some s' →
    ∃ c, (s'.pods p).copy = some c ∧ Behind parents c.refs c.commits s.announced

def Act.mergesOn : Act C → Option Nat
  | .merge p _ _ _ => some p
  | _ => none

def State.leaves (s : State C) : Act C → Option Nat
  | .unlease p => some p
  | .lost => s.lease.map Prod.fst
  | _ => none

/-- **Merges are made where the session is, and go to object storage before it leaves**: the pod that lets go of its lease or
loses it has a clean copy. -/
def Handed (s : State C) (a : Act C) : Prop :=
  (∀ p ∈ a.mergesOn, s.Holds p) ∧ (∀ p ∈ s.leaves a, s.Holds p → s.Clean p) ∧ s.Orderly a

instance (s : State C) (a : Act C) : Decidable (Handed s a) := inferInstanceAs (Decidable (_ ∧ _ ∧ s.Orderly a))

/-- The pod that has the session has every announced merge behind its draft; where no pod has it, object storage does. -/
structure Kept (parents : C → List C) (s : State C) : Prop where
  tracked : Tracked s
  held : ∀ p, s.Holds p → ∃ c, (s.pods p).copy = some c ∧ Behind parents c.refs c.commits s.announced
  unheld : (∀ p, ¬ s.Holds p) → Behind parents s.savedRefs s.stored s.announced

section
variable (hk : Kept parents s) (ha : Handed s a) (h : Did parents s a s')
include hk ha h

theorem Kept.held_of_held {p : Nat} (hp : s.Holds p) :
    ∃ c, (s'.pods p).copy = some c ∧ Behind parents c.refs c.commits s'.announced := by
  obtain ⟨c, hc, hb⟩ := hk.held p hp
  have hg := h.gen_eq hk.tracked.issued ha.2.2 (by simp [hc]) hp
  -- what was announced before
  obtain ⟨c', hc', hb'⟩ : ∃ c', (s'.pods p).copy = some c' ∧ Behind parents c'.refs c'.commits s.announced := by
    cases h.grows p with
    | same hcopy => exact ⟨c, hcopy.trans hc, hb⟩
    | moved _ _ _ hc₀ hm hcopy =>
      rw [hc] at hc₀
      cases hc₀
      exact ⟨_, hcopy, hm.behind hb⟩
    | replaced => omega
  refine ⟨c', hc', ?_⟩
  obtain hs | ⟨q, _, _, _, rfl, hann, hcopy⟩ := h.announces
  · rwa [hs]
  obtain rfl : p = q := hp.unique (ha.1 q rfl)
  rw [hc'] at hcopy
  cases hcopy
  rw [hann]
  intro x hx
  obtain rfl | hx := mem_cons.1 hx
  · exact ⟨⟨x, s.clock⟩, rfl, .refl (by simp [Copy.advance])⟩
  · exact hb' x hx

theorem Kept.unheld_of_held {p : Nat} (hp : s.Holds p)
    (hn : ¬ s'.Holds p) : Behind parents s'.savedRefs s'.stored s'.announced := by
  obtain ⟨hact, hm, hst, hann⟩ := h.unheld hk.tracked.issued ha.2.2 hp hn
  have hclean : s.Clean p := by
    refine ha.2.1 p ?_ hp
    obtain rfl | rfl := hact
    · rfl
    · obtain ⟨e, -, -, hl⟩ := hp
      simp [State.leaves, hl]
  obtain ⟨c, hc, hr, hs⟩ := hk.tracked.clean p hp hclean
  obtain ⟨_, hc', hb⟩ := hk.held p hp
  rw [hc] at hc'
  cases hc'
  rw [hann, State.savedRefs, hm, hst]
  exact (hr ▸ hb).mono hs

theorem Kept.step : Kept parents s' where
  tracked := hk.tracked.step ha.2.2 h
  held p hp := by
    obtain hp₀ | he := h.holds hk.tracked.issued ha.2.2 hp
    · exact hk.held_of_held ha h hp₀
    · refine ⟨_, he.copy, ?_⟩
      rw [he.announced]
      exact (hk.unheld he.vacant).hydrated _
  unheld hn := by
    by_cases hh : ∃ p, s.Holds p
    · obtain ⟨p, hp⟩ := hh
      exact hk.unheld_of_held ha h hp (hn p)
    have hnone : ∀ p, ¬ s.Holds p := not_exists.1 hh
    have hb := (hk.unheld hnone).mono h.stored_subset
    have hm : s'.manifest = s.manifest := by
      obtain ⟨j, y, _, rfl, hj, -⟩ | ⟨hm, -⟩ := h.saves
      · exact absurd (ha.2.2 rfl y (by rw [hj]; rfl)).1 (hnone _)
      · exact hm
    have hann : s'.announced = s.announced := by
      obtain hs | ⟨q, -, _, _, rfl, -, -⟩ := h.announces
      · exact hs
      · exact absurd (ha.1 q rfl) (hnone q)
    rw [hann, State.savedRefs, hm]
    exact hb

end

omit [DecidableEq C] in
theorem kept_start : Kept parents (start C) where
  tracked := tracked_start
  held _ h := by
    obtain ⟨e, he, -⟩ := h
    cases he
  unheld _ _ h := (not_mem_nil h).elim

theorem Kept.survive (hk : Kept parents s) (ha : Handed s a) : Survive parents s a := by
  rintro p token _ rfl hs
  have hl : s.lease = some (p, token) := ha.2.2 rfl
  simp only [State.step] at hs
  split at hs
  · rename_i ht
    have hb := hk.unheld (fun q hq => hq.ne_acquiring hk.tracked.issued ht hl)
    refine ⟨_, ?_, hb.hydrated (s.pods p).copy⟩
    simp only [if_true] at hs
    split at hs <;> cases hs <;> simp [Pod.replace]
  · cases hs

/-- **Merges survive**: in every such run with orderly hand-offs, every merge that was announced is behind the draft of every
copy that is hydrated later. -/
theorem merges_survive (parents : C → List C) (acts : List (Act C))
    (hok : Along (State.step parents) Handed (start C) acts) :
    Along (State.step parents) (Survive parents) (start C) acts :=
  along_of_invariant (fun _ _ _ hk ha hs => hk.step ha (did_of_step hs))
    (fun _ _ hk ha => hk.survive ha) kept_start hok

/-- The history of the runs below: a base, a commit on it, and their merge. -/
def history : Nat → List Nat
  | 2 => [1]
  | 3 => [1, 2]
  | _ => []

/-- The base is pushed and saved, and then a commit of a member is pushed and on its way to the auto-merger and to object
storage. -/
def pushed : List (Act Nat) :=
  [.create 0, .lease 0, .hydrate 0 1 true,
    .request 0 0, .receive 0 [(.base, 1)] [1], .emit 0 [], .handle 0, .load 0, .upload 0, .readRefs 0, .check 0, .put 0 true true,
    .request 1 0, .receive 1 [(.user ['w'], 2)] [2], .emit 1 [2]]

def synced : List (Act Nat) := [.handle 1, .load 1, .upload 1, .readRefs 1, .check 1, .put 1 true true]

def handedOver : List (Act Nat) := [.claim 0, .unlease 0, .remove 0 true, .forget 0, .lease 1]

theorem merges_survive_sync : ∃ s, exec (State.step history) (start Nat) (pushed ++ [.merge 0 2 3 true] ++ synced ++
    handedOver ++ [.hydrate 1 2 true]) = some s ∧ s.announced = [3] ∧
      Along (State.step history) (Survive history) (start Nat) (pushed ++ [.merge 0 2 3 true] ++ synced ++
        handedOver ++ [.hydrate 1 2 true]) :=
  ⟨_, rfl, rfl, merges_survive history _ (by decide)⟩

/-- **A merge is lost**: it is made and announced after the sync of the push; the session moves to another pod, whose copy has
the draft without it. -/
theorem merge_lost : ∃ s, exec (State.step history) (start Nat) (pushed ++ synced ++ [.merge 0 2 3 true] ++
    handedOver) = some s ∧ s.announced = [3] ∧ ¬ Survive history s (.hydrate 1 2 true) := by
  refine ⟨_, rfl, rfl, fun h => ?_⟩
  obtain ⟨c, hc, hb⟩ := h 1 2 _ rfl rfl
  cases hc
  obtain ⟨_, ht, hr, -⟩ := hb 3 mem_cons_self
  cases ht
  -- the draft is at the base, which has no parent
  obtain heq | ⟨x, hx, -⟩ := hr.cases_head
  · cases heq
  · exact not_mem_nil hx.2

end Jamsesh.Cluster
