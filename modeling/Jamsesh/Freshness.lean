import Jamsesh.Tenure
/-!
# Freshness — requests that open the copy of their pod (`sessions`, `finalize`, `mcpendpoint`, `automerger`)

Only the git handlers enter a session before they use its copy.  Other requests and the auto-merger open what is on the disk of
their pod, which may be nothing (`repo_missing`) or long left behind.  On the pod that has the session the copy is at least as
new as the manifest (`served_fresh`).
-/
namespace Jamsesh.Cluster

open Machine

variable {C : Type}

/-- **Some refs are at least as new as others**: every ref of those is there, and was not moved earlier. -/
def Newer (old new : Refs C) : Prop :=
  ∀ r tip, old.lookup r = some tip → ∃ tip', new.lookup r = some tip' ∧ tip.moved ≤ tip'.moved

theorem Newer.refl (refs : Refs C) : Newer refs refs := fun _ tip h => ⟨tip, h, le_refl _⟩

theorem Newer.trans {old refs new : Refs C} (h : Newer old refs) (h' : Newer refs new) : Newer old new := by
  intro r tip ht
  obtain ⟨tip₁, ht₁, hle⟩ := h r tip ht
  obtain ⟨tip₂, ht₂, hl'⟩ := h' r tip₁ ht₁
  exact ⟨tip₂, ht₂, hle.trans hl'⟩

def Stamped (now : Nat) (refs : Refs C) : Prop := ∀ e ∈ refs, e.2.moved ≤ now

theorem Stamped.mono {now now' : Nat} {refs : Refs C} (h : Stamped now refs) (hle : now ≤ now') : Stamped now' refs :=
  fun e he => (h e he).trans hle

theorem Stamped.append {now : Nat} {refs refs' : Refs C} (h : Stamped now refs) (h' : Stamped now refs') :
    Stamped now (refs ++ refs') :=
  List.forall_mem_append.2 ⟨h, h'⟩

theorem Stamped.advance {now now' : Nat} {c : Copy C} (h : Stamped now' c.refs) (hle : now ≤ now') (moves : List (Ref × C))
    (added : List C) : Stamped now' (c.advance moves added now).refs := by
  refine Stamped.append (fun e he => ?_) h
  obtain ⟨u, -, rfl⟩ := List.mem_map.1 he
  exact hle

theorem newer_advance {now : Nat} {c : Copy C} (h : Stamped now c.refs) (moves : List (Ref × C)) (added : List C) :
    Newer c.refs (c.advance moves added now).refs := by
  intro r tip ht
  have hle : tip.moved ≤ now := by
    obtain ⟨_, _, heq, -⟩ := List.lookup_eq_some_iff.1 ht
    exact h (r, tip) (by rw [heq]; simp)
  obtain hs | ⟨u, -, -, hu⟩ := lookup_advance ht moves added now
  · exact ⟨tip, hs, le_refl _⟩
  · exact ⟨_, hu, hle⟩

theorem newer_hydrated (s : State C) (old : Option (Copy C)) : Newer s.savedRefs (s.hydrated old).refs := by
  intro r tip ht
  unfold State.savedRefs at ht
  unfold State.hydrated
  cases hm : s.manifest with
  | none =>
    rw [hm] at ht
    cases ht
  | some m =>
    rw [hm] at ht
    refine ⟨tip, ?_, le_refl _⟩
    rw [List.lookup_append, show m.refs.lookup r = some tip from ht, Option.some_or]

theorem stamped_hydrated {s : State C} {now : Nat} {old : Option (Copy C)} (h : Stamped now s.savedRefs)
    (hold : ∀ c, old = some c → Stamped now c.refs) : Stamped now (s.hydrated old).refs := by
  have hg : Stamped now (old.getD ⟨[], []⟩).refs := by
    cases old with
    | none => exact fun _ he => (List.not_mem_nil he).elim
    | some c => exact hold c rfl
  unfold State.savedRefs at h
  unfold State.hydrated
  cases hm : s.manifest with
  | none => exact hg
  | some =>
    rw [hm] at h
    exact Stamped.append h hg

/-! ## The property and the condition -/

def Act.opens : Act C → Option Nat
  | .merge p _ _ _ => some p
  | .fork p _ _ => some p
  | .read p => some p
  | _ => none

/-- **A request is served from a copy that is at least as new as the manifest**, where there is one. -/
def Fresh (s : State C) (a : Act C) : Prop :=
  ∀ p ∈ a.opens, ∀ m ∈ s.manifest, ∃ c ∈ (s.pods p).copy, Newer m.refs c.refs

/-- **Requests go to the pod that has the session**, and the hand-offs are orderly. -/
def Served (s : State C) (a : Act C) : Prop := (∀ p ∈ a.opens, s.Holds p) ∧ s.Orderly a

instance (s : State C) (a : Act C) : Decidable (Served s a) := inferInstanceAs (Decidable (_ ∧ s.Orderly a))

/-! ## The copy of the pod that has the session -/

def Sync.Fresh (s : State C) (y : Sync C) : Prop :=
  Stamped s.clock y.refs ∧ y.gen ≤ (s.pods y.up.push.pod).gen ∧ (y.gen = (s.pods y.up.push.pod).gen →
    ∃ c, (s.pods y.up.push.pod).copy = some c ∧ Newer y.refs c.refs)

def Job.Fresh (s : State C) : Job C → Prop
  | .read y => y.Fresh s
  | .checked y => y.Fresh s
  | _ => True

/-- The refs of the pod that has the session are at least as new as those of the manifest. -/
structure Ahead (s : State C) : Prop where
  tracked : Tracked s
  copies : ∀ p c, (s.pods p).copy = some c → Stamped s.clock c.refs
  manifest : Stamped s.clock s.savedRefs
  jobs : ∀ j, (s.jobs j).Fresh s
  newer : ∀ p, s.Holds p → ∃ c, (s.pods p).copy = some c ∧ Newer s.savedRefs c.refs

variable [DecidableEq C] {parents : C → List C} {s s' : State C} {a : Act C}

section
variable (hs : Ahead s) (h : Did parents s a s')
include hs h

theorem Ahead.copy_newer {p : Nat} {c : Copy C} (hc : (s.pods p).copy = some c)
    (hg : (s'.pods p).gen = (s.pods p).gen) : ∃ c', (s'.pods p).copy = some c' ∧ Newer c.refs c'.refs := by
  cases h.grows p with
  | same hcopy => exact ⟨c, hcopy.trans hc, .refl _⟩
  | moved _ moves added hc₀ _ hcopy =>
    rw [hc] at hc₀
    cases hc₀
    exact ⟨_, hcopy, newer_advance (hs.copies p c hc) moves added⟩
  | replaced => omega

theorem Ahead.sync_fresh {y : Sync C} (hy : y.Fresh s) : y.Fresh s' := by
  obtain ⟨hstamped, hle, hnewer⟩ := hy
  have hg := (h.grows y.up.push.pod).gen_le
  refine ⟨hstamped.mono h.clock_le, hle.trans hg, fun _ => ?_⟩
  obtain ⟨c, hc, hcn⟩ := hnewer (by omega)
  obtain ⟨c', hc', hn⟩ := hs.copy_newer h hc (by omega)
  exact ⟨c', hc', hcn.trans hn⟩

theorem Ahead.job_fresh {x : Job C} (hx : x.Fresh s) : x.Fresh s' := by
  cases x with
  | read | checked => exact hs.sync_fresh h hx
  | _ => trivial

theorem Ahead.jobs_fresh (i : Nat) : (s'.jobs i).Fresh s' := by
  obtain heq | hp := h.progress i
  · rw [heq]
    exact hs.job_fresh h (hs.jobs i)
  have hi := hs.jobs i
  generalize s.jobs i = x, s'.jobs i = x' at hp hi
  cases hp with
  | next _ _ hx =>
    refine hs.job_fresh h ?_
    cases hx with
    | read _ c hc => exact ⟨hs.copies _ c hc, le_refl _, fun _ => ⟨c, hc, .refl _⟩⟩
    | checked => exact hi
    | _ => trivial
  | _ => trivial

end

theorem Ahead.step (hs : Ahead s) (ho : s.Orderly a) (h : Did parents s a s') : Ahead s' where
  tracked := hs.tracked.step ho h
  copies := by
    refine h.copies (fun _ he => (List.not_mem_nil he).elim) (fun _ hold => ?_)
      (fun p c moves added _ hc => hc.advance h.clock_le moves added) (fun p c hc => (hs.copies p c hc).mono h.clock_le)
    exact stamped_hydrated (hs.manifest.mono h.clock_le) hold
  manifest := by
    obtain ⟨j, y, _, -, hj, hsaved⟩ | ⟨hm, -⟩ := h.saves
    · have hy := hs.jobs j
      rw [hj] at hy
      rw [hsaved.savedRefs]
      exact hy.1.mono h.clock_le
    · rw [State.savedRefs, hm]
      exact hs.manifest.mono h.clock_le
  jobs := hs.jobs_fresh h
  newer p hp := by
    obtain hp₀ | hent := h.holds hs.tracked.issued ho hp
    · obtain ⟨c, hc, hnewer⟩ := hs.newer p hp₀
      have hg := h.gen_eq hs.tracked.issued ho (by simp [hc]) hp₀
      obtain ⟨c', hc', hn⟩ := hs.copy_newer h hc hg
      refine ⟨c', hc', ?_⟩
      obtain ⟨j, y, _, rfl, hj, hsaved⟩ | ⟨hm, -⟩ := h.saves
      · -- the save is of the copy that this pod has
        have hcur : s.Current y := ho rfl y (by rw [hj]; rfl)
        obtain rfl : p = y.up.push.pod := hp₀.unique hcur.1
        have hy := hs.jobs j
        rw [hj] at hy
        obtain ⟨_, hc₀, hn₀⟩ := hy.2.2 hcur.2
        rw [hc] at hc₀
        cases hc₀
        rw [hsaved.savedRefs]
        exact hn₀.trans hn
      · rw [State.savedRefs, hm]
        exact hnewer.trans hn
    · refine ⟨_, hent.copy, ?_⟩
      rw [State.savedRefs, hent.manifest]
      exact newer_hydrated s _

omit [DecidableEq C] in
theorem ahead_start : Ahead (start C) where
  tracked := tracked_start
  copies _ _ h := by cases h
  manifest _ h := (List.not_mem_nil h).elim
  jobs _ := trivial
  newer _ h := by
    obtain ⟨e, he, -⟩ := h
    cases he

/-- **Requests are served from fresh copies**: where they go to the pod that has the session, and the hand-offs are orderly,
every request finds a copy at least as new as the manifest. -/
theorem served_fresh (parents : C → List C) (acts : List (Act C))
    (hok : Along (State.step parents) Served (start C) acts) :
    Along (State.step parents) Fresh (start C) acts := by
  refine along_of_invariant (fun _ _ _ hs ha hstep => hs.step ha.2 (did_of_step hstep))
    (fun s a hs ha p hp m hm => ?_) ahead_start hok
  obtain ⟨c, hc, hn⟩ := hs.newer p (ha.1 p hp)
  rw [State.savedRefs, hm] at hn
  exact ⟨c, hc, hn⟩

def based : List (Act Nat) :=
  [.create 0, .lease 0, .hydrate 0 1 true,
    .request 0 0, .receive 0 [(.base, 1)] [1], .emit 0 [], .handle 0, .load 0, .upload 0, .readRefs 0, .check 0, .put 0 true true]

theorem served_fresh_based :
    ((exec (State.step fun _ => []) (start Nat) (based ++ [.read 0, .fork 0 ['w'] 1])).map
      (fun s => s.manifest.isSome)) = some true ∧
    Along (State.step fun _ => []) Fresh (start Nat) (based ++ [.read 0, .fork 0 ['w'] 1]) :=
  ⟨by decide, served_fresh _ _ (by decide)⟩

/-- **A clean pod has nothing that object storage lacks**: where hand-offs are orderly, the refs of the pod that has the session
are those of the manifest, and its commits are uploaded. -/
theorem clean_saved {parents : C → List C} {acts : List (Act C)} {s : State C}
    (hok : Along (State.step parents) State.Orderly (start C) acts)
    (hrun : exec (State.step parents) (start C) acts = some s) {p : Nat} (hp : s.Holds p) (hc : s.Clean p) :
    ∃ c, (s.pods p).copy = some c ∧ c.refs = s.savedRefs ∧ c.commits ⊆ s.stored :=
  (invariant (fun _ _ _ hI ho hs => Tracked.step hI ho (did_of_step hs)) tracked_start hok hrun).clean p hp hc

theorem clean_saved_based : ∃ s, exec (State.step fun _ => []) (start Nat) based = some s ∧
    ∃ c, (s.pods 0).copy = some c ∧ c.refs = s.savedRefs ∧ c.commits ⊆ s.stored := by
  have hr : exec (State.step fun _ => []) (start Nat) based = some _ := rfl
  exact ⟨_, hr, clean_saved (by decide) hr (by decide) (by decide)⟩

/-- **A request finds no repository.**  The base is saved, and a request on another pod lists the refs of a repository that
is not there. -/
theorem repo_missing : ∃ s, exec (State.step fun _ => []) (start Nat) based = some s ∧ s.manifest.isSome ∧
    (s.pods 1).copy = none ∧ ¬ Fresh s (.read 1) := by
  refine ⟨_, rfl, rfl, rfl, fun h => ?_⟩
  obtain ⟨c, hc, -⟩ := h 1 rfl _ rfl
  cases hc

end Jamsesh.Cluster
