import Jamsesh.Tenure
/-!
# Retry — a push whose sync failed, and what its client is told later (`githttp`, `postreceive`, `objectstore/sync.go`)

Where the sync of a push fails the client gets an error, but the refs of the pod stay moved: a client that tries again has
nothing to push (`retry_up_to_date`).  A client that is told of success has its commits in object storage where the advertised
copy is clean, a save is of a copy that did not change meanwhile, and no fork takes a ref back (`told_saved`).
-/
namespace Jamsesh.Cluster

open List Machine

variable {C : Type}

def Copy.Whole (c : Copy C) : Prop := ∀ e ∈ c.refs, e.2.commit ∈ c.commits

def State.Stores (parents : C → List C) (s : State C) (x : C) : Prop :=
  ∃ r tip, s.savedRefs.lookup r = some tip ∧ ReachesIn parents s.stored tip.commit x

/-- **What a client is told is so**: every commit of a push that is answered with 200, and a commit that is up-to-date, is in
the saved manifest's reachable set. -/
def Honest [DecidableEq C] (parents : C → List C) (s : State C) (a : Act C) : Prop :=
  (∀ j saved told s' push, a = .put j saved told → s.step parents a = some s' → s'.jobs j = .acked push →
    ∀ u ∈ push.updates, s'.Stores parents u.2) ∧
  ∀ p r x, a = .upToDate p r x → (s.step parents a).isSome → s.Stores parents x

/-- A sync has uploaded and read one version of the copy in which its push moved the refs. -/
def State.AtOnce (s : State C) (y : Sync C) : Prop :=
  y.up.version = y.version ∧ y.up.push.gen = (s.pods y.up.push.pod).gen

instance (s : State C) (y : Sync C) : Decidable (s.AtOnce y) := inferInstanceAs (Decidable (_ ∧ _))

def Forward [DecidableEq C] (parents : C → List C) (s : State C) (p : Nat) (name : Text) (target : C) : Prop :=
  ∀ c ∈ (s.pods p).copy, ∀ old ∈ c.refs.lookup (.user name),
    reach parents c.commits c.commits.length target old.commit = true

instance [DecidableEq C] (parents : C → List C) (s : State C) (p : Nat) (name : Text) (target : C) :
    Decidable (Forward parents s p name target) :=
  inferInstanceAs (Decidable (∀ c ∈ (s.pods p).copy, _))

/-- A save is of one version of the copy in which its push moved the refs, a pod that advertises a ref has the session and a
clean copy, and forks go forward. -/
def Timely [DecidableEq C] (parents : C → List C) (s : State C) : Act C → Prop
  | .put j saved _ => saved = true → ∀ y ∈ (s.jobs j).saving, s.AtOnce y
  | .upToDate p _ _ => s.Holds p ∧ s.Clean p
  | .fork p name target => Forward parents s p name target
  | _ => True

instance [DecidableEq C] (parents : C → List C) (s : State C) : ∀ a, Decidable (Timely parents s a)
  | .put j saved _ => inferInstanceAs (Decidable (saved = true → ∀ y ∈ (s.jobs j).saving, s.AtOnce y))
  | .upToDate p _ _ => inferInstanceAs (Decidable (s.Holds p ∧ s.Clean p))
  | .fork p name target => inferInstanceAs (Decidable (Forward parents s p name target))
  | .create _ | .lease _ | .hydrate _ _ _ | .claim _ | .unclaim _ | .unlease _ | .remove _ _ | .forget _ | .lost | .request _ _
  | .receive _ _ _ | .emit _ _ | .handle _ | .load _ | .upload _ | .readRefs _ | .check _ | .fail _ | .merge _ _ _ _
  | .skip _ _ | .read _ => isTrue trivial

/-- **Nothing is told too early**, and the hand-offs are orderly. -/
def Sober [DecidableEq C] (parents : C → List C) (s : State C) (a : Act C) : Prop := s.Orderly a ∧ Timely parents s a

instance [DecidableEq C] (parents : C → List C) (s : State C) (a : Act C) : Decidable (Sober parents s a) :=
  inferInstanceAs (Decidable (_ ∧ _))

/-! ## Copies -/

def Has (parents : C → List C) (refs : Refs C) (commits : List C) (updates : List (Ref × C)) : Prop :=
  ∀ u ∈ updates, ∃ tip, refs.lookup u.1 = some tip ∧ ReachesIn parents commits tip.commit u.2

variable {updates moves : List (Ref × C)} {c : Copy C} {r : Ref} {p : Nat} {added : List C}

theorem Has.mono {parents : C → List C} {refs : Refs C} {commits commits' : List C}
    (h : Has parents refs commits updates) (hs : commits ⊆ commits') : Has parents refs commits' updates := by
  intro u hu
  obtain ⟨tip, ht, hr⟩ := h u hu
  exact ⟨tip, ht, hr.mono hs⟩

theorem Copy.Whole.mem (h : c.Whole) {tip : Tip C} (ht : c.refs.lookup r = some tip) : tip.commit ∈ c.commits := by
  obtain ⟨_, _, heq, -⟩ := lookup_eq_some_iff.1 ht
  exact h (r, tip) (by rw [heq]; simp)

theorem whole_hydrated {s : State C} {old : Option (Copy C)} (h : ∀ e ∈ s.savedRefs, e.2.commit ∈ s.stored)
    (hold : ∀ c, old = some c → c.Whole) : (s.hydrated old).Whole := by
  have hg : (old.getD ⟨[], []⟩).Whole := by
    cases old with
    | none => exact fun _ he => (not_mem_nil he).elim
    | some c => exact hold c rfl
  unfold State.savedRefs at h
  unfold State.hydrated
  cases hm : s.manifest with
  | none => exact hg
  | some =>
    rw [hm] at h
    intro e he
    obtain he | he := mem_append.1 he
    · exact mem_append_left _ (h e he)
    · exact mem_append_right _ (hg e he)

variable [DecidableEq C] {parents : C → List C} {s s' : State C} {a : Act C}

theorem Moves.mem (h : Moves parents p c a moves added) : ∀ u ∈ moves, u.2 ∈ c.commits ++ added := by
  cases h with
  | push j _ _ ha =>
    intro u hu
    obtain hu | hu := mem_append.1 hu
    · exact (ha.2 _ (mem_seed hu).2.2).2.1
    · exact (ha.2 u hu).2.1
  | merge =>
    intro u hu
    cases mem_singleton.1 hu
    simp
  | fork _ _ ht =>
    intro u hu
    cases mem_singleton.1 hu
    simpa using ht

theorem Moves.whole {now : Nat} (h : Moves parents p c a moves added)
    (hc : c.Whole) : (c.advance moves added now).Whole := by
  intro e he
  obtain he | he := mem_append.1 he
  · obtain ⟨u, hu, rfl⟩ := mem_map.1 he
    exact h.mem u hu
  · exact mem_append_left _ (hc e he)

theorem Moves.forward
    (h : Moves parents p c a moves added) (hs : Sober parents s a) (hp : (s.pods p).copy = some c) (hc : c.Whole)
    {tip : Tip C} (ht : c.refs.lookup r = some tip) (now : Nat) : ∃ tip', (c.advance moves added now).refs.lookup r = some tip' ∧
      ReachesIn parents (c.commits ++ added) tip'.commit tip.commit := by
  have ho : tip.commit ∈ c.commits ++ added := mem_append_left _ (hc.mem ht)
  obtain hsame | ⟨u, hu, rfl, hm⟩ := lookup_advance ht moves added now
  · exact ⟨tip, hsame, .refl ho⟩
  refine ⟨_, hm, ?_⟩
  cases h with
  | push j _ _ ha =>
    obtain hu | hu := mem_append.1 hu
    · rw [(mem_seed hu).1, (mem_seed hu).2.1] at ht
      cases ht
    · exact reachesIn_of_reach ((ha.2 u hu).2.2.2 tip ht)
  | merge _ _ _ _ ht' _ hparents =>
    cases mem_singleton.1 hu
    rw [ht] at ht'
    cases ht'
    refine .of_parent (by simp) ?_ (.refl ho)
    rw [hparents]
    exact mem_cons_self
  | fork =>
    cases mem_singleton.1 hu
    exact (reachesIn_of_reach (hs.2 c hp tip ht)).mono (subset_append_left _ _)

theorem Moves.has {now : Nat}
    (h : Moves parents p c a moves added) (hs : Sober parents s a) (hp : (s.pods p).copy = some c) (hc : c.Whole)
    (hh : Has parents c.refs c.commits updates) :
    Has parents (c.advance moves added now).refs (c.advance moves added now).commits updates := by
  intro u hu
  obtain ⟨_, ht, hr⟩ := hh u hu
  obtain ⟨tip', ht', hf⟩ := h.forward hs hp hc ht now
  exact ⟨tip', ht', hf.trans (hr.mono (subset_append_left _ _))⟩

theorem Accepts.has (h : Accepts parents c updates added) (now : Nat) :
    Has parents (c.advance (seed c updates ++ updates) added now).refs
      (c.advance (seed c updates ++ updates) added now).commits updates := by
  intro u hu
  obtain ⟨hd, hm, -⟩ := h.2 u hu
  refine ⟨⟨u.2, now⟩, ?_, .refl hm⟩
  obtain ⟨l₁, l₂, heq⟩ := append_of_mem hu
  have hn := h.1
  rw [heq, map_append, map_cons, nodup_append] at hn
  refine lookup_eq_some_iff.2 ⟨(seed c updates ++ l₁).map (fun v => (v.1, ⟨v.2, now⟩)),
    l₂.map (fun v => (v.1, ⟨v.2, now⟩)) ++ c.refs, ?_, fun e he => ?_⟩
  · rw [Copy.advance, heq]
    simp
  · obtain ⟨v, hv, rfl⟩ := mem_map.1 he
    refine bne_iff_ne.2 (fun huv => ?_)
    obtain hv | hv := mem_append.1 hv
    · exact hd (huv.trans (mem_seed hv).1)
    · exact hn.2.2 v.1 (mem_map_of_mem hv) u.1 mem_cons_self huv.symm

/-! ## Pushes and their syncs -/

def Push.Sound (parents : C → List C) (s : State C) (push : Push C) : Prop :=
  push.gen ≤ (s.pods push.pod).gen ∧ (push.gen = (s.pods push.pod).gen →
    ∃ c, (s.pods push.pod).copy = some c ∧ Has parents c.refs c.commits push.updates)

def Sync.Sound (parents : C → List C) (s : State C) (y : Sync C) : Prop :=
  y.up.push.Sound parents s ∧ (y.up.version = y.version → (∀ e ∈ y.refs, e.2.commit ∈ s.stored) ∧
    (y.up.push.gen = (s.pods y.up.push.pod).gen → Has parents y.refs s.stored y.up.push.updates))

def Job.Sound (parents : C → List C) (s : State C) : Job C → Prop
  | .received push => push.Sound parents s
  | .emitted push => push.Sound parents s
  | .handled push _ => push.Sound parents s
  | .loaded push _ _ => push.Sound parents s
  | .uploaded up => up.push.Sound parents s
  | .read y => y.Sound parents s
  | .checked y => y.Sound parents s
  | _ => True

/-- Copies and object storage have the commits of their refs, and pushes are where they moved them. -/
structure Consistent (parents : C → List C) (s : State C) : Prop where
  tracked : Tracked s
  copies : ∀ p c, (s.pods p).copy = some c → c.Whole
  manifest : ∀ e ∈ s.savedRefs, e.2.commit ∈ s.stored
  jobs : ∀ j, (s.jobs j).Sound parents s

omit [DecidableEq C] in
theorem Consistent.next_sound {x x' : Job C} (hc : Consistent parents s) (h : Next s x x') (hok : x.Ok s)
    (hx : x.Sound parents s) : x'.Sound parents s := by
  cases h with
  | handled | loaded | checked => exact hx
  | read up c hcopy =>
    refine ⟨hx, fun hv => ?_⟩
    obtain ⟨c', hc', hs⟩ := hok.2 hv
    rw [hcopy] at hc'
    cases hc'
    refine ⟨fun e he => hs (hc.copies _ c hcopy e he), fun hg => ?_⟩
    obtain ⟨c', hc', hh⟩ := hx.2 hg
    rw [hcopy] at hc'
    cases hc'
    exact hh.mono hs
  | _ => trivial

section
variable (hc : Consistent parents s) (hs : Sober parents s a) (h : Did parents s a s')
include hc hs h

theorem Consistent.push_sound {push : Push C} (hp : push.Sound parents s) : push.Sound parents s' := by
  have hg := h.grows push.pod
  refine ⟨hp.1.trans hg.gen_le, fun _ => ?_⟩
  have hle := hg.gen_le
  have hl' := hp.1
  obtain ⟨c, hcopy, hh⟩ := hp.2 (by omega)
  cases hg with
  | same hc' => exact ⟨c, hc'.trans hcopy, hh⟩
  | moved _ _ _ hc₀ hm hc' =>
    rw [hcopy] at hc₀
    cases hc₀
    exact ⟨_, hc', hm.has hs hcopy (hc.copies _ c hcopy) hh⟩
  | replaced => omega

theorem Consistent.sync_sound {y : Sync C} (hy : y.Sound parents s) : y.Sound parents s' := by
  refine ⟨hc.push_sound hs h hy.1, fun hv => ⟨fun e he => h.stored_subset ((hy.2 hv).1 e he), fun _ => ?_⟩⟩
  have hle := (h.grows y.up.push.pod).gen_le
  have hl' := hy.1.1
  exact ((hy.2 hv).2 (by omega)).mono h.stored_subset

theorem Consistent.job_sound {x : Job C} (hx : x.Sound parents s) : x.Sound parents s' := by
  cases x with
  | received | emitted | handled | loaded | uploaded => exact hc.push_sound hs h hx
  | read | checked => exact hc.sync_sound hs h hx
  | _ => trivial

theorem Consistent.jobs_sound (i : Nat) : (s'.jobs i).Sound parents s' := by
  obtain heq | hp := h.progress i
  · rw [heq]
    exact hc.job_sound hs h (hc.jobs i)
  have hi := hc.jobs i
  have hok := hc.tracked.jobs i
  generalize s.jobs i = x, s'.jobs i = x' at hp hi hok
  cases hp with
  | next _ _ hx => exact hc.job_sound hs h (hc.next_sound hx hok hi)
  | received p c _ _ _ ha hcopy hg => exact ⟨hg.ge, fun _ => ⟨_, hcopy, ha.has _⟩⟩
  | emitted | uploaded => exact hc.push_sound hs h hi
  | acked => trivial

theorem Consistent.step : Consistent parents s' where
  tracked := hc.tracked.step hs.1 h
  copies := h.copies (fun _ he => (not_mem_nil he).elim)
    (fun _ hold => whole_hydrated hc.manifest hold) (fun _ _ _ _ hmoves hw => hmoves.whole hw) hc.copies
  manifest := by
    obtain ⟨j, y, _, rfl, hj, hsaved⟩ | ⟨hm, -⟩ := h.saves
    · have hy := hc.jobs j
      rw [hj] at hy
      have ho : s.AtOnce y := hs.2 rfl y (by rw [hj]; rfl)
      rw [hsaved.savedRefs, hsaved.stored]
      exact (hy.2 ho.1).1
    · rw [State.savedRefs, hm]
      exact fun e he => h.stored_subset (hc.manifest e he)
  jobs := hc.jobs_sound hs h

end

omit [DecidableEq C] in
theorem consistent_start : Consistent parents (start C) where
  tracked := tracked_start
  copies _ _ h := by cases h
  manifest _ h := (not_mem_nil h).elim
  jobs _ := trivial

theorem Consistent.acked {j : Nat} {saved told : Bool} {push : Push C} (hc : Consistent parents s)
    (hs : Sober parents s (.put j saved told)) (hstep : s.step parents (.put j saved told) = some s')
    (hj : s'.jobs j = .acked push) : ∀ u ∈ push.updates, s'.Stores parents u.2 := by
  simp only [State.step] at hstep
  split at hstep
  · rename_i y hy
    have hsound := hc.jobs j
    rw [hy] at hsound
    split at hstep
    · rename_i hsaved
      have ho : s.AtOnce y := hs.2 hsaved.1 y (by rw [hy]; rfl)
      cases hstep
      rw [setJob_jobs, if_pos rfl] at hj
      cases told with
      | false => cases hj
      | true =>
        cases hj
        intro u hu
        obtain ⟨tip, ht, hr⟩ := (hsound.2 ho.1).2 ho.2 u hu
        exact ⟨u.1, tip, ht, hr⟩
    · cases hstep
      rw [setJob_jobs, if_pos rfl] at hj
      cases hj
  · cases hstep

theorem Consistent.upToDate {x : C} (hc : Consistent parents s) (hs : Sober parents s (.upToDate p r x))
    (hstep : (s.step parents (.upToDate p r x)).isSome) : s.Stores parents x := by
  obtain ⟨-, hh, hclean⟩ := hs
  obtain ⟨c, hcopy, hr, hsub⟩ := hc.tracked.clean p hh hclean
  simp only [State.step] at hstep
  split at hstep
  · rename_i hc'
    rw [hcopy] at hc'
    cases hc'
    split at hstep
    · rename_i hx
      obtain ⟨tip, ht, rfl⟩ := Option.map_eq_some_iff.1 hx
      exact ⟨r, tip, hr ▸ ht, .refl (hsub ((hc.copies p c hcopy).mem ht))⟩
    · cases hstep
  · cases hstep

/-- **What a client is told is so**, in every run in which nothing is told too early. -/
theorem told_saved (parents : C → List C) (acts : List (Act C))
    (hok : Along (State.step parents) (Sober parents) (start C) acts) :
    Along (State.step parents) (Honest parents) (start C) acts := by
  refine along_of_invariant (fun _ _ _ hc hs hstep => hc.step hs (did_of_step hstep))
    (fun s a hc hs => ⟨?_, ?_⟩) consistent_start hok
  · rintro j _ _ _ _ rfl hstep hj
    exact hc.acked hs hstep hj
  · rintro p r x rfl hstep
    exact hc.upToDate hs hstep

def failedPush : List (Act Nat) :=
  [.lease 0, .hydrate 0 1 true, .request 0 0, .receive 0 [(.base, 1)] [1], .emit 0 [], .handle 0, .load 0, .upload 0, .readRefs 0,
    .check 0, .put 0 false false]

def retriedPush : List (Act Nat) :=
  failedPush ++ [.claim 0, .unlease 0, .remove 0 true, .forget 0, .lease 0, .hydrate 0 2 true,
    .request 1 0, .receive 1 [(.base, 1)] [1], .emit 1 [], .handle 1, .load 1, .upload 1, .readRefs 1, .check 1, .put 1 true true,
    .upToDate 0 .base 1]

theorem told_saved_retried :
    (exec (State.step fun _ => []) (start Nat) retriedPush).isSome ∧
    Along (State.step fun _ => []) (Honest fun _ => []) (start Nat) retriedPush :=
  ⟨by decide, told_saved _ _ (by decide)⟩

/-- **A client is told "up-to-date" of a commit that is not saved**: its push failed to be synced, and the ref that it moved
is what the pod advertises to the next attempt. -/
theorem retry_up_to_date : ∃ s, exec (State.step fun _ => []) (start Nat) failedPush = some s ∧
    (s.step (fun _ => []) (.upToDate 0 .base 1)).isSome ∧ s.manifest = none ∧
      ¬ Honest (fun _ => []) s (.upToDate 0 .base 1) := by
  refine ⟨_, rfl, rfl, rfl, fun h => ?_⟩
  obtain ⟨r, _, ht, -⟩ := h.2 0 .base 1 rfl rfl
  cases ht

end Jamsesh.Cluster
