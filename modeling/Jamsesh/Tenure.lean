import Jamsesh.Cluster
/-!
# Tenure — who has a session of the cluster, and what its copy and its saves go through

A step changes the copy of a pod by moves of its refs, or replaces it (`Grows`).  With orderly hand-offs a pod comes to have
the session only by a hydration, when no pod has it (`Did.holds`), and ceases to only by a release or the loss of its lease
(`Did.unheld`).  Where nothing has changed since the last save, object storage has the copy (`Tracked`).
-/
namespace Jamsesh.Cluster

open List Option
open Function (update update_self update_apply)

variable {C : Type}

variable {c : Copy C} {s s' : State C} {p q : Nat} {P : Pod C}

/-! ## Copies -/

section
variable [DecidableEq C]

/-- **The moves of refs in a pod's copy**: a push, with the draft that it may make, a merge, a fork. -/
inductive Moves (parents : C → List C) (p : Nat) (c : Copy C) : Act C → List (Ref × C) → List C → Prop where
  | push (j : Nat) (updates : List (Ref × C)) (added : List C) : Accepts parents c updates added →
      Moves parents p c (.receive j updates added) (seed c updates ++ updates) added
  | merge (tip : Tip C) (source merged : C) (told : Bool) : c.refs.lookup .draft = some tip → source ∈ c.commits →
      parents merged = [tip.commit, source] → Moves parents p c (.merge p source merged told) [(.draft, merged)] [merged]
  | fork (name : Text) (target : C) : target ∈ c.commits → Moves parents p c (.fork p name target) [(.user name, target)] []

/-- **How the copy of a pod changes**: not at all, by moves of its refs, or to another one. -/
inductive Grows (parents : C → List C) (a : Act C) (now p : Nat) (P P' : Pod C) : Prop where
  | same : P'.copy = P.copy → P'.version = P.version → P'.gen = P.gen → Grows parents a now p P P'
  | moved (c : Copy C) (moves : List (Ref × C)) (added : List C) : P.copy = some c → Moves parents p c a moves added →
      P'.copy = some (c.advance moves added now) → P'.version = P.version + 1 → P'.gen = P.gen → Grows parents a now p P P'
  | replaced : P'.version = P.version + 1 → P'.gen = P.gen + 1 → Grows parents a now p P P'

variable {parents : C → List C} {a : Act C} {now p : Nat} {P P' : Pod C}

theorem Grows.refl (P : Pod C) : Grows parents a now p P P := .same rfl rfl rfl

theorem Grows.version_le (h : Grows parents a now p P P') : P.version ≤ P'.version := by
  cases h <;> omega

theorem Grows.gen_le (h : Grows parents a now p P P') : P.gen ≤ P'.gen := by
  cases h <;> omega

theorem Grows.copy_eq (h : Grows parents a now p P P') (hv : P'.version ≤ P.version) : P'.copy = P.copy := by
  cases h with
  | same hc => exact hc
  | moved | replaced => omega

theorem grows_update {pods : Nat → Pod C} (h : Grows parents a now p (pods p) P) (q : Nat) :
    Grows parents a now q (pods q) (update pods p P q) := by
  rw [update_apply]
  split
  · subst q
    exact h
  · exact .refl _

omit [DecidableEq C] in
theorem lookup_advance_of_ne {moves : List (Ref × C)} {added : List C} {r : Ref} (h : ∀ u ∈ moves, u.1 ≠ r) :
    (c.advance moves added now).refs.lookup r = c.refs.lookup r := by
  have hn : (moves.map (fun u => (u.1, (⟨u.2, now⟩ : Tip C)))).lookup r = none := by
    refine lookup_eq_none_iff.2 (fun e he => ?_)
    obtain ⟨u, hu, rfl⟩ := mem_map.1 he
    exact bne_iff_ne.2 (h u hu).symm
  rw [Copy.advance, lookup_append, hn, none_or]

omit [DecidableEq C] in
theorem lookup_advance {r : Ref} {tip : Tip C} (h : c.refs.lookup r = some tip) (moves : List (Ref × C))
    (added : List C) (now : Nat) : (c.advance moves added now).refs.lookup r = some tip ∨
      ∃ u ∈ moves, u.1 = r ∧ (c.advance moves added now).refs.lookup r = some ⟨u.2, now⟩ := by
  rw [Copy.advance, lookup_append]
  cases hm : (moves.map (fun u => (u.1, (⟨u.2, now⟩ : Tip C)))).lookup r with
  | none => exact .inl h
  | some tip' =>
    obtain ⟨l₁, l₂, heq, -⟩ := lookup_eq_some_iff.1 hm
    have hmem : (r, tip') ∈ moves.map (fun u => (u.1, (⟨u.2, now⟩ : Tip C))) := by rw [heq]; simp
    obtain ⟨u, hu, hur⟩ := mem_map.1 hmem
    cases hur
    exact .inr ⟨u, hu, rfl, rfl⟩

omit [DecidableEq C] in
theorem mem_seed {updates : List (Ref × C)} {u : Ref × C} (h : u ∈ seed c updates) :
    u.1 = .draft ∧ c.refs.lookup .draft = none ∧ (.base, u.2) ∈ updates := by
  unfold seed at h
  split at h
  · rename_i new hnew
    split at h
    · rename_i hn
      cases mem_singleton.1 h
      obtain ⟨l₁, l₂, heq, -⟩ := lookup_eq_some_iff.1 hnew
      exact ⟨rfl, hn.2, by rw [heq]; simp⟩
    · cases h
  · cases h

omit [DecidableEq C] in
theorem seed_eq_nil {updates : List (Ref × C)} {tip : Tip C} (h : c.refs.lookup .draft = some tip) :
    seed c updates = [] := by
  refine eq_nil_iff_forall_not_mem.2 (fun u hu => ?_)
  rw [(mem_seed hu).2.1] at h
  cases h

end

/-! ## Syncs -/

/-- What a sync uploaded is in object storage, all of the pod's copy if that has not changed since. -/
def Upload.Ok (s : State C) (up : Upload C) : Prop :=
  up.version ≤ (s.pods up.push.pod).version ∧ (up.version = (s.pods up.push.pod).version →
    ∃ c, (s.pods up.push.pod).copy = some c ∧ c.commits ⊆ s.stored)

def Sync.Ok (s : State C) (y : Sync C) : Prop :=
  y.up.Ok s ∧ y.version ≤ (s.pods y.up.push.pod).version ∧ (y.version = (s.pods y.up.push.pod).version →
    ∃ c, (s.pods y.up.push.pod).copy = some c ∧ c.refs = y.refs)

def Job.Ok (s : State C) : Job C → Prop
  | .uploaded up => up.Ok s
  | .read y => y.Ok s
  | .checked y => y.Ok s
  | _ => True

theorem Next.ok {x x' : Job C} (h : Next s x x') (hx : x.Ok s) : x'.Ok s := by
  cases h with
  | read _ c hc => exact ⟨hx, le_refl _, fun _ => ⟨c, hc, rfl⟩⟩
  | checked => exact hx
  | _ => trivial

/-! ## Tokens, and who has the session -/

/-- Every token was issued, and that of a lease under which a pod is still hydrating is not in its entry. -/
structure Issued (s : State C) : Prop where
  entry_lt : ∀ p, ∀ e ∈ (s.pods p).entry, e.token < s.next
  acquiring_lt : ∀ p, ∀ t ∈ (s.pods p).acquiring, t < s.next
  fresh : ∀ p, ∀ t ∈ (s.pods p).acquiring, ∀ e ∈ (s.pods p).entry, e.token ≠ t

theorem Issued.of_pods (h : Issued s) (hn : s'.next = s.next) (he : ∀ p, ∀ e ∈ (s'.pods p).entry, ∃ e₀ ∈ (s.pods p).entry,
    e₀.token = e.token) (ha : ∀ p, (s'.pods p).acquiring ⊆ (s.pods p).acquiring) : Issued s' where
  entry_lt p e hp := by
    obtain ⟨e₀, hp₀, ht⟩ := he p e hp
    rw [hn, ← ht]
    exact h.entry_lt p e₀ hp₀
  acquiring_lt p t ht := hn ▸ h.acquiring_lt p t (ha p ht)
  fresh p t ht e hp := by
    obtain ⟨e₀, hp₀, hte⟩ := he p e hp
    rw [← hte]
    exact h.fresh p t (ha p ht) e₀ hp₀

theorem Issued.of_update (h : Issued s) (hn : s'.next = s.next) (hs' : s'.pods = update s.pods p P)
    (he : ∀ e ∈ P.entry, ∃ e₀ ∈ (s.pods p).entry, e₀.token = e.token) (ha : P.acquiring ⊆ (s.pods p).acquiring) :
    Issued s' := by
  refine h.of_pods hn (fun q e hq => ?_) (fun q t ht => ?_)
  · rw [hs', update_apply] at hq
    split at hq
    · subst q
      exact he e hq
    · exact ⟨e, hq, rfl⟩
  · rw [hs', update_apply] at ht
    split at ht
    · subst q
      exact ha ht
    · exact ht

theorem State.Holds.unique (hp : s.Holds p) (hq : s.Holds q) : p = q := by
  obtain ⟨e, -, -, hl⟩ := hp
  obtain ⟨_, -, -, hl'⟩ := hq
  rw [hl] at hl'
  exact (Prod.mk.inj (some.inj hl')).1

theorem State.Holds.of_update (h : s'.Holds p)
    (hs' : s'.pods = update s.pods q P) (hP : ∀ e ∈ P.entry, e.phase = .live ∨ e.phase = .claimed →
      ∃ e₀ ∈ (s.pods q).entry, (e₀.phase = .live ∨ e₀.phase = .claimed) ∧ e₀.token = e.token) (hl : s'.lease = s.lease) :
    s.Holds p := by
  obtain ⟨e, he, hp, hlease⟩ := h
  rw [hl] at hlease
  rw [hs', update_apply] at he
  split at he
  · subst p
    obtain ⟨e₀, he₀, hp₀, ht⟩ := hP e he hp
    exact ⟨e₀, he₀, hp₀, ht ▸ hlease⟩
  · exact ⟨e, he, hp, hlease⟩

theorem State.Holds.release_lease_eq {token : Nat} (h : (s.release q token).Holds p) :
    (s.release q token).lease = s.lease := by
  obtain ⟨e, -, -, hl⟩ := h
  rw [release_lease] at hl ⊢
  split at hl
  · cases hl
  · rw [if_neg ‹_›]

theorem State.Holds.ne_acquiring (hp : s.Holds p) (hi : Issued s) {token : Nat} (ht : token ∈ (s.pods q).acquiring) :
    s.lease ≠ some (q, token) := by
  obtain ⟨e, he, -, hl⟩ := hp
  rw [hl]
  intro heq
  obtain ⟨rfl, rfl⟩ := Prod.mk.inj (some.inj heq)
  exact hi.fresh p _ ht e he rfl

theorem State.Holds.to_update (h : s.Holds p) (hs' : s'.pods = update s.pods q P)
    (hP : ∀ e ∈ (s.pods q).entry, e.phase = .live ∨ e.phase = .claimed →
      ∃ e₀ ∈ P.entry, (e₀.phase = .live ∨ e₀.phase = .claimed) ∧ e₀.token = e.token) (hl : s'.lease = s.lease) :
    s'.Holds p := by
  obtain ⟨e, he, hp, hlease⟩ := h
  by_cases hpq : p = q
  · subst q
    obtain ⟨e₀, he₀, hp₀, ht⟩ := hP e he hp
    exact ⟨e₀, by rw [hs', update_self]; exact he₀, hp₀, by rw [hl, ht]; exact hlease⟩
  · exact ⟨e, by rw [hs', Function.update_of_ne hpq]; exact he, hp, by rw [hl]; exact hlease⟩

theorem State.same_entry (s : State C) (q : Nat) : ∀ e ∈ (s.pods q).entry, e.phase = .live ∨ e.phase = .claimed →
    ∃ e₀ ∈ (s.pods q).entry, (e₀.phase = .live ∨ e₀.phase = .claimed) ∧ e₀.token = e.token :=
  fun e he hp => ⟨e, he, hp, rfl⟩

/-- **A pod has come to have the session**, by hydrating its copy when no pod had it. -/
structure Entered (s s' : State C) (p : Nat) : Prop where
  vacant : ∀ q, ¬ s.Holds q
  copy : (s'.pods p).copy = some (s.hydrated (s.pods p).copy)
  saved : (s'.pods p).saved = if (s.pods p).copy.isNone then some (s'.pods p).version else none
  manifest : s'.manifest = s.manifest
  stored : s'.stored = s.stored
  announced : s'.announced = s.announced

/-! ## Steps -/

variable [DecidableEq C] {parents : C → List C} {s s' : State C} {a : Act C} {p : Nat}

section
variable (h : Did parents s a s')
include h

theorem Did.grows (q : Nat) : Grows parents a s.clock q (s.pods q) (s'.pods q) := by
  cases h with
  | create | enter | remove => exact grows_update (by exact .replaced rfl rfl) q
  | lease | claim | unclaim | forget | emit | put | skip => exact grows_update (by exact .same rfl rfl rfl) q
  | late =>
    rw [release_pods]
    exact grows_update (by exact .replaced rfl rfl) q
  | unhydrated | unlease =>
    rw [release_pods]
    exact grows_update (by exact .same rfl rfl rfl) q
  | lost | job | upload | stay => exact .refl _
  | receive j p c updates added _ hc ha =>
    exact grows_update (by exact .moved c _ added hc (.push j updates added ha) rfl rfl rfl) q
  | merge p c tip source merged told hc hd hs hm =>
    exact grows_update (by exact .moved c _ _ hc (.merge tip source merged told hd hs hm) rfl rfl rfl) q
  | fork p c name target hc ht => exact grows_update (by exact .moved c _ _ hc (.fork name target ht) rfl rfl rfl) q

theorem Did.copies {Q : Copy C → Prop} (he : Q ⟨[], []⟩)
    (hh : ∀ old : Option (Copy C), (∀ c, old = some c → Q c) → Q (s.hydrated old))
    (hmoves : ∀ p c moves added, Moves parents p c a moves added → Q c → Q (c.advance moves added s.clock))
    (hold : ∀ p c, (s.pods p).copy = some c → Q c) : ∀ p c, (s'.pods p).copy = some c → Q c := by
  have ho : ∀ {r : Nat} {P : Pod C}, (∀ c, P.copy = some c → Q c) → ∀ p c, (update s.pods r P p).copy = some c → Q c := by
    intro r P hP p c
    rw [update_apply]
    split
    · exact hP c
    · exact hold p c
  have hn : ∀ {c₀ : Copy C}, Q c₀ → ∀ c, some c₀ = some c → Q c := by
    rintro _ hc₀ c ⟨⟩
    exact hc₀
  cases h with
  | create => exact ho (hn he)
  | enter p => exact ho (by exact hn (hh _ (hold p)))
  | late p =>
    rw [release_pods]
    exact ho (by exact hn (hh _ (hold p)))
  | unhydrated p | unlease p =>
    rw [release_pods]
    exact ho (by exact hold p)
  | remove p _ ok =>
    refine ho (fun c hc => ?_)
    cases ok with
    | true => cases hc
    | false => exact hold p c hc
  | receive j p c updates added _ hc ha =>
    exact ho (by exact hn (hmoves p c _ added (.push j updates added ha) (hold p c hc)))
  | merge p c tip source merged told hc hd hs hm =>
    exact ho (by exact hn (hmoves p c _ _ (.merge tip source merged told hd hs hm) (hold p c hc)))
  | fork p c name target hc ht => exact ho (by exact hn (hmoves p c _ _ (.fork name target ht) (hold p c hc)))
  | lost | job | upload | stay => exact hold
  | _ => exact ho (by exact hold _)

theorem Did.clock_le : s.clock ≤ s'.clock := by
  cases h <;> simp

theorem Did.stored_subset : s.stored ⊆ s'.stored := by
  cases h <;> simp

theorem Upload.Ok.step {up : Upload C} (hup : up.Ok s) : up.Ok s' := by
  have hg := h.grows up.push.pod
  refine ⟨hup.1.trans hg.version_le, fun _ => ?_⟩
  have hle := hup.1
  obtain ⟨c, hc, hs⟩ := hup.2 (by have := hg.version_le; omega)
  exact ⟨c, (hg.copy_eq (by omega)).trans hc, fun x hx => h.stored_subset (hs hx)⟩

theorem Sync.Ok.step {y : Sync C} (hy : y.Ok s) : y.Ok s' := by
  have hg := h.grows y.up.push.pod
  refine ⟨hy.1.step h, hy.2.1.trans hg.version_le, fun _ => ?_⟩
  have hle := hy.2.1
  obtain ⟨c, hc, hr⟩ := hy.2.2 (by have := hg.version_le; omega)
  exact ⟨c, (hg.copy_eq (by omega)).trans hc, hr⟩

theorem Job.Ok.step {x : Job C} (hx : x.Ok s) : x.Ok s' := by
  cases x with
  | uploaded => exact Upload.Ok.step h hx
  | read | checked => exact Sync.Ok.step h hx
  | _ => trivial

inductive Progress (parents : C → List C) (s s' : State C) : Job C → Job C → Prop where
  | next (x x' : Job C) : Next s x x' → Progress parents s s' x x'
  | received (p : Nat) (c : Copy C) (updates : List (Ref × C)) (added : List C) : (s.pods p).copy = some c →
      Accepts parents c updates added → (s'.pods p).copy = some (c.advance (seed c updates ++ updates) added s.clock) →
      (s'.pods p).gen = (s.pods p).gen → Progress parents s s' (.admitted p) (.received ⟨p, updates, (s.pods p).gen⟩)
  | emitted (push : Push C) : Progress parents s s' (.received push) (.emitted push)
  | uploaded (push : Push C) (token : Nat) (etag : Option Nat) (c : Copy C) : (s'.pods push.pod).copy = some c →
      c.commits ⊆ s'.stored →
      Progress parents s s' (.loaded push token etag) (.uploaded ⟨push, token, etag, (s'.pods push.pod).version⟩)
  | acked (y : Sync C) : Progress parents s s' (.checked y) (.acked y.up.push)

theorem Did.progress (i : Nat) :
    s'.jobs i = s.jobs i ∨ Progress parents s s' (s.jobs i) (s'.jobs i) := by
  have ho : ∀ {j : Nat} {x : Job C}, Progress parents s s' (s.jobs j) x →
      update s.jobs j x i = s.jobs i ∨ Progress parents s s' (s.jobs i) (update s.jobs j x i) := by
    intro j x hx
    rw [update_apply]
    split
    · subst i
      exact .inr hx
    · exact .inl rfl
  cases h with
  | job a j x hx => exact ho (.next _ _ hx)
  | receive j p c updates added hj hc ha =>
    refine ho (hj ▸ .received p c updates added hc ha ?_ ?_) <;> simp [Pod.advance]
  | emit j push _ hj => exact ho (hj ▸ .emitted push)
  | upload j push token etag c hj hc => exact ho (hj ▸ .uploaded push token etag c hc (subset_append_right _ _))
  | put j y told hj =>
    cases told with
    | true => exact ho (hj ▸ .acked y)
    | false => exact ho (.next _ _ (.failed _))
  | late | unhydrated | unlease => exact .inl (by rw [release_jobs]; rfl)
  | _ => exact .inl rfl

theorem Did.jobs_ok (hok : ∀ j, (s.jobs j).Ok s) (i : Nat) : (s'.jobs i).Ok s' := by
  obtain heq | hp := h.progress i
  · rw [heq]
    exact (hok i).step h
  have hi := hok i
  generalize s.jobs i = x, s'.jobs i = x' at hp hi
  cases hp with
  | next _ _ hx => exact (hx.ok hi).step h
  | uploaded _ _ _ c hc hs => exact ⟨le_refl _, fun _ => ⟨c, hc, hs⟩⟩
  | _ => trivial

theorem Did.issued (hi : Issued s) : Issued s' := by
  have hsame : ∀ p, ∀ e ∈ (s.pods p).entry, ∃ e₀ ∈ (s.pods p).entry, e₀.token = e.token := fun p e he => ⟨e, he, rfl⟩
  cases h with
  | lease p =>
    refine ⟨fun q e hq => ?_, fun q t ht => ?_, fun q t ht e hq => ?_⟩
    all_goals simp only [setPod_pods] at *
    · split at hq
      · exact (hi.entry_lt p e hq).trans (Nat.lt_succ_self _)
      · exact (hi.entry_lt q e hq).trans (Nat.lt_succ_self _)
    · split at ht
      · obtain rfl | ht := mem_cons.1 ht
        · exact Nat.lt_succ_self _
        · exact (hi.acquiring_lt p t ht).trans (Nat.lt_succ_self _)
      · exact (hi.acquiring_lt q t ht).trans (Nat.lt_succ_self _)
    · split at ht
      · rename_i hqp
        rw [if_pos hqp] at hq
        obtain rfl | ht := mem_cons.1 ht
        · exact (hi.entry_lt p e hq).ne
        · exact hi.fresh p t ht e hq
      · rename_i hqp
        rw [if_neg hqp] at hq
        exact hi.fresh q t ht e hq
  | enter p token ht =>
    refine ⟨fun q e hq => ?_, fun q t hq => ?_, fun q t htq e hq => ?_⟩
    all_goals simp only [setPod_pods] at *
    · split at hq
      · cases hq
        exact hi.acquiring_lt p token ht
      · exact hi.entry_lt q e hq
    · split at hq
      · exact hi.acquiring_lt p t (mem_of_mem_filter hq)
      · exact hi.acquiring_lt q t hq
    · split at htq
      · rename_i hqp
        rw [if_pos hqp] at hq
        cases hq
        have := of_mem_filter htq
        simpa using fun h => (of_decide_eq_true this) h.symm
      · rename_i hqp
        rw [if_neg hqp] at hq
        exact hi.fresh q t htq e hq
  | late p _ e | unhydrated p =>
    exact hi.of_update (release_next _) (release_pods _) (hsame p) (filter_subset_self _)
  | claim p _ he | unclaim p _ he
  | remove p _ _ he => exact hi.of_update rfl rfl (fun e h => ⟨_, he, by cases h; rfl⟩) (List.Subset.refl _)
  | unlease p _ he =>
    exact hi.of_update (release_next _) (release_pods _) (fun e h => ⟨_, he, by cases h; rfl⟩) (List.Subset.refl _)
  | forget p => exact hi.of_update rfl rfl (fun e h => by cases h) (List.Subset.refl _)
  | lost l | job a j x | upload j _ _ _ c => exact hi.of_pods rfl hsame (fun _ => List.Subset.refl _)
  | stay a => exact hi
  | _ => exact hi.of_update rfl rfl (hsame _) (List.Subset.refl _)

theorem Did.holds (hi : Issued s) (ho : s.Orderly a) (hp : s'.Holds p) :
    s.Holds p ∨ Entered s s' p := by
  cases h with
  | lease q =>
    obtain ⟨e, he, -, hlease⟩ := hp
    simp only [setPod_pods, State.setPod_lease, Option.some.injEq, Prod.mk.injEq] at he hlease
    obtain ⟨rfl, ht⟩ := hlease
    rw [if_pos rfl] at he
    exact absurd ht (hi.entry_lt q e he).ne'
  | enter q token _ he =>
    have hl : s.lease = some (q, token) := ho rfl
    obtain ⟨e, -, -, hlease⟩ := hp
    rw [State.setPod_lease, hl] at hlease
    obtain ⟨rfl, -⟩ := Prod.mk.inj (some.inj hlease)
    refine .inr ⟨fun r hr => ?_, by simp [Pod.replace], by simp [Pod.replace], rfl, rfl, rfl⟩
    obtain ⟨_, he', -, hr⟩ := hr
    rw [hl] at hr
    obtain ⟨rfl, -⟩ := Prod.mk.inj (some.inj hr)
    rw [he] at he'
    cases he'
  | late =>
    obtain ⟨_, -, -, hlease⟩ := hp
    rw [release_lease, State.setPod_lease, if_pos (ho rfl)] at hlease
    cases hlease
  | unhydrated q => exact .inl (hp.of_update (release_pods _) (s.same_entry q) hp.release_lease_eq)
  | claim q _ he => exact .inl (hp.of_update rfl (fun e h _ => ⟨_, he, .inl rfl, by cases h; rfl⟩) rfl)
  | unclaim q _ he => exact .inl (hp.of_update rfl (fun e h _ => ⟨_, he, .inr rfl, by cases h; rfl⟩) rfl)
  -- the release has taken the lease from its entry
  | unlease q =>
    exact .inl (hp.of_update (release_pods _) (fun e h hphase => by cases h; simp at hphase) hp.release_lease_eq)
  | remove q => exact .inl (hp.of_update rfl (fun e h hphase => by cases h; simp at hphase) rfl)
  | forget q => exact .inl (hp.of_update rfl (fun e h _ => by cases h) rfl)
  | lost l =>
    obtain ⟨e, -, -, hlease⟩ := hp
    cases hlease
  | job a j x => exact .inl hp
  | upload j _ _ _ c => exact .inl hp
  | stay a => exact .inl hp
  | _ => exact .inl (hp.of_update rfl (s.same_entry _) rfl)

/-- **How a pod ceases to have the session**: by its release or the loss of its lease, and object storage stays as it is. -/
theorem Did.unheld (hi : Issued s) (ho : s.Orderly a) (hp : s.Holds p) (hn : ¬ s'.Holds p) :
    (a = .unlease p ∨ a = .lost) ∧ s'.manifest = s.manifest ∧ s'.stored = s.stored ∧ s'.announced = s.announced := by
  cases h with
  | lease q hl =>
    obtain ⟨e, -, -, hlease⟩ := hp
    rw [hl] at hlease
    cases hlease
  | enter q _ ht | late q _ e ht => exact absurd (ho rfl) (hp.ne_acquiring hi ht)
  | unhydrated q _ ht =>
    refine (hn (hp.to_update (release_pods _) (by exact s.same_entry q) ?_)).elim
    rw [release_lease, State.setPod_lease, if_neg (hp.ne_acquiring hi ht)]
  | claim q _ he =>
    refine (hn (hp.to_update rfl (fun e h _ => ⟨_, rfl, .inr rfl, ?_⟩) rfl)).elim
    rw [he] at h
    cases h
    rfl
  | unclaim q _ he =>
    refine (hn (hp.to_update rfl (fun e h _ => ⟨_, rfl, .inl rfl, ?_⟩) rfl)).elim
    rw [he] at h
    cases h
    rfl
  | unlease q =>
    by_cases hpq : p = q
    · subst q
      exact ⟨.inl rfl, by simp, by simp, by simp⟩
    obtain ⟨e, hpe, hphase, hlease⟩ := hp
    refine (hn ⟨e, ?_, hphase, ?_⟩).elim
    · rw [release_pods, setPod_pods, if_neg hpq]
      exact hpe
    · rw [release_lease, State.setPod_lease, if_neg (by rw [hlease]; simp [hpq])]
      exact hlease
  | remove q _ _ he | forget q _ he =>
    refine (hn (hp.to_update rfl (fun e h hphase => ?_) rfl)).elim
    rw [he] at h
    cases h
    simp at hphase
  | lost => exact ⟨.inr rfl, rfl, rfl, rfl⟩
  | job | upload | stay => exact absurd hp hn
  | _ => exact (hn (hp.to_update rfl (by exact s.same_entry _) rfl)).elim

theorem Did.gen_eq (hi : Issued s) (ho : s.Orderly a) (hc : (s.pods p).copy ≠ none)
    (hp : s.Holds p) : (s'.pods p).gen = (s.pods p).gen := by
  have hother : ∀ {q : Nat} {P : Pod C}, (p = q → P.gen = (s.pods q).gen) → (update s.pods q P p).gen = (s.pods p).gen := by
    intro q P hP
    rw [update_apply]
    split
    · subst q
      exact hP rfl
    · rfl
  cases h with
  | create q hq =>
    refine hother (fun _ => ?_)
    subst q
    exact absurd hq hc
  | enter q _ ht | late q _ e ht => exact absurd (ho rfl) (hp.ne_acquiring hi ht)
  | unhydrated | unlease =>
    rw [release_pods]
    exact hother (fun _ => rfl)
  | remove q _ _ he =>
    refine hother (fun _ => ?_)
    subst q
    obtain ⟨e, hpe, hphase, -⟩ := hp
    rw [he] at hpe
    cases hpe
    simp at hphase
  | lost | job | upload | stay => rfl
  | _ => exact hother (fun _ => rfl)

end

/-- **What a save does**: the refs of the sync are in object storage, and with them its version if it uploaded and read at
once. -/
structure Saved (s s' : State C) (y : Sync C) : Prop where
  savedRefs : s'.savedRefs = y.refs
  stored : s'.stored = s.stored
  pods : s'.pods = update s.pods y.up.push.pod
    { s.pods y.up.push.pod with saved := if y.up.version = y.version then some y.version else none }

/-- What is saved of a copy stays as it is; of another copy, all or nothing. -/
def Keeps (P P' : Pod C) : Prop := P'.saved = P.saved ∨ P'.gen ≠ P.gen ∧ ∀ v ∈ P'.saved, v = P'.version

omit [DecidableEq C] in
theorem keeps_replaced {P' : Pod C} {b : Bool} (hg : P'.gen = P.gen + 1) (hv : P'.version = P.version + 1)
    (hs : P'.saved = if b then some (P.version + 1) else none) : Keeps P P' := by
  refine .inr ⟨by omega, fun v h => ?_⟩
  rw [hs] at h
  cases b <;> cases h
  exact hv.symm

omit [DecidableEq C] in
theorem keeps_update {pods : Nat → Pod C} {r : Nat} (h : Keeps (pods r) P) (q : Nat) :
    Keeps (pods q) (update pods r P q) := by
  rw [update_apply]
  split
  · subst q
    exact h
  · exact .inl rfl

theorem Did.saves (h : Did parents s a s') :
    (∃ j y told, a = .put j true told ∧ s.jobs j = .checked y ∧ Saved s s' y) ∨
      s'.manifest = s.manifest ∧ ∀ q, Keeps (s.pods q) (s'.pods q) := by
  cases h with
  | put j y told hj => exact .inl ⟨j, y, told, rfl, hj, rfl, rfl, rfl⟩
  | create | remove => exact .inr ⟨rfl, keeps_update (by exact keeps_replaced (b := false) rfl rfl rfl)⟩
  | enter => exact .inr ⟨rfl, keeps_update (by exact keeps_replaced rfl rfl rfl)⟩
  | late =>
    rw [release_pods, release_manifest]
    exact .inr ⟨rfl, keeps_update (by exact keeps_replaced rfl rfl rfl)⟩
  | unhydrated | unlease =>
    rw [release_pods, release_manifest]
    exact .inr ⟨rfl, keeps_update (by exact .inl rfl)⟩
  | lost | job | upload | stay => exact .inr ⟨rfl, fun _ => .inl rfl⟩
  | _ => exact .inr ⟨rfl, keeps_update (by exact .inl rfl)⟩

theorem Did.announces (h : Did parents s a s') :
    s'.announced = s.announced ∨ ∃ (p : Nat) (c : Copy C) (source merged : C), a = .merge p source merged true ∧
      s'.announced = merged :: s.announced ∧ (s'.pods p).copy = some (c.advance [(.draft, merged)] [merged] s.clock) := by
  cases h with
  | merge p c _ source merged told =>
    cases told with
    | false => exact .inl rfl
    | true => exact .inr ⟨p, c, source, merged, rfl, rfl, by simp [Pod.advance]⟩
  | late | unhydrated | unlease => exact .inl (release_announced _)
  | _ => exact .inl rfl

/-! ## What object storage has -/

/-- **What is always known of the copies and the saves**, with orderly hand-offs: the pod that has the session has a copy,
and object storage has it where it is clean. -/
structure Tracked (s : State C) : Prop where
  issued : Issued s
  jobs : ∀ j, (s.jobs j).Ok s
  copied : ∀ p, s.Holds p → (s.pods p).copy ≠ none
  saved_le : ∀ p, ∀ v ∈ (s.pods p).saved, v ≤ (s.pods p).version
  clean : ∀ p, s.Holds p → s.Clean p → ∃ c, (s.pods p).copy = some c ∧ c.refs = s.savedRefs ∧ c.commits ⊆ s.stored

omit [DecidableEq C] in
theorem hydrated_none : (s.hydrated none).refs = s.savedRefs ∧ (s.hydrated none).commits ⊆ s.stored := by
  unfold State.hydrated State.savedRefs
  cases s.manifest <;> simp

omit [DecidableEq C] in
theorem tracked_start : Tracked (start C) where
  issued := ⟨fun _ _ h => (by cases h), fun _ _ h => (not_mem_nil h).elim, fun _ _ h => (not_mem_nil h).elim⟩
  jobs _ := trivial
  copied _ h := by
    obtain ⟨e, he, -⟩ := h
    cases he
  saved_le _ _ h := by cases h
  clean _ h := by
    obtain ⟨e, he, -⟩ := h
    cases he

theorem Tracked.step (ht : Tracked s) (ho : s.Orderly a) (h : Did parents s a s') : Tracked s' where
  issued := h.issued ht.issued
  jobs := h.jobs_ok ht.jobs
  copied p hp := by
    obtain hp₀ | he := h.holds ht.issued ho hp
    · have hc := ht.copied p hp₀
      have hgen := h.gen_eq ht.issued ho hc hp₀
      cases h.grows p with
      | same hcopy => rwa [hcopy]
      | moved c _ _ _ _ hcopy => simp [hcopy]
      | replaced => omega
    · simp [he.copy]
  saved_le p v hv := by
    obtain ⟨j, y, -, -, hj, hs⟩ | ⟨-, hk⟩ := h.saves
    · rw [hs.pods, update_apply] at hv ⊢
      split at hv
      · rename_i hpod
        have hy := ht.jobs j
        rw [hj] at hy
        rw [if_pos hpod]
        split at hv <;> cases hv
        exact hy.2.1
      · rename_i hpod
        rw [if_neg hpod]
        exact ht.saved_le p v hv
    · obtain heq | ⟨-, ha⟩ := hk p
      · exact (ht.saved_le p v (heq ▸ hv)).trans (h.grows p).version_le
      · exact (ha v hv).le
  clean p hp hclean := by
    obtain hp₀ | he := h.holds ht.issued ho hp
    · have hgen := h.gen_eq ht.issued ho (ht.copied p hp₀) hp₀
      obtain ⟨j, y, _, rfl, hj, hs⟩ | ⟨hm, hk⟩ := h.saves
      · -- the save is of this pod, and has read the copy as it is
        have hcur : s.Current y := ho rfl y (by rw [hj]; rfl)
        obtain rfl : p = y.up.push.pod := hp₀.unique hcur.1
        have hy := ht.jobs j
        rw [hj] at hy
        unfold State.Clean at hclean
        rw [hs.pods, update_self] at hclean
        obtain ⟨hv, hversion⟩ : y.up.version = y.version ∧ y.version = (s.pods y.up.push.pod).version := by
          split at hclean
          · exact ⟨‹_›, some.inj hclean⟩
          · cases hclean
        obtain ⟨c, hc, hsub⟩ := hy.1.2 (hv.trans hversion)
        obtain ⟨_, hc', hr⟩ := hy.2.2 hversion
        rw [hc] at hc'
        cases hc'
        refine ⟨c, ?_, hr.trans hs.savedRefs.symm, hs.stored ▸ hsub⟩
        rw [hs.pods, update_self]
        exact hc
      · -- nothing has moved since the copy was clean
        have heq : (s'.pods p).saved = (s.pods p).saved := (hk p).resolve_right (fun hne => hne.1 hgen)
        have hle := ht.saved_le p _ (heq.symm.trans hclean)
        have hv : (s'.pods p).version = (s.pods p).version := le_antisymm hle (h.grows p).version_le
        obtain ⟨c, hc, hr, hsub⟩ := ht.clean p hp₀ (by unfold State.Clean; rw [← heq, ← hv]; exact hclean)
        refine ⟨c, ((h.grows p).copy_eq hle).trans hc, ?_, List.Subset.trans hsub h.stored_subset⟩
        rw [hr, State.savedRefs, State.savedRefs, hm]
    · have hnone : (s.pods p).copy = none := by
        unfold State.Clean at hclean
        rw [he.saved] at hclean
        split at hclean
        · exact isNone_iff_eq_none.1 ‹_›
        · cases hclean
      refine ⟨_, he.copy, ?_, ?_⟩
      · rw [hnone, hydrated_none.1, State.savedRefs, State.savedRefs, he.manifest]
      · rw [hnone, he.stored]
        exact hydrated_none.2

end Jamsesh.Cluster
