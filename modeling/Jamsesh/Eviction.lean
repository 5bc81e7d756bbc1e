import Jamsesh.Lifecycle
/-!
# Eviction — when a session is evicted under a request that is served from it

Nothing counts the requests in flight, so a release can remove the repo that a request is served from
(`removed_while_serving`).  Where no entry is claimed for good while a request uses it, and no loser of the race to store meets
a claimed entry, it never does (`never_evicted_while_served`).
-/
namespace Jamsesh.Lifecycle

open Machine Option

/-! ## Users and claimers of an entry -/

def Req.takes : Req → Option Nat
  | .beaten e | .yielded e => some e
  | _ => none

def Req.uses : Req → Option Nat
  | .beaten e | .yielded e | .serving e => some e
  | _ => none

def Rel.commits : Rel → Option Nat
  | .draining e | .unleasing e | .removing e | .deleting e => some e
  | _ => none

def Rel.claims : Rel → Option Nat
  | .lruClaimed e _ => some e
  | q => q.commits

theorem Rel.claims_of_commits {q : Rel} {e : Nat} (h : q.commits = some e) : q.claims = some e := by
  cases q <;> first | exact h | cases h

theorem Req.uses_of_takes {q : Req} {e : Nat} (h : q.takes = some e) : q.uses = some e := by
  cases q <;> first | exact h | cases h

/-! ## What a release can do -/

/-- **The transitions of a release**: it moves without a claim, claims an entry, gives the claim back or commits to it, goes on
with a committed one, and deletes it. -/
inductive RelStep (s : State) (r : Nat) : RelAct → State → Prop where
  | moves {a q} (now : (s.rels r).claims = none) (next : q.claims = none) : RelStep s r a (s.turns r q)
  | claim {e en} (now : s.rels r = .found e) (entry : s.entries e = some en) (unclaimed : en.releasing = false) :
    RelStep s r .claim ((s.put e { en with releasing := true }).turns r (.draining e))
  | lruClaim {e lastActive en} (now : s.rels r = .victim e lastActive) (entry : s.entries e = some en)
    (unclaimed : en.releasing = false) :
    RelStep s r .lruClaim ((s.put e { en with releasing := true }).turns r (.lruClaimed e lastActive))
  | unclaim {e lastActive en} (now : s.rels r = .lruClaimed e lastActive) (entry : s.entries e = some en) :
    RelStep s r .revalidate ((s.put e { en with releasing := false }).turns r .done)
  | commit {e lastActive en} (now : s.rels r = .lruClaimed e lastActive) (entry : s.entries e = some en)
    (cold : en.lastActive ≤ lastActive) : RelStep s r .revalidate (s.turns r (.draining e))
  | advances {a q e} (now : (s.rels r).commits = some e) (next : q.commits = some e) : RelStep s r a (s.turns r q)
  | delete {e} (now : s.rels r = .deleting e) : RelStep s r .delete { s.turns r .done with sessions := none }

theorem relStep_cases {s s' : State} {r : Nat} {a : RelAct} (h : s.relStep r a = some s') : RelStep s r a s' := by
  have hfree : ∀ {q₀ q : Rel}, s.rels r = q₀ → q₀.claims = none → q.claims = none → RelStep s r a (s.turns r q) :=
    fun hn hq₀ hq => .moves (by rw [hn, hq₀]) hq
  unfold State.relStep at h
  split at h <;> rename_i hn
  · cases h
    exact hfree hn rfl rfl
  · split at h
    · obtain ⟨_, -, rfl⟩ := map_eq_some_iff.1 h
      refine hfree hn rfl ?_
      split <;> rfl
    · cases h
      exact hfree hn rfl rfl
  · obtain ⟨-, -, rfl⟩ := map_eq_some_iff.1 h
    refine hfree hn rfl ?_
    split <;> rfl
  · split at h <;> cases h
    · exact hfree hn rfl rfl
    · exact hfree hn rfl rfl
  · obtain ⟨en, hen, rfl⟩ := map_eq_some_iff.1 h
    cases hc : en.releasing with
    | true => exact hfree hn rfl rfl
    | false => exact .lruClaim hn hen hc
  · obtain ⟨_, hen, rfl⟩ := map_eq_some_iff.1 h
    split
    · exact .unclaim hn hen
    · exact .commit hn hen (Nat.not_lt.1 ‹_›)
  · cases h
    exact hfree hn rfl rfl
  · cases h
    exact hfree hn rfl rfl
  · split at h <;> cases h
    · exact hfree hn rfl rfl
    · exact hfree hn rfl rfl
  · obtain ⟨en, hen, rfl⟩ := map_eq_some_iff.1 h
    cases hc : en.releasing with
    | true => exact hfree hn rfl rfl
    | false => exact .claim hn hen hc
  · cases h
    exact .advances (by rw [hn]; rfl) rfl
  · split at h <;> cases h
    exact .advances (by rw [hn]; rfl) rfl
  · cases h
    exact .advances (by rw [hn]; rfl) rfl
  · cases h
    exact .delete hn
  · cases h

theorem step_cases {s s' : State} {a : Act} (h : s.step a = some s') :
    (∃ c b, a = .req c b ∧ s.reqStep c b = some s' ∧ ReqStep s c b s') ∨
      (∃ r b, a = .rel r b ∧ s.relStep r b = some s' ∧ RelStep s r b s') ∨
      ∃ lease now, s.now ≤ now ∧ s' = { s with lease, now } := by
  cases a with
  | req c b => exact .inl ⟨c, b, rfl, h, reqStep_cases h⟩
  | rel r b => exact .inr (.inl ⟨r, b, rfl, h, relStep_cases h⟩)
  | lease _ a =>
    simp only [State.step] at h
    split at h
    · obtain ⟨lease, -, rfl⟩ := map_eq_some_iff.1 h
      exact .inr (.inr ⟨lease, s.now, Nat.le_refl _, rfl⟩)
    · cases h
  | wait d =>
    cases h
    exact .inr (.inr ⟨s.lease, s.now + d, Nat.le_add_right _ _, rfl⟩)

/-! ## The condition and the property -/

/-- **No entry is taken for good from under a request**: none is claimed for good while a request uses it, and a loser of the
race to store meets no claimed entry. -/
def Careful (s : State) : Act → Prop
  | .rel r .claim => ∀ e en, s.rels r = .found e → s.entries e = some en → en.releasing = false →
      ∀ c, (s.reqs c).uses ≠ some e
  | .rel r .lruClaim => ∀ e lastActive en, s.rels r = .victim e lastActive → s.entries e = some en → en.releasing = false →
      ∀ c, (s.reqs c).takes ≠ some e
  | .rel r .revalidate => ∀ e lastActive en, s.rels r = .lruClaimed e lastActive → s.entries e = some en →
      en.lastActive ≤ lastActive → ∀ c, (s.reqs c).uses ≠ some e
  | .req _ .loadOrStore => ∀ e en, s.sessions = some e → s.entries e = some en → en.releasing = false
  | _ => True

/-- **A step is safe** when it does not remove the local repo while a request is served, and returns no handle whose release is
claimed. -/
structure Safe (s : State) (a : Act) : Prop where
  repo_kept : ∀ r, a = .rel r .removeAll → s.step a ≠ none → ∀ c e, s.reqs c ≠ .serving e
  unclaimed : ∀ s', s.step a = some s' → ∀ c e, s'.reqs c = .serving e →
    s.reqs c = .serving e ∨ ∃ en, s'.entries e = some en ∧ en.releasing = false

/-! ## The invariant -/

/-- **Claims and the map**: a claim is on the session's entry, has its flag and is held by one release, and an entry without the
flag is the session's. -/
structure Owned (s : State) : Prop where
  claimed : ∀ r e, (s.rels r).claims = some e → s.sessions = some e ∧ ∃ en, s.entries e = some en ∧ en.releasing = true
  sole : ∀ r r' e, (s.rels r).claims = some e → (s.rels r').claims = some e → r = r'
  live : ∀ e en, s.entries e = some en → en.releasing = false → s.sessions = some e

/-- **Claims, uses and the map**: a claim is on the session's entry, has its flag and is held by one release; a used entry is
the session's and not committed; what a loser takes is not claimed. -/
structure Guarded (s : State) : Prop where
  claimed : ∀ r e, (s.rels r).claims = some e → s.sessions = some e ∧ ∃ en, s.entries e = some en ∧ en.releasing = true
  sole : ∀ r r' e, (s.rels r).claims = some e → (s.rels r').claims = some e → r = r'
  used : ∀ c e, (s.reqs c).uses = some e → s.sessions = some e
  committed : ∀ r e c, (s.rels r).commits = some e → (s.reqs c).uses ≠ some e
  taken : ∀ c e en, (s.reqs c).takes = some e → s.entries e = some en → en.releasing = false
  live : ∀ e en, s.entries e = some en → en.releasing = false → s.sessions = some e

section
variable {s s' : State} {c r e : Nat}

theorem goes_reqs {d : Nat} {q : Req} : (s.goes c q).reqs d = if d = c then q else s.reqs d := Function.update_apply ..

theorem turns_rels {r' : Nat} {q : Rel} : (s.turns r q).rels r' = if r' = r then q else s.rels r' := Function.update_apply ..

theorem put_entries {e' : Nat} {en : Entry} : (s.put e en).entries e' = if e' = e then some en else s.entries e' :=
  Function.update_apply ..

theorem Guarded.owned (h : Guarded s) : Owned s := ⟨h.claimed, h.sole, h.live⟩

theorem Owned.guarded (h : Owned s) (hu : ∀ c e, (s.reqs c).uses = some e → s.sessions = some e)
    (hc : ∀ r e c, (s.rels r).commits = some e → (s.reqs c).uses ≠ some e)
    (ht : ∀ c e en, (s.reqs c).takes = some e → s.entries e = some en → en.releasing = false) : Guarded s :=
  ⟨h.claimed, h.sole, hu, hc, ht, h.live⟩

theorem Owned.of_unclaimed (hu : ∀ r e, (s.rels r).claims ≠ some e)
    (hl : ∀ e en, s.entries e = some en → en.releasing = false → s.sessions = some e) : Owned s :=
  ⟨fun r e hr => absurd hr (hu r e), fun r _ e hr => absurd hr (hu r e), hl⟩

theorem Owned.flag {en : Entry} (h : Owned s) (hr : (s.rels r).claims = some e) (hen : s.entries e = some en) :
    en.releasing = true := by
  obtain ⟨_, he', hf⟩ := (h.claimed r e hr).2
  rw [hen] at he'
  cases he'
  exact hf

theorem entries_touch {en : Entry} {t e' : Nat} {en' : Entry} (hen : s.entries e = some en)
    (h : (s.put e { en with lastActive := t }).entries e' = some en') :
    ∃ en₀, s.entries e' = some en₀ ∧ en₀.releasing = en'.releasing := by
  rw [put_entries] at h
  split at h
  · rename_i he
    cases h
    exact ⟨en, he ▸ hen, rfl⟩
  · exact ⟨en', h, rfl⟩

theorem Owned.touch {en : Entry} {t : Nat} (h : Owned s) (hen : s.entries e = some en) :
    Owned (s.put e { en with lastActive := t }) := by
  refine ⟨fun r e' hr => ⟨(h.claimed r e' hr).1, ?_⟩, h.sole, fun e' _ he' hfree => ?_⟩
  · rw [put_entries]
    split
    · rename_i he
      have hf : en.releasing = true := h.flag hr (he ▸ hen)
      exact ⟨_, rfl, hf⟩
    · exact (h.claimed r e' hr).2
  · obtain ⟨en₀, he₀, hf⟩ := entries_touch hen he'
    exact h.live e' en₀ he₀ (hf.trans hfree)

theorem Owned.unclaimed (h : Owned s) (hm : s.sessions = none) (r e : Nat) : (s.rels r).claims ≠ some e := by
  intro hr
  have := (h.claimed r e hr).1
  rw [hm] at this
  cases this

theorem Owned.store {t : Nat} (h : Owned s) (hm : s.sessions = none) :
    Owned { (s.put c ⟨false, t⟩).goes c (.serving c) with sessions := some c } := by
  refine .of_unclaimed (h.unclaimed hm) (fun e en hen hf => ?_)
  simp only [State.goes, put_entries] at hen
  split at hen
  · rename_i he
    rw [he]
  · have := h.live e en hen hf
    rw [hm] at this
    cases this

theorem Owned.turns {q : Rel} (h : Owned s) (hc : q.claims = none ∨ q.claims = (s.rels r).claims) :
    Owned (s.turns r q) := by
  have ho : ∀ {r' e}, ((s.turns r q).rels r').claims = some e → (s.rels r').claims = some e := by
    intro _ e hr'
    rw [turns_rels] at hr'
    split at hr'
    · rename_i hr
      rcases hc with hn | hs
      · rw [hn] at hr'
        cases hr'
      · rw [hr, ← hs]
        exact hr'
    · exact hr'
  exact ⟨fun r' e hr' => h.claimed r' e (ho hr'), fun r₁ r₂ e hr₁ hr₂ => h.sole r₁ r₂ e (ho hr₁) (ho hr₂), h.live⟩

theorem Owned.unclaimed_of_free {en : Entry} (h : Owned s) (hen : s.entries e = some en) (hf : en.releasing = false)
    (r' e' : Nat) : (s.rels r').claims ≠ some e' := by
  -- every claim is on the session's entry, whose flag is not set
  intro hr'
  have hs := (h.claimed r' e' hr').1
  rw [h.live e en hen hf] at hs
  cases hs
  rw [h.flag hr' hen] at hf
  cases hf

theorem Owned.claim {q : Rel} {en : Entry} (h : Owned s) (hen : s.entries e = some en) (hf : en.releasing = false)
    (hq : q.claims = some e) : Owned ((s.put e { en with releasing := true }).turns r q) := by
  have hc : ∀ {r' e'}, ((s.turns r q).rels r').claims = some e' → r' = r ∧ e' = e := by
    intro r' e' hr'
    rw [turns_rels] at hr'
    split at hr'
    · rename_i hr
      rw [hq] at hr'
      exact ⟨hr, (some.inj hr').symm⟩
    · exact absurd hr' (h.unclaimed_of_free hen hf r' e')
  refine ⟨fun _ e' hr' => ?_, fun _ _ e' hr₁ hr₂ => ?_, fun e' en' he' hf' => ?_⟩
  · obtain ⟨-, rfl⟩ := hc hr'
    exact ⟨h.live _ en hen hf, _, put_entries.trans (if_pos rfl), rfl⟩
  · exact (hc hr₁).1.trans (hc hr₂).1.symm
  · simp only [State.turns, put_entries] at he'
    split at he'
    · cases he'
      cases hf'
    · exact h.live e' en' he' hf'

theorem Owned.unclaimed_of_done (h : Owned s) (hc : (s.rels r).claims = some e) :
    ∀ r' e', ((s.turns r .done).rels r').claims ≠ some e' := by
  intro r' e' hr'
  rw [turns_rels] at hr'
  split at hr'
  · cases hr'
  rename_i hr
  have hs := (h.claimed r' e' hr').1
  rw [(h.claimed r e hc).1] at hs
  cases hs
  exact hr (h.sole r' r e hr' hc)

theorem Owned.unclaim {en : Entry} (h : Owned s) (hc : (s.rels r).claims = some e) :
    Owned ((s.put e { en with releasing := false }).turns r .done) := by
  refine .of_unclaimed (h.unclaimed_of_done hc) (fun e' en' he' hf' => ?_)
  simp only [State.turns, put_entries] at he'
  split at he'
  · rename_i he
    rw [he]
    exact (h.claimed r e hc).1
  · exact h.live e' en' he' hf'

theorem Owned.delete (h : Owned s) (hc : (s.rels r).claims = some e) : Owned { s.turns r .done with sessions := none } := by
  refine .of_unclaimed (h.unclaimed_of_done hc) (fun e' en' he' hf' => ?_)
  have hs := h.live e' en' he' hf'
  rw [(h.claimed r e hc).1] at hs
  cases hs
  rw [h.flag hc he'] at hf'
  cases hf'

theorem Guarded.goes {q : Req} (h : Guarded s) (hu : ∀ e, q.uses = some e → s.sessions = some e)
    (hc : ∀ e, q.uses = some e → ∀ r, (s.rels r).commits ≠ some e)
    (ht : ∀ e en, q.takes = some e → s.entries e = some en → en.releasing = false) : Guarded (s.goes c q) where
  claimed := h.claimed
  sole := h.sole
  used d e hd := by
    rw [goes_reqs] at hd
    split at hd
    · exact hu e hd
    · exact h.used d e hd
  committed r e d hr hd := by
    rw [goes_reqs] at hd
    split at hd
    · exact hc e hd r hr
    · exact h.committed r e d hr hd
  taken d e en hd hen := by
    rw [goes_reqs] at hd
    split at hd
    · exact ht e en hd hen
    · exact h.taken d e en hd hen
  live := h.live

theorem Guarded.goes_unused {q : Req} (h : Guarded s) (hq : q.uses = none) : Guarded (s.goes c q) := by
  have hn : ∀ e, q.uses ≠ some e := fun e he => by rw [hq] at he; cases he
  exact h.goes (fun e he => absurd he (hn e)) (fun e he => absurd he (hn e))
    fun e _ he _ => absurd (Req.uses_of_takes he) (hn e)

theorem Guarded.touch {en : Entry} {t : Nat} (h : Guarded s) (hen : s.entries e = some en) :
    Guarded (s.put e { en with lastActive := t }) := by
  refine (h.owned.touch hen).guarded h.used h.committed (fun d e' _ hd he' => ?_)
  obtain ⟨en₀, he₀, hf⟩ := entries_touch hen he'
  rw [← hf]
  exact h.taken d e' en₀ hd he₀

theorem Guarded.store {t : Nat} (h : Guarded s) (hm : s.sessions = none) :
    Guarded { (s.put c ⟨false, t⟩).goes c (.serving c) with sessions := some c } := by
  have hu : ∀ d e, (s.reqs d).uses ≠ some e := by
    intro d e hd
    have := h.used d e hd
    rw [hm] at this
    cases this
  refine (h.owned.store hm).guarded (fun d e hd => ?_)
    (fun r e _ hr => absurd (Rel.claims_of_commits hr) (h.owned.unclaimed hm r e)) (fun d e _ hd _ => ?_)
  · simp only [goes_reqs] at hd
    split at hd
    · exact hd
    · exact absurd hd (hu d e)
  · simp only [goes_reqs] at hd
    split at hd
    · cases hd
    · exact absurd (Req.uses_of_takes hd) (hu d e)

theorem Guarded.reqStep {a : ReqAct} (h : Guarded s) (hok : Careful s (.req c a)) (hs : ReqStep s c a s') : Guarded s' := by
  cases hs with
  | begin | found | missed | backOff | retry | cancel | leased | unleased | abandoned | finish => exact h.goes_unused rfl
  | check | lookup | hydrate =>
    refine h.goes_unused ?_
    split <;> rfl
  | touch _ hen => exact (h.touch hen).goes_unused rfl
  | serve _ hen hf =>
    refine h.goes ?_ ?_ nofun
    · rintro _ ⟨⟩
      exact h.live _ _ hen hf
    · rintro _ ⟨⟩ r hr
      exact h.owned.unclaimed_of_free hen hf r _ (Rel.claims_of_commits hr)
  | lose _ hh =>
    refine h.goes ?_ ?_ ?_
    · rintro _ ⟨⟩
      exact hh
    · rintro _ ⟨⟩ r hr
      obtain ⟨en, hen, hflag⟩ := (h.claimed r _ (Rel.claims_of_commits hr)).2
      rw [hok _ en hh hen] at hflag
      cases hflag
    · rintro _ en ⟨⟩ hen
      exact hok _ en hh hen
  | win _ hm => exact h.store hm
  | @yield e n _ hn _ =>
    have huses : (s.reqs c).uses = some e := by rw [hn]; rfl
    refine h.goes ?_ ?_ ?_
    · rintro _ ⟨⟩
      exact h.used c e huses
    · rintro _ ⟨⟩ r hr
      exact h.committed r e c hr huses
    · rintro _ en ⟨⟩ hen
      exact h.taken c e en (by rw [hn]; rfl) hen
  | @touchWinner e _ hn hen =>
    have huses : (s.reqs c).uses = some e := by rw [hn]; rfl
    refine (h.touch hen).goes ?_ ?_ nofun
    · rintro _ ⟨⟩
      exact h.used c e huses
    · rintro _ ⟨⟩ r hr
      exact h.committed r e c hr huses

theorem Guarded.turns {q : Rel} (h : Guarded s) (hc : q.claims = none ∨ q.claims = (s.rels r).claims)
    (hcommits : ∀ e, q.commits = some e → ∀ c, (s.reqs c).uses ≠ some e) : Guarded (s.turns r q) := by
  refine (h.owned.turns hc).guarded h.used (fun r' e c hr' => ?_) h.taken
  rw [turns_rels] at hr'
  split at hr'
  · exact hcommits e hr' c
  · exact h.committed r' e c hr'

theorem Guarded.claim {q : Rel} {en : Entry} (h : Guarded s) (hen : s.entries e = some en) (hf : en.releasing = false)
    (hq : q.claims = some e) (ht : ∀ c, (s.reqs c).takes ≠ some e)
    (hcommits : ∀ e', q.commits = some e' → ∀ c, (s.reqs c).uses ≠ some e') :
    Guarded ((s.put e { en with releasing := true }).turns r q) := by
  refine (h.owned.claim hen hf hq).guarded h.used (fun r' e' c hr' => ?_) (fun c e' en' hc he' => ?_)
  · simp only [turns_rels] at hr'
    split at hr'
    · exact hcommits e' hr' c
    · exact h.committed r' e' c hr'
  · simp only [State.turns, put_entries] at he'
    split at he'
    · rename_i he
      subst he
      exact absurd hc (ht c)
    · exact h.taken c e' en' hc he'

theorem Guarded.unclaim {en : Entry} {lastActive : Nat} (h : Guarded s) (hn : s.rels r = .lruClaimed e lastActive) :
    Guarded ((s.put e { en with releasing := false }).turns r .done) := by
  have hclaim : (s.rels r).claims = some e := by rw [hn]; rfl
  refine (h.owned.unclaim hclaim).guarded h.used
    (fun r' e' _ hr' => absurd (Rel.claims_of_commits hr') (h.owned.unclaimed_of_done hclaim r' e')) (fun c e' en' hc he' => ?_)
  simp only [State.turns, put_entries] at he'
  split at he'
  · cases he'
    rfl
  · exact h.taken c e' en' hc he'

theorem Guarded.delete (h : Guarded s) (hn : s.rels r = .deleting e) :
    Guarded { s.turns r .done with sessions := none } := by
  have hcommit : (s.rels r).commits = some e := by rw [hn]; rfl
  have hclaim := Rel.claims_of_commits hcommit
  refine (h.owned.delete hclaim).guarded (fun c e' hc => ?_)
    (fun r' e' _ hr' => absurd (Rel.claims_of_commits hr') (h.owned.unclaimed_of_done hclaim r' e')) h.taken
  have hs := h.used c e' hc
  rw [(h.claimed r e hclaim).1] at hs
  cases hs
  exact absurd hc (h.committed r e c hcommit)

theorem Guarded.relStep {a : RelAct} (h : Guarded s) (hok : Careful s (.rel r a)) (hs : RelStep s r a s') : Guarded s' := by
  cases hs with
  | moves _ hn =>
    refine h.turns (.inl hn) fun e he => ?_
    rw [Rel.claims_of_commits he] at hn
    cases hn
  | claim hnow hen hf =>
    have hu := hok _ _ hnow hen hf
    refine h.claim hen hf rfl (fun c hc => hu c (Req.uses_of_takes hc)) ?_
    rintro _ ⟨⟩
    exact hu
  | lruClaim hnow hen hf => exact h.claim hen hf rfl (hok _ _ _ hnow hen hf) nofun
  | unclaim hnow => exact h.unclaim hnow
  | commit hnow hen hcold =>
    refine h.turns (.inr (by rw [hnow]; rfl)) ?_
    rintro _ ⟨⟩
    exact hok _ _ _ hnow hen hcold
  | advances hnow hn =>
    refine h.turns (.inr ?_) fun e he c => ?_
    · rw [Rel.claims_of_commits hnow, Rel.claims_of_commits hn]
    · refine h.committed r e c ?_
      rw [hnow, ← hn, he]
  | delete hnow => exact h.delete hnow

theorem Guarded.step {a : Act} (h : Guarded s) (hok : Careful s a) (hs : s.step a = some s') : Guarded s' := by
  obtain ⟨c, b, rfl, -, hs⟩ | ⟨r, b, rfl, -, hs⟩ | ⟨_, -, -, rfl⟩ := step_cases hs
  · exact h.reqStep hok hs
  · exact h.relStep hok hs
  · exact ⟨h.claimed, h.sole, h.used, h.committed, h.taken, h.live⟩

/-! ## Safety -/

theorem Guarded.serves {a : ReqAct} {d e' : Nat} (h : Guarded s) (hs : ReqStep s c a s') (hd : s'.reqs d = .serving e') :
    s.reqs d = .serving e' ∨ ∃ en, s'.entries e' = some en ∧ en.releasing = false := by
  have hg : ∀ {s₀ : State} {q : Req}, (s₀.goes c q).reqs d = .serving e' → s₀.reqs d = .serving e' ∨ q = .serving e' := by
    intro _ q hq
    rw [goes_reqs] at hq
    split at hq
    · exact .inr hq
    · exact .inl hq
  cases hs with
  | begin | found | missed | backOff | retry | cancel | leased | unleased | abandoned | finish | lose | yield | touch =>
    rcases hg hd with hd | hq
    · exact .inl hd
    · cases hq
  | check | lookup | hydrate =>
    rcases hg hd with hd | hq
    · exact .inl hd
    · split at hq <;> cases hq
  | serve _ hen hf =>
    rcases hg hd with hd | hq
    · exact .inl hd
    · cases hq
      exact .inr ⟨_, hen, hf⟩
  | win =>
    rcases hg hd with hd | hq
    · exact .inl hd
    · cases hq
      exact .inr ⟨_, put_entries.trans (if_pos rfl), rfl⟩
  | touchWinner hn hen =>
    rcases hg hd with hd | hq
    · exact .inl hd
    · cases hq
      have hf := h.taken c _ _ (by rw [hn]; rfl) hen
      exact .inr ⟨_, put_entries.trans (if_pos rfl), hf⟩

theorem RelStep.reqs_eq {a : RelAct} (h : RelStep s r a s') : s'.reqs = s.reqs := by
  cases h <;> rfl

theorem Guarded.safe (h : Guarded s) (a : Act) : Safe s a where
  repo_kept := by
    rintro r rfl hs c e hc
    obtain ⟨_, hs'⟩ := ne_none_iff_exists'.1 hs
    have hcommit : ∃ e', (s.rels r).commits = some e' := by
      cases hr : s.rels r with
      | removing e' => exact ⟨e', rfl⟩
      | _ => simp [State.step, State.relStep, hr] at hs'
    obtain ⟨e', hcommit⟩ := hcommit
    have hu : (s.reqs c).uses = some e := by rw [hc]; rfl
    have hsame := (h.used c e hu).symm.trans (h.claimed r e' (Rel.claims_of_commits hcommit)).1
    cases hsame
    exact h.committed r e c hcommit hu
  unclaimed := by
    intro _ hs c e hc
    obtain ⟨d, b, rfl, -, hs⟩ | ⟨r, b, rfl, -, hs⟩ | ⟨_, _, -, rfl⟩ := step_cases hs
    · exact h.serves hs hc
    · rw [hs.reqs_eq] at hc
      exact .inl hc
    · exact .inl hc

theorem Initial.guarded (h : Initial s) : Guarded s := by
  have hrels : ∀ r e, (s.rels r).claims ≠ some e := fun r e => by rw [h.rels r]; exact nofun
  have hreqs : ∀ c e, (s.reqs c).uses ≠ some e := fun c e => by rw [h.reqs c]; exact nofun
  have he : ∀ e en, s.entries e ≠ some en := fun e en => by rw [h.entries e]; exact nofun
  exact (Owned.of_unclaimed hrels fun e en hen => absurd hen (he e en)).guarded (fun c e hc => absurd hc (hreqs c e))
    (fun r e _ hr => absurd (Rel.claims_of_commits hr) (hrels r e)) (fun c e en _ hen => absurd hen (he e en))

end

def served : List Act :=
  [.req 0 .begin, .req 0 .load, .req 0 (.lookup true), .lease (.request 0) (.tryLock 0 "a".toList true),
    .lease (.request 0) (.issue 0 true), .lease (.request 0) (.insert 0 .done), .req 0 .leased, .req 0 (.hydrate true),
    .req 0 .loadOrStore, .req 0 .finish]

def judged : List Act := [.wait 301, .rel 0 .evict, .rel 0 .look, .rel 0 .judge]

def unleased : List Act :=
  [.rel 0 .find, .rel 0 .claim, .rel 0 .drained, .lease (.release 0) (.unlock 0), .lease (.release 0) (.mark 0 true),
    .rel 0 .unleased]

/-- **No careful run evicts a session under a request**: no repo is removed while a request is served, and no claimed handle
is returned. -/
theorem never_evicted_while_served {s : State} {as : List Act} (hinit : Initial s) (hcareful : Along State.step Careful s as) :
    Along State.step Safe s as :=
  along_of_invariant (fun _ _ _ hI hok hs => Guarded.step hI hok hs) (fun _ a hI _ => Guarded.safe hI a) hinit.guarded
    hcareful

theorem never_evicted_while_served_idle :
    Along State.step Safe untouched (served ++ judged ++ unleased ++ [.rel 0 .removeAll, .rel 0 .delete]) := by
  refine never_evicted_while_served untouched_initial ?_
  iterate 8 refine Along.cons_of_step trivial rfl ?_
  refine Along.cons_of_step nofun rfl ?_
  iterate 6 refine Along.cons_of_step trivial rfl ?_
  refine Along.cons_of_step ?_ rfl ?_
  · rintro e _ - - - (_ | c) <;> exact nofun
  iterate 6 refine Along.cons_of_step trivial rfl ?_
  trivial

/-- **A request is let in between the look at the activity and the claim**, and the repo is removed under it. -/
theorem removed_while_serving : Initial untouched ∧ ∃ s, exec State.step untouched
    (served ++ judged ++ [.req 1 .begin, .req 1 .load, .req 1 .check, .req 1 .touch, .req 1 .recheck] ++ unleased) = some s ∧
      ¬ Safe s (.rel 0 .removeAll) := by
  refine ⟨untouched_initial, _, rfl, fun h => ?_⟩
  exact h.repo_kept 0 rfl nofun 1 0 rfl

end Jamsesh.Lifecycle
