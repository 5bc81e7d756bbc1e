import Jamsesh.Lifecycle
/-!
# FirstRequests — requests that come to a pod for a session it does not have yet

The map is asked before the lease is acquired and written after the hydration, and the lock excludes the same pod's other
connections.  So of two requests that both find no entry the second fails (`second_refused`); where that does not happen every
request gets the one handle (`requests_share_handle`).
-/
namespace Jamsesh.Lifecycle

open Lease Machine Option
open Function (update update_self update_of_ne)

/-! ## Undisturbed runs -/

/-- Requests of this pod only, whose lookups, hydrations and statements succeed: nothing is released, no connection is lost and no
other pod asks for the session. -/
def Act.Undisturbed : Act → Prop
  | .req _ (.lookup ok) | .req _ (.hydrate ok) => ok = true
  | .req _ _ | .wait _ => True
  | .lease (.request _) (.tryLock _ _ ok) | .lease (.request _) (.issue _ ok) | .lease (.request _) (.cleanup _ ok)
  | .lease (.request _) (.mark _ ok) => ok = true
  | .lease (.request _) (.insert _ outcome) => outcome = .done
  | .lease (.request _) (.unlock _) | .lease .others .elsewhere => True
  | .lease _ _ | .rel _ _ => False

instance (a : Act) : Decidable a.Undisturbed := by
  unfold Act.Undisturbed
  split <;> infer_instance

def Req.Acquiring : Req → Prop
  | .looking | .leasing | .hydrating | .abandoning | .hydrated _ | .beaten _ | .yielded _ => True
  | _ => False

def Req.Pending : Req → Prop
  | .idle | .serving _ | .finished | .failed _ => False
  | _ => True

/-- **One request at a time finds no entry**: none is in `acquireNew` then. -/
def OneAtATime (s : State) : Act → Prop
  | .req c .load => s.sessions = none → ∀ d, d ≠ c → ¬ (s.reqs d).Acquiring
  | _ => True

def stepsLeft (l : Call) : Req → Nat
  | .loading => 12
  | .looking => 11
  | .leasing =>
    match l with
    | .idle => 10
    | .locked _ _ => 9
    | .issued _ _ _ => 8
    | _ => 7
  | .hydrating => 6
  | .hydrated _ => 5
  | .loaded _ => 3
  | .checked _ => 2
  | .touched _ => 1
  | _ => 0

def State.left (s : State) (c : Nat) : Nat := stepsLeft (s.lease.calls c) (s.reqs c)

/-- **Every request gets a handle, and it is one**: none has failed, one that has not returned can go on unless another is in
`acquireNew`, and when all have returned one lease handle is not released. -/
structure SharesHandle (s : State) : Prop where
  none_failed : ∀ c err, s.reqs c ≠ .failed err
  goes_on : ∀ c, (s.reqs c).Pending → ∃ a s', a.Undisturbed ∧ (OneAtATime s a ∨ ∃ d, d ≠ c ∧ (s.reqs d).Acquiring) ∧
    s.step a = some s' ∧ s'.left c < s.left c
  one_handle : (∀ c, ¬ (s.reqs c).Pending) → (∃ c, s.reqs c ≠ .idle) →
    ∃! i, ∃ podID n token, s.lease.calls i = .held podID n token

/-! ## The invariant -/

def Acquired (l : Call) : Prop := ∃ podID n token, l = .held podID n token

def Underway : Call → Prop
  | .idle | .locked _ _ | .issued _ _ _ | .held _ _ _ => True
  | _ => False

/-- What a request at a step knows: one with an entry has the session's, and one in `acquireNew` is there while the session
has none. -/
def Fits (sessions : Option Nat) (l : Call) : Req → Prop
  | .idle | .loading => True
  | .loaded e | .checked e | .touched e => sessions = some e
  | .serving _ | .finished => sessions ≠ none
  | .looking => sessions = none ∧ l = .idle
  | .leasing => sessions = none ∧ Underway l
  | .hydrating | .hydrated _ => sessions = none ∧ Acquired l
  | _ => False

/-- **One request is in `acquireNew`, or the session has its entry.** -/
structure First (s : State) : Prop where
  fits : ∀ c, Fits s.sessions (s.lease.calls c) (s.reqs c)
  sole : ∀ c d, (s.reqs c).Acquiring → (s.reqs d).Acquiring → c = d
  leases : ∀ c, s.lease.calls c ≠ .idle → (s.reqs c).Acquiring ∨ s.sessions = some c
  entry : ∀ e, s.sessions = some e → Acquired (s.lease.calls e) ∧ ∃ en, s.entries e = some en ∧ en.releasing = false
  holder : ∀ c, s.lease.holder = some c → s.lease.calls c ≠ .idle

section
variable {s s' : State} {c : Nat}

theorem First.goes {q : Req} (h : First s) (hf : Fits s.sessions (s.lease.calls c) q)
    (hsole : q.Acquiring → ∀ d, d ≠ c → ¬ (s.reqs d).Acquiring)
    (hstays : (s.reqs c).Acquiring → q.Acquiring ∨ s.lease.calls c = .idle) : First (s.goes c q) := by
  have hr : ∀ d, d ≠ c → (s.goes c q).reqs d = s.reqs d := fun d hd => update_of_ne hd _ _
  have hs : (s.goes c q).reqs c = q := update_self _ _ _
  refine ⟨fun d => ?_, fun d d' hd hd' => ?_, fun d hd => ?_, h.entry, h.holder⟩
  · by_cases hdc : d = c
    · subst hdc
      rw [hs]
      exact hf
    · rw [hr d hdc]
      exact h.fits d
  · by_cases hdc : d = c <;> by_cases hdc' : d' = c
    · rw [hdc, hdc']
    · rw [hdc, hs] at hd
      rw [hr d' hdc'] at hd'
      exact absurd hd' (hsole hd d' hdc')
    · rw [hdc', hs] at hd'
      rw [hr d hdc] at hd
      exact absurd hd (hsole hd' d hdc)
    · rw [hr d hdc] at hd
      rw [hr d' hdc'] at hd'
      exact h.sole d d' hd hd'
  · rcases h.leases d hd with ha | hsession
    · by_cases hdc : d = c
      · subst hdc
        rw [hs]
        rcases hstays ha with hq | hi
        · exact .inl hq
        · exact absurd hi hd
      · rw [hr d hdc]
        exact .inl ha
    · exact .inr hsession

theorem First.alone (h : First s) (hc : (s.reqs c).Acquiring) : ∀ d, d ≠ c → ¬ (s.reqs d).Acquiring :=
  fun d hdc hd => hdc (h.sole d c hd hc)

theorem First.touch {e t : Nat} {en : Entry} (h : First s) (hen : s.entries e = some en) :
    First (s.put e { en with lastActive := t }) := by
  refine ⟨h.fits, h.sole, h.leases, fun e' he' => ⟨(h.entry e' he').1, ?_⟩, h.holder⟩
  obtain ⟨en', hen', hf⟩ := (h.entry e' he').2
  by_cases hee' : e' = e
  · subst hee'
    rw [hen] at hen'
    cases hen'
    exact ⟨_, update_self _ _ _, hf⟩
  · exact ⟨en', (update_of_ne hee' _ _).trans hen', hf⟩

theorem First.unclaimed {e : Nat} {en : Entry} (h : First s) (he : s.sessions = some e) (hen : s.entries e = some en) :
    en.releasing = false := by
  obtain ⟨_, he', hf⟩ := (h.entry e he).2
  rw [hen] at he'
  cases he'
  exact hf

theorem First.store {t : Nat} (h : First s) (hnow : s.reqs c = .hydrated t) :
    First { (s.put c ⟨false, t⟩).goes c (.serving c) with sessions := some c } := by
  have hf := h.fits c
  rw [hnow] at hf
  obtain ⟨hm, hh⟩ := hf
  have ha : (s.reqs c).Acquiring := by rw [hnow]; trivial
  have halone := h.alone ha
  -- the others have just begun
  have ho : ∀ d, d ≠ c → s.reqs d = .idle ∨ s.reqs d = .loading := by
    intro d hdc
    have hd := h.fits d
    have hd' := halone d hdc
    cases hq : s.reqs d <;> simp_all [Fits, Req.Acquiring]
  have hr : ∀ d, d ≠ c → update s.reqs c (.serving c) d = s.reqs d := fun d hd => update_of_ne hd _ _
  have hs : update s.reqs c (.serving c) c = .serving c := update_self _ _ _
  have hn : ∀ d, ¬ (update s.reqs c (.serving c) d).Acquiring := by
    intro d hd
    by_cases hdc : d = c
    · rw [hdc, hs] at hd
      exact hd
    · rw [hr d hdc] at hd
      exact halone d hdc hd
  refine ⟨fun d => ?_, fun d _ hd _ => absurd hd (hn d), fun d hd => ?_, ?_, h.holder⟩
  · show Fits (some c) (s.lease.calls d) (update s.reqs c (.serving c) d)
    by_cases hdc : d = c
    · rw [hdc, hs]
      exact nofun
    · rcases ho d hdc with hd | hd <;> rw [hr d hdc, hd] <;> trivial
  · rcases h.leases d hd with hd | hd
    · exact .inr (congrArg some (h.sole c d ha hd))
    · rw [hm] at hd
      cases hd
  · rintro e ⟨⟩
    exact ⟨hh, _, update_self _ _ _, rfl⟩

theorem First.reqStep {a : ReqAct} (h : First s) (hcalm : (Act.req c a).Undisturbed) (ho : OneAtATime s (.req c a))
    (hstep : ReqStep s c a s') : First s' := by
  have hfits := h.fits c
  have hsolo := h.alone (c := c)
  cases hstep with
  | begin hnow => exact h.goes trivial False.elim (by rw [hnow]; exact False.elim)
  | found hnow hhit => exact h.goes hhit False.elim (by rw [hnow]; exact False.elim)
  | missed hnow hm =>
    have hidle : s.lease.calls c = .idle := by
      by_contra hne
      rcases h.leases c hne with ha | hs
      · rw [hnow] at ha
        exact ha
      · rw [hm] at hs
        cases hs
    exact h.goes ⟨hm, hidle⟩ (fun _ => ho hm) (by rw [hnow]; exact False.elim)
  | check hnow hen =>
    rw [hnow] at hfits
    rw [h.unclaimed hfits hen]
    exact h.goes hfits False.elim (by rw [hnow]; exact False.elim)
  | touch hnow hen =>
    rw [hnow] at hfits
    exact (h.touch hen).goes hfits False.elim (by simp only [State.put]; rw [hnow]; exact False.elim)
  | backOff hnow hen hc =>
    rw [hnow] at hfits
    rw [h.unclaimed hfits hen] at hc
    cases hc
  | serve hnow =>
    rw [hnow] at hfits
    refine h.goes (fun hn => ?_) False.elim (by rw [hnow]; exact False.elim)
    rw [hfits] at hn
    cases hn
  | retry hnow | cancel hnow | abandoned hnow | yield hnow | touchWinner hnow =>
    rw [hnow] at hfits
    exact hfits.elim
  | lookup hnow =>
    have hok : _ = true := hcalm
    subst hok
    rw [hnow] at hfits hsolo
    exact h.goes ⟨hfits.1, by rw [hfits.2]; trivial⟩ (fun _ => hsolo trivial) fun _ => .inl trivial
  | leased hnow hh =>
    rw [hnow] at hfits hsolo
    exact h.goes ⟨hfits.1, _, _, _, hh⟩ (fun _ => hsolo trivial) fun _ => .inl trivial
  | unleased hnow hf =>
    rw [hnow] at hfits
    rw [Fits, hf] at hfits
    exact hfits.2.elim
  | hydrate hnow =>
    have hok : _ = true := hcalm
    subst hok
    rw [hnow] at hfits hsolo
    exact h.goes hfits (fun _ => hsolo trivial) fun _ => .inl trivial
  | lose hnow hhit =>
    rw [hnow] at hfits
    rw [Fits, hhit] at hfits
    cases hfits.1
  | win hnow => exact h.store hnow
  | finish hnow =>
    rw [hnow] at hfits
    exact h.goes hfits False.elim (by rw [hnow]; exact False.elim)

theorem First.leaseStep {a : Lease.Act} {lease : Lease.State} (h : First s) (hn : s.reqs c = .leasing) (ha : acquires c a = true)
    (hcalm : (Act.lease (.request c) a).Undisturbed) (hstep : Lease.Step s.lease a lease) : First { s with lease } := by
  have hfits := h.fits c
  rw [hn] at hfits
  obtain ⟨hm, hu⟩ := hfits
  have hacquiring : (s.reqs c).Acquiring := by rw [hn]; trivial
  -- nobody else has begun with the lease
  have hothers : ∀ d, d ≠ c → s.lease.calls d = .idle := by
    intro d hdc
    by_contra hd
    rcases h.leases d hd with hd | hd
    · exact hdc (h.sole d c hd hacquiring)
    · rw [hm] at hd
      cases hd
  suffices hnext : ∃ l, Underway l ∧ l ≠ .idle ∧ lease.calls = update s.lease.calls c l ∧
      (lease.holder = s.lease.holder ∨ lease.holder = some c) by
    obtain ⟨l, hl, hne, hc, hh⟩ := hnext
    have hself : lease.calls c = l := by rw [hc, update_self]
    have hrest : ∀ d, d ≠ c → lease.calls d = s.lease.calls d := fun d hd => by rw [hc, update_of_ne hd]
    refine ⟨fun d => ?_, h.sole, fun d hd => ?_, fun e he => ?_, fun d hd => ?_⟩
    · show Fits s.sessions (lease.calls d) (s.reqs d)
      by_cases hdc : d = c
      · rw [hdc, hself, hn]
        exact ⟨hm, hl⟩
      · rw [hrest d hdc]
        exact h.fits d
    · by_cases hdc : d = c
      · rw [hdc]
        exact .inl hacquiring
      · have hd : lease.calls d ≠ .idle := hd
        rw [hrest d hdc] at hd
        exact h.leases d hd
    · have he : s.sessions = some e := he
      rw [hm] at he
      cases he
    · show lease.calls d ≠ .idle
      have hd : lease.holder = some d := hd
      by_cases hdc : d = c
      · rw [hdc, hself]
        exact hne
      rcases hh with hs | hmine
      · rw [hs] at hd
        exact absurd (hothers d hdc) (h.holder d hd)
      · rw [hmine] at hd
        exact absurd (some.inj hd).symm hdc
  cases hstep with
  | tryLockFails | issueFails | leak => exact absurd hcalm Bool.false_ne_true
  | insertLost | insertFails => cases hcalm
  | @conflict i _ hi ht =>
    obtain rfl : c = i := of_decide_eq_true ha
    obtain ⟨d, hd⟩ := ne_none_iff_exists'.1 ht
    by_cases hdc : d = c
    · subst hdc
      exact absurd hi (h.holder d hd)
    · exact absurd (hothers d hdc) (h.holder d hd)
  | @lock i podID _ _ =>
    obtain rfl : c = i := of_decide_eq_true ha
    exact ⟨.locked podID s.lease.locks, trivial, nofun, rfl, .inr rfl⟩
  | @issue i podID n _ =>
    obtain rfl : c = i := of_decide_eq_true ha
    exact ⟨.issued podID n s.lease.nextToken, trivial, nofun, rfl, .inl rfl⟩
  | @insert i podID n token _ =>
    obtain rfl : c = i := of_decide_eq_true ha
    exact ⟨.held podID n token, trivial, nofun, rfl, .inl rfl⟩
  | @cleanup i _ n hf =>
    obtain rfl : c = i := of_decide_eq_true ha
    rw [hf] at hu
    exact hu.elim
  | unlock | mark | markFails | connLost | elsewhere => cases ha

theorem First.step {a : Act} (h : First s) (hc : a.Undisturbed) (ho : OneAtATime s a) (hs : s.step a = some s') :
    First s' := by
  cases a with
  | req => exact h.reqStep hc ho (reqStep_cases hs)
  | rel => exact hc.elim
  | wait =>
    cases hs
    exact ⟨h.fits, h.sole, h.leases, h.entry, h.holder⟩
  | lease who a =>
    simp only [State.step] at hs
    split at hs
    · rename_i hm
      obtain ⟨_, hl, rfl⟩ := map_eq_some_iff.1 hs
      cases who with
      | request c =>
        have hf := h.fits c
        simp only [State.may] at hm
        split at hm <;> rename_i hn
        · exact h.leaseStep hn hm hc (Lease.step_cases hl)
        · rw [hn] at hf
          exact hf.elim
        · rw [hn] at hf
          exact hf.elim
        · cases hm
      | release => exact hc.elim
      | others =>
        cases a with
        | elsewhere =>
          cases hl
          exact ⟨h.fits, h.sole, h.leases, h.entry, h.holder⟩
        | _ => exact hc.elim
    · cases hs

theorem Initial.first (h : Initial s) (hl : Lease.Initial s.lease) : First s where
  fits c := by rw [h.reqs c]; trivial
  sole c _ hc := by rw [h.reqs c] at hc; exact hc.elim
  leases c hc := absurd (hl.idle c) hc
  entry e he := by rw [h.sessions] at he; cases he
  holder c hc := by rw [hl.unheld] at hc; cases hc

/-! ## Every request gets the handle -/

theorem left_lt (a : ReqAct) (q : Req) (s₀ : State) (hc : (Act.req c a).Undisturbed)
    (hstep : s.reqStep c a = some (s₀.goes c q)) (hl : s₀.lease = s.lease)
    (hlt : stepsLeft (s.lease.calls c) q < stepsLeft (s.lease.calls c) (s.reqs c)) :
    ∃ a s', a.Undisturbed ∧ (OneAtATime s a ∨ ∃ d, d ≠ c ∧ (s.reqs d).Acquiring) ∧ s.step a = some s' ∧ s'.left c < s.left c := by
  have hs : (s₀.goes c q).reqs c = q := update_self _ _ _
  have hsame : (s₀.goes c q).lease = s.lease := hl
  refine ⟨.req c a, s₀.goes c q, hc, ?_, hstep, ?_⟩
  · by_cases ho : ∃ d, d ≠ c ∧ (s.reqs d).Acquiring
    · exact .inr ho
    refine .inl ?_
    cases a with
    | load => exact fun _ d hdc hd => ho ⟨d, hdc, hd⟩
    | _ => trivial
  · rw [State.left, State.left, hsame, hs]
    exact hlt

theorem left_lt_of_lease {a : Lease.Act} {lease : Lease.State} {l : Lease.Call} (hn : s.reqs c = .leasing)
    (hs : s.lease.step a = some lease) (hl : lease.calls c = l) (ha : acquires c a = true)
    (hc : (Act.lease (.request c) a).Undisturbed)
    (hlt : stepsLeft l .leasing < stepsLeft (s.lease.calls c) .leasing) :
    ∃ a s', a.Undisturbed ∧ (OneAtATime s a ∨ ∃ d, d ≠ c ∧ (s.reqs d).Acquiring) ∧ s.step a = some s' ∧ s'.left c < s.left c := by
  refine ⟨.lease (.request c) a, { s with lease }, hc, .inl trivial, ?_, ?_⟩
  · simp only [State.step, State.may, hn, ha, if_true, hs, map_some]
  · rw [State.left, State.left, hn, hl]
    exact hlt

theorem First.goes_on (h : First s) (hc : (s.reqs c).Pending) :
    ∃ a s', a.Undisturbed ∧ (OneAtATime s a ∨ ∃ d, d ≠ c ∧ (s.reqs d).Acquiring) ∧ s.step a = some s' ∧ s'.left c < s.left c := by
  have hfits := h.fits c
  cases hq : s.reqs c <;> rw [hq] at hfits hc
  case idle | serving | finished | failed => exact hc.elim
  case waiting | abandoning | beaten | yielded => exact hfits.elim
  case loading =>
    cases hs : s.sessions with
    | some e => exact left_lt .load (.loaded e) s trivial (by simp only [State.reqStep, hq, hs]) rfl (by simp [hq, stepsLeft])
    | none => exact left_lt .load .looking s trivial (by simp only [State.reqStep, hq, hs]) rfl (by simp [hq, stepsLeft])
  case loaded e =>
    obtain ⟨_, hen, hf⟩ := (h.entry e hfits).2
    refine left_lt .check (.checked e) s trivial ?_ rfl (by simp [hq, stepsLeft])
    simp [State.reqStep, hq, hen, hf]
  case checked e =>
    obtain ⟨en, hen, -⟩ := (h.entry e hfits).2
    refine left_lt .touch (.touched e) (s.put e { en with lastActive := s.now }) trivial ?_ rfl (by simp [hq, stepsLeft])
    simp [State.reqStep, hq, hen]
  case touched e =>
    obtain ⟨_, hen, hf⟩ := (h.entry e hfits).2
    refine left_lt .recheck (.serving e) s trivial ?_ rfl (by simp [hq, stepsLeft])
    simp [State.reqStep, hq, hen, hf]
  case looking =>
    refine left_lt (.lookup true) .leasing s rfl ?_ rfl (by simp [hq, hfits.2, stepsLeft])
    simp [State.reqStep, hq]
  case leasing =>
    obtain ⟨hm, hu⟩ := hfits
    cases hl : s.lease.calls c <;> rw [hl] at hu
    case idle =>
      have hunheld : s.lease.holder = none := by
        by_contra hh
        obtain ⟨d, hd⟩ := ne_none_iff_exists'.1 hh
        rcases h.leases d (h.holder d hd) with ha | hs
        · have hdc := h.sole d c ha (by rw [hq]; trivial)
          exact h.holder d hd (hdc ▸ hl)
        · rw [hm] at hs
          cases hs
      have hstep : s.lease.step (.tryLock c [] true) = some { s.lease.set c (.locked [] s.lease.locks) with
          holder := some c, locks := s.lease.locks + 1 } := by
        simp [Lease.State.step, hl, hunheld]
      exact left_lt_of_lease hq hstep (update_self _ _ _) (decide_eq_true rfl) rfl (by simp [hl, stepsLeft])
    case locked podID n =>
      have hstep : s.lease.step (.issue c true) = some { s.lease.set c (.issued podID n s.lease.nextToken) with
          nextToken := s.lease.nextToken + 1 } := by
        simp [Lease.State.step, hl]
      exact left_lt_of_lease hq hstep (update_self _ _ _) (decide_eq_true rfl) rfl (by simp [hl, stepsLeft])
    case issued podID n token =>
      have hstep : s.lease.step (.insert c .done) = some { s.lease.set c (.held podID n token) with
          row := some ⟨podID, token, false⟩ } := by
        simp [Lease.State.step, hl]
      exact left_lt_of_lease hq hstep (update_self _ _ _) (decide_eq_true rfl) rfl (by simp [hl, stepsLeft])
    case held podID n token =>
      refine left_lt .leased .hydrating s trivial ?_ rfl (by simp [hq, hl, stepsLeft])
      simp [State.reqStep, hq, hl]
    all_goals exact hu.elim
  case hydrating =>
    refine left_lt (.hydrate true) (.hydrated s.now) s rfl ?_ rfl (by simp [hq, stepsLeft])
    simp [State.reqStep, hq]
  case hydrated t =>
    refine left_lt .loadOrStore (.serving c) { s.put c ⟨false, t⟩ with sessions := some c } trivial ?_ rfl (by simp [hq, stepsLeft])
    simp only [State.reqStep, hq, hfits.1]
    rfl

theorem First.shares (h : First s) : SharesHandle s where
  none_failed c err hc := by
    have hf := h.fits c
    rw [hc] at hf
    exact hf
  goes_on c hc := h.goes_on hc
  one_handle hr := by
    rintro ⟨c, hc⟩
    have hs : ∃ e, s.sessions = some e := by
      have hf := h.fits c
      have hd := hr c
      cases hq : s.reqs c with
      | idle => exact absurd hq hc
      | serving | finished =>
        rw [hq] at hf
        exact ne_none_iff_exists'.1 hf
      | failed =>
        rw [hq] at hf
        exact hf.elim
      | _ =>
        rw [hq] at hd
        exact absurd trivial hd
    obtain ⟨e, he⟩ := hs
    refine ⟨e, (h.entry e he).1, ?_⟩
    rintro i ⟨_, n, _, hi⟩
    rcases h.leases i (by rw [hi]; nofun) with ha | hs
    · have hd := hr i
      cases hq : s.reqs i <;> rw [hq] at ha hd <;> first | exact ha.elim | exact absurd trivial hd
    · rw [he] at hs
      exact (some.inj hs).symm

end

/-- **First requests share one handle**, in every state of every undisturbed run in which one request at a time finds no entry. -/
theorem requests_share_handle {s s' : State} {as : List Act} (hinit : Initial s) (hlease : Lease.Initial s.lease)
    (hcalm : ∀ a ∈ as, a.Undisturbed) (hone : Along State.step OneAtATime s as)
    (hrun : exec State.step s as = some s') : SharesHandle s' :=
  (invariant (fun _ _ _ hI hok hs => First.step hI hok.2 hok.1 hs) (hinit.first hlease) (hone.and_forall hcalm)
    hrun).shares

def oneThenOther : List Act :=
  [.req 0 .begin, .req 1 .begin, .req 0 .load, .req 0 (.lookup true), .lease (.request 0) (.tryLock 0 "a".toList true),
    .lease (.request 0) (.issue 0 true), .lease (.request 0) (.insert 0 .done), .req 0 .leased, .req 0 (.hydrate true),
    .req 0 .loadOrStore, .req 1 .load, .req 1 .check, .req 1 .touch, .req 1 .recheck]

theorem requests_share_handle_oneThenOther :
    ∃ s, exec State.step untouched oneThenOther = some s ∧ SharesHandle s ∧ s.reqs 1 = .serving 0 := by
  have hc : ∀ a ∈ oneThenOther, a.Undisturbed := by decide
  have ho : Along State.step OneAtATime untouched oneThenOther := by
    iterate 2 refine Along.cons_of_step trivial rfl ?_
    refine Along.cons_of_step ?_ rfl ?_
    · rintro - (_ | _ | d) hd
      · exact absurd rfl hd
      · exact nofun
      · exact nofun
    iterate 7 refine Along.cons_of_step trivial rfl ?_
    refine Along.cons_of_step nofun rfl ?_
    iterate 3 refine Along.cons_of_step trivial rfl ?_
    trivial
  exact ⟨_, rfl, requests_share_handle untouched_initial fresh_initial hc ho rfl, rfl⟩

/-- **A second request of the same pod is refused**: the first has the lock and its entry is not stored yet. -/
theorem second_refused : Initial untouched ∧ Lease.Initial untouched.lease ∧
    ∃ as s, (∀ a ∈ as, Act.Undisturbed a) ∧ exec State.step untouched as = some s ∧
      s.reqs 1 = .failed (.lease .alreadyHeld) := by
  refine ⟨untouched_initial, fresh_initial, [.req 0 .begin, .req 0 .load, .req 0 (.lookup true), .req 1 .begin,
    .req 1 .load, .req 1 (.lookup true), .lease (.request 0) (.tryLock 0 "a".toList true),
    .lease (.request 1) (.tryLock 1 "a".toList true), .req 1 .leased], _, ?_, rfl, rfl⟩
  decide

end Jamsesh.Lifecycle
