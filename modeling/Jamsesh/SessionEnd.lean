import Jamsesh.LockRaces
/-!
# SessionEnd — a session that has ended, while calls interleave

The status is written without a condition, by calls that have read the session before.  A call that has its write to come when
the session ends brings it back, or ends it once more.  Where each end finds no such call (`EndsAlone`), an ended session stays
ended and its end is written once.
-/
namespace Jamsesh.Portal

open List Machine

/-! ## The status -/

section
variable {db db' : Db} {p p' : Phase} {w : List String} {sessionID : String}

theorem ended_updateSession {orgID k : String} {g : Session → Session}
    (hg : sessionID = k → ∀ s, (g s).status = s.status) :
    Ended (updateSession db orgID k g) sessionID ↔ Ended db sessionID := by
  obtain heq | ⟨s, hs, heq⟩ := updateSession_cases db orgID k g
  · rw [heq]
  rw [heq]
  unfold Ended
  by_cases hk : sessionID = k
  · subst hk
    simp only [Finmap.lookup_insert, hs, Option.some.injEq, exists_eq_left', hg rfl s]
  · simp only [Finmap.lookup_insert_of_ne _ hk]

theorem Ended.of_updateSession {orgID k : String} {g : Session → Session} (h : Ended (updateSession db orgID k g) sessionID)
    (hg : ∀ s, (g s).status = s.status) : Ended db sessionID := (ended_updateSession (fun _ => hg)).1 h

theorem not_ended_updateSession {orgID k status : String} (hs : status ≠ "ended") (h : ¬ Ended db k) :
    ¬ Ended (updateSession db orgID k (fun s => { s with status := status })) k := by
  obtain heq | ⟨s, _, heq⟩ := updateSession_cases db orgID k (fun s => { s with status := status })
  · rw [heq]
    exact h
  rw [heq]
  rintro ⟨_, hs', he⟩
  rw [Finmap.lookup_insert] at hs'
  cases hs'
  exact hs he

theorem ended_endSession {orgID : String} {s : Session} (h : getSession db orgID sessionID = .ok s) :
    Ended (endSession db orgID sessionID) sessionID := by
  rw [endSession, updateSession_of_ok h]
  exact ⟨_, Finmap.lookup_insert _, rfl⟩

theorem Acquired.sessions {r : AcquireFinalizeLock} {accountID : String} {existing : Option FinalizeLock}
    (h : Acquired r accountID db existing db') : db'.sessions = db.sessions := by
  cases h with
  | free hi => rw [(insertFinalizeLock_ok hi).1]
  | stale _ hi | overridden _ hi =>
    rw [(insertFinalizeLock_ok hi).1]
    rfl

theorem ended_of_sessions (h : db'.sessions = db.sessions) : Ended db' sessionID ↔ Ended db sessionID := by
  unfold Ended
  rw [h]

theorem ended_lockSession {r : AcquireFinalizeLock} {accountID : String} {session : Session}
    (h : session.status = "active" → sessionID ≠ r.sessionID) :
    Ended (lockSession db r accountID session) sessionID ↔ Ended db sessionID := by
  simp only [lockSession]
  split
  · rename_i ha
    exact (ended_updateSession (fun hk => absurd hk (h ha))).trans (ended_updateSession (fun _ _ => rfl))
  · exact ended_updateSession (fun _ _ => rfl)

theorem Move.ended_iff (h : Move db p db' p' w) (hp : p.pending ≠ some sessionID) :
    Ended db' sessionID ↔ Ended db sessionID := by
  cases h with
  | reads => exact Iff.rfl
  | columns hg => exact ended_updateSession (fun _ s => (hg s).2)
  | lock => exact ended_of_sessions rfl
  | finalizing => exact ended_updateSession (fun hk => absurd (congrArg some hk.symm) hp)
  | ending _ hpending =>
    refine ended_updateSession (fun hk => ?_)
    rw [hpending, hk] at hp
    exact absurd rfl hp
  | reason =>
    unfold setEndReason
    exact ended_updateSession (fun _ _ => rfl)
  | @acquired r _ _ _ _ ha =>
    refine (ended_lockSession (fun hactive hk => hp ?_)).trans (ended_of_sessions ha.sessions)
    simp only [Phase.pending, if_pos hactive, hk]

theorem Move.ending_of_ended (h : Move db p db' p' w) (hl : ¬ Ended db sessionID) (hended : Ended db' sessionID) :
    p.ending = some sessionID ∧ p'.unreasoned = some sessionID ∧ p'.pending = none := by
  by_cases hp : p.pending = some sessionID
  · cases h with
    | reads => exact absurd hended hl
    | columns hg => exact absurd (hended.of_updateSession (fun s => (hg s).2)) hl
    | lock => exact absurd ((ended_of_sessions rfl).1 hended) hl
    | finalizing =>
      cases hp
      exact absurd hended (not_ended_updateSession (by decide) hl)
    | ending he hpending _ _ hq hr =>
      rw [hpending] at hp
      cases hp
      exact ⟨he, hr, hq⟩
    | reason =>
      unfold setEndReason at hended
      exact absurd (hended.of_updateSession (fun _ => rfl)) hl
    | @acquired r _ _ _ _ ha =>
      simp only [Phase.pending] at hp
      split at hp <;> cases hp
      rename_i hactive
      simp only [lockSession, if_pos hactive] at hended
      refine absurd hended (not_ended_updateSession (by decide) (fun hb => hl ?_))
      exact (ended_of_sessions ha.sessions).1 (hb.of_updateSession (fun _ => rfl))
  · exact absurd ((h.ended_iff hp).1 hended) hl

theorem Move.pending_of (h : Move db p db' p' w) (hp' : p'.pending = some sessionID) :
    p.pending = some sessionID ∨ Live db sessionID := by
  cases h with
  | reads hp => exact hp sessionID hp'
  | columns _ _ hq | lock _ _ hq | finalizing hq | reason _ _ hq =>
    rw [hq.pending] at hp'
    cases hp'
  | ending _ _ _ _ hq =>
    rw [hq] at hp'
    cases hp'
  | acquired => cases hp'

theorem not_live_and_ended (hl : Live db sessionID) (he : Ended db sessionID) : False := by
  obtain ⟨s, hs, hstatus⟩ := hl
  obtain ⟨_, hs', hstatus'⟩ := he
  rw [hs] at hs'
  cases hs'
  exact hstatus hstatus'

theorem Move.marks (h : Move db p db' p' w) (hp : p.Sound db) (sessionID : String) :
    (if p'.unreasoned = some sessionID then 1 else 0) + w.count sessionID ≤ (if p.unreasoned = some sessionID then 1 else 0) ∨
      p.pending = some sessionID ∧ Ended db' sessionID ∧ w.count sessionID = 0 := by
  cases h with
  | reads _ hr => exact .inl (by simp [hr])
  | columns _ _ hq | lock _ _ hq | finalizing hq => exact .inl (by simp [hq.unreasoned])
  | @ending _ _ _ k _ hpending _ hg _ hr =>
    by_cases hk : k = sessionID
    · subst hk
      obtain ⟨s, hs⟩ := hg hp
      exact .inr ⟨hpending, ended_endSession hs, rfl⟩
    · refine .inl ?_
      rw [hr, if_neg (fun h => hk (Option.some.inj h))]
      exact Nat.zero_le _
  | @reason _ _ _ k _ _ hr _ hq =>
    refine .inl ?_
    by_cases hk : k = sessionID
    · subst hk
      simp [hq.unreasoned, hr]
    · simp [hq.unreasoned, hk]
  | acquired => exact .inl (by simp [Phase.unreasoned])

end

/-! ## The condition -/

/-- **A session ends alone**: no other call has read it as live and has its write to the status to come. -/
def EndsAlone (s : FlowState) : FlowAct → Prop
  | .start _ => True
  | .go i => ∀ p ∈ s.calls[i]?, ∀ sessionID ∈ p.ending, ∀ q ∈ s.calls.eraseIdx i, q.pending ≠ some sessionID

instance decidableEndsAlone (s : FlowState) : (a : FlowAct) → Decidable (EndsAlone s a)
  | .start _ => isTrue trivial
  | .go i => inferInstanceAs
      (Decidable (∀ p ∈ s.calls[i]?, ∀ sessionID ∈ p.ending, ∀ q ∈ s.calls.eraseIdx i, q.pending ≠ some sessionID))

def FlowState.marks (s : FlowState) (sessionID : String) : Nat :=
  s.endWrites.count sessionID + s.calls.countP (fun q => q.unreasoned = some sessionID)

/-- **The invariant of the ends**: a session is ended once, has ended by then, and nobody writes the status of one that has. -/
structure EndedOnce (s : FlowState) : Prop where
  sound : s.Sound
  one : ∀ sessionID, s.marks sessionID ≤ 1
  ended : ∀ sessionID, 0 < s.marks sessionID → Ended s.db sessionID
  free : ∀ sessionID, Ended s.db sessionID → ∀ q ∈ s.calls, q.pending ≠ some sessionID

section
variable {env : Env} {unmarshal : String → Option (List String)} {s s' : FlowState} {a : FlowAct}

theorem marks_set (db' : Db) {i : Nat} {p : Phase} (p' : Phase) (w : List String) (hp : s.calls[i]? = some p) (sessionID : String) :
    (FlowState.mk db' (s.calls.set i p') (s.endWrites ++ w)).marks sessionID +
        (if p.unreasoned = some sessionID then 1 else 0) =
      s.marks sessionID + ((if p'.unreasoned = some sessionID then 1 else 0) + w.count sessionID) := by
  obtain ⟨hlt, hg⟩ := List.getElem?_eq_some_iff.1 hp
  have hpos : p.unreasoned = some sessionID → 0 < s.calls.countP (fun q => q.unreasoned = some sessionID) :=
    fun hr => countP_pos_iff.2 ⟨p, mem_of_getElem? hp, decide_eq_true hr⟩
  simp only [FlowState.marks, count_append, countP_set hlt, hg, decide_eq_true_eq]
  by_cases hr : p.unreasoned = some sessionID
  · have := hpos hr
    simp only [if_pos hr]
    omega
  · simp only [if_neg hr]
    omega

theorem mem_set_cases {α : Type} {l : List α} {i : Nat} {x y : α} (h : y ∈ l.set i x) : y = x ∨ y ∈ l.eraseIdx i := by
  induction l generalizing i with
  | nil => cases h
  | cons z l ih =>
    cases i with
    | zero => exact (mem_cons.1 h).imp_right (fun h => h)
    | succ =>
      rcases mem_cons.1 h with rfl | h
      · exact .inr mem_cons_self
      · exact (ih h).imp_right (mem_cons_of_mem z)

theorem EndedOnce.step (h : EndedOnce s) (ha : EndsAlone s a) (hs : s.step env unmarshal a = some s') : EndedOnce s' := by
  have hsound := h.sound.step hs
  obtain ⟨op, rfl, rfl⟩ | ⟨i, p, db', p', rfl, hp, hm, rfl⟩ := step_cases hs
  · have hmarks : ∀ sessionID, ({ s with calls := s.calls ++ [.start op] } : FlowState).marks sessionID = s.marks sessionID := by
      intro _
      simp [FlowState.marks, Phase.unreasoned]
    refine ⟨hsound, fun sessionID => (hmarks sessionID) ▸ h.one sessionID, fun sessionID hpos => ?_, fun sessionID he q hq => ?_⟩
    · exact h.ended sessionID ((hmarks sessionID) ▸ hpos)
    · rcases mem_append.1 hq with hq | hq
      · exact h.free sessionID he q hq
      · rw [mem_singleton.1 hq]
        exact Option.some_ne_none sessionID ∘ Eq.symm
  · have hmem := mem_of_getElem? hp
    have hpsound := h.sound p hmem
    -- a session that has ended is not the one that this call writes
    have hfree : ∀ sessionID, p.pending = some sessionID → ¬ Ended s.db sessionID :=
      fun sessionID hpending he => h.free sessionID he p hmem hpending
    have hzero : ∀ sessionID, p.pending = some sessionID → s.marks sessionID = 0 := by
      intro sessionID hpending
      by_contra hpos
      exact hfree sessionID hpending (h.ended sessionID (Nat.pos_of_ne_zero hpos))
    have hstays : ∀ sessionID, Ended s.db sessionID → Ended db' sessionID :=
      fun sessionID he => (hm.ended_iff (fun hpending => hfree sessionID hpending he)).2 he
    refine ⟨hsound, fun sessionID => ?_, fun sessionID _ => ?_, fun sessionID he q hq => ?_⟩
    · have hset := marks_set db' p' p.endWrite hp sessionID
      have hone := h.one sessionID
      obtain _ | ⟨hpending, -, _⟩ := hm.marks hpsound sessionID
      · omega
      · have hnone := hzero sessionID hpending
        have : (if p'.unreasoned = some sessionID then 1 else 0) ≤ 1 := by split <;> omega
        omega
    · have hset := marks_set db' p' p.endWrite hp sessionID
      obtain _ | ⟨-, he, -⟩ := hm.marks hpsound sessionID
      · exact hstays sessionID (h.ended sessionID (by omega))
      · exact he
    · by_cases hb : Ended s.db sessionID
      · rcases mem_or_eq_of_mem_set hq with hq | rfl
        · exact h.free sessionID hb q hq
        intro hpending
        rcases hm.pending_of hpending with hpending | hl
        · exact hfree sessionID hpending hb
        · exact not_live_and_ended hl hb
      · -- it has just ended, and it did so alone
        obtain ⟨hending, -, hquiet⟩ := hm.ending_of_ended hb he
        rcases mem_set_cases hq with rfl | hq
        · rw [hquiet]
          exact Option.some_ne_none sessionID ∘ Eq.symm
        · exact ha p hp sessionID hending q hq

theorem EndedOnce.start (hc : s.calls = []) (hw : s.endWrites = []) : EndedOnce s := by
  have hm : ∀ sessionID, s.marks sessionID = 0 := by
    intro _
    rw [FlowState.marks, hc, hw]
    rfl
  have hn : ∀ q, q ∉ s.calls := fun q hq => not_mem_nil (hc ▸ hq)
  exact ⟨fun q hq => absurd hq (hn q), fun sessionID => (hm sessionID).le.trans (Nat.zero_le 1),
    fun sessionID hp => absurd (hm sessionID) (Nat.pos_iff_ne_zero.1 hp), fun _ _ q hq => absurd hq (hn q)⟩

theorem EndedOnce.stays (h : EndedOnce s) {sessionID : String} (he : Ended s.db sessionID)
    (hs : s.step env unmarshal a = some s') : Ended s'.db sessionID := by
  obtain ⟨_, rfl, rfl⟩ | ⟨i, p, _, _, rfl, hp, hm, rfl⟩ := step_cases hs
  · exact he
  · exact (hm.ended_iff (h.free sessionID he p (mem_of_getElem? hp))).2 he

end

/-- **Where sessions end alone, a session that has ended stays ended, and the reason of its end is written at most once**, for
every interleaving of the handlers. -/
theorem ended_for_good (env : Env) (unmarshal : String → Option (List String)) (s₀ s₁ s₂ : FlowState) (as₁ as₂ : List FlowAct)
    (hcalls : s₀.calls = []) (hwrites : s₀.endWrites = []) (hok₁ : Along (FlowState.step env unmarshal) EndsAlone s₀ as₁)
    (hrun₁ : exec (FlowState.step env unmarshal) s₀ as₁ = some s₁)
    (hok₂ : Along (FlowState.step env unmarshal) EndsAlone s₁ as₂)
    (hrun₂ : exec (FlowState.step env unmarshal) s₁ as₂ = some s₂) (sessionID : String) :
    (Ended s₁.db sessionID → Ended s₂.db sessionID) ∧ s₂.endWrites.count sessionID ≤ 1 := by
  have h₁ : EndedOnce s₁ :=
    invariant (fun _ _ _ h ha hs => h.step ha hs) (EndedOnce.start hcalls hwrites) hok₁ hrun₁
  have h₂ : EndedOnce s₂ := invariant (fun _ _ _ h ha hs => h.step ha hs) h₁ hok₂ hrun₂
  refine ⟨fun he => ?_, (Nat.le_add_right _ _).trans (h₂.one sessionID)⟩
  have hb : EndedOnce s₂ ∧ Ended s₂.db sessionID :=
    invariant (I := fun s => EndedOnce s ∧ Ended s.db sessionID)
      (fun _ _ _ h ha hs => ⟨h.1.step ha hs, h.1.stays h.2 hs⟩) ⟨h₁, he⟩ hok₂ hrun₂
  exact hb.2

def abandonedRun : List FlowAct :=
  [.start (.finalizeSession ⟨atMinute "bob" 0, "acme", "plans"⟩), .go 0, .go 0, .go 0,
    .start (.abandonSession ⟨atMinute "ada" 1, "acme", "plans"⟩), .go 1, .go 1, .go 1, .go 1]

def lateRun : List FlowAct := [.start (.finalizeSession ⟨atMinute "bob" 2, "acme", "plans"⟩), .go 2, .go 2]

theorem ended_for_good_abandonedRun :
    ∃ s₁ s₂, exec (FlowState.step demoEnv (fun _ => none)) shipFlow abandonedRun = some s₁ ∧
      exec (FlowState.step demoEnv (fun _ => none)) s₁ lateRun = some s₂ ∧
        (Ended s₁.db "plans" → Ended s₂.db "plans") ∧ s₂.endWrites.count "plans" ≤ 1 := by
  have hr₁ : exec (FlowState.step demoEnv (fun _ => none)) shipFlow abandonedRun = some _ := rfl
  refine ⟨_, _, hr₁, rfl, ?_⟩
  exact ended_for_good demoEnv (fun _ => none) shipFlow _ _ abandonedRun lateRun rfl rfl (by decide) hr₁ (by decide) rfl "plans"

def crossedRun : List FlowAct :=
  [.start (.finalizeSession ⟨atMinute "bob" 0, "acme", "plans"⟩), .go 0, .go 0,
    .start (.abandonSession ⟨atMinute "ada" 1, "acme", "plans"⟩), .go 1, .go 1, .go 1, .go 1]

/-- **A session that was abandoned is finalizing again**: the late call writes the status without looking at it once more. -/
theorem ended_comes_back :
    ∃ s₁ s₂, exec (FlowState.step demoEnv (fun _ => none)) shipFlow crossedRun = some s₁ ∧
      exec (FlowState.step demoEnv (fun _ => none)) s₁ [.go 0] = some s₂ ∧
        (s₁.db.sessions.lookup "plans").map (·.status) = some "ended" ∧
          (s₂.db.sessions.lookup "plans").map (·.status) = some "finalizing" :=
  ⟨_, _, rfl, rfl, by decide, by decide⟩

end Jamsesh.Portal
