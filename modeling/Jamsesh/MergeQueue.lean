import Jamsesh.EventLog
/-!
# MergeQueue — the auto-merger's queues and their drainers (`automerger/worker.go`)

One dispatcher puts events on the queues of their sessions and starts a drainer for a session that has none; an idle drainer
leaves if its queue is still empty under the lock.  So the queue and its one drainer come and go together, and what is accepted
is processed once and in order; what is not is reported, as long as the log takes the reports (`queues_drained`).
-/
namespace Jamsesh.MergeQueue

open List Machine Option
open Function (update update_apply update_self update_of_ne)
open Events (Event)

/-! ## The worker -/

inductive Drainer where
  | unborn
  | waiting (sessionID : Text)
  | processing (sessionID : Text) (e : Event)
  | expired (sessionID : Text)
  | gone
deriving DecidableEq

def Drainer.session : Drainer → Option Text
  | .waiting sessionID | .processing sessionID _ | .expired sessionID => some sessionID
  | .unborn | .gone => none

/-- The worker: the map `sessions`, whose queues are numbered as they are made, the channels and goroutines of the queues, and
the event that is being reported as backpressure.  Then what has happened: the events delivered, accepted and processed by
session, refused, and reported. -/
structure State where
  queueSize : Nat
  sessions : Text → Option Nat
  channels : Nat → List Event
  drainers : Nat → Drainer
  created : Nat
  reporting : Option Event
  delivered : List Event
  accepted : Text → List Event
  processed : Text → List Event
  refused : List Event
  reported : List (Event × Bool)

def start (queueSize : Nat) : State where
  queueSize := if queueSize = 0 then 256 else queueSize
  sessions := fun _ => none
  channels := fun _ => []
  drainers := fun _ => .unborn
  created := 0
  reporting := none
  delivered := []
  accepted := fun _ => []
  processed := fun _ => []
  refused := []
  reported := []

inductive Act where
  | deliver (e : Event)
  | report (ok : Bool)
  | receive (q : Nat)
  | finish (q : Nat)
  | fire (q : Nat)
  | check (q : Nat)
deriving DecidableEq

def State.queueOf (s : State) (sessionID : Text) : Nat × State :=
  match s.sessions sessionID with
  | some q => (q, s)
  | none => (s.created, { s with
      sessions := update s.sessions sessionID (some s.created)
      channels := update s.channels s.created []
      drainers := update s.drainers s.created (.waiting sessionID)
      created := s.created + 1 })

/-- `enqueue` under the lock: the event is pushed, or refused where the queue is full. -/
def State.push (s : State) (q : Nat) (e : Event) : State :=
  if (s.channels q).length < s.queueSize then
    { s with
      channels := update s.channels q (s.channels q ++ [e])
      delivered := s.delivered ++ [e]
      accepted := update s.accepted e.sessionID (s.accepted e.sessionID ++ [e]) }
  else { s with reporting := some e, delivered := s.delivered ++ [e], refused := s.refused ++ [e] }

def State.turns (s : State) (q : Nat) (d : Drainer) : State := { s with drainers := update s.drainers q d }

def State.step (s : State) : Act → Option State
  | .deliver e =>
    match s.reporting with
    | some _ => none
    | none => some ((s.queueOf e.sessionID).2.push (s.queueOf e.sessionID).1 e)
  | .report ok =>
    match s.reporting with
    | some e => some { s with reporting := none, reported := s.reported ++ [(e, ok)] }
    | none => none
  | .receive q =>
    match s.drainers q, s.channels q with
    | .waiting sessionID, e :: rest => some { s.turns q (.processing sessionID e) with
        channels := update s.channels q rest
        processed := update s.processed sessionID (s.processed sessionID ++ [e]) }
    | _, _ => none
  | .finish q =>
    match s.drainers q with
    | .processing sessionID _ => some (s.turns q (.waiting sessionID))
    | _ => none
  | .fire q =>
    match s.drainers q with
    | .waiting sessionID => some (s.turns q (.expired sessionID))
    | _ => none
  | .check q =>
    match s.drainers q with
    | .expired sessionID =>
      if s.channels q = [] then some { s.turns q .gone with sessions := update s.sessions sessionID none }
      else some (s.turns q (.waiting sessionID))
    | _ => none

/-! ## Queues and drainers -/

def State.queued (s : State) (sessionID : Text) : List Event :=
  match s.sessions sessionID with
  | some q => s.channels q
  | none => []

/-- **What the worker promises**: a session has at most one drainer; what is accepted is what has been processed and then what
is queued, in order; what is delivered is accepted or refused, and then reported by an event of the log; and the first event of
a queue is taken within two steps of the drainer. -/
structure Drained (s : State) : Prop where
  one_drainer : ∀ q q' sessionID, (s.drainers q).session = some sessionID → (s.drainers q').session = some sessionID → q = q'
  in_order : ∀ sessionID, s.accepted sessionID = s.processed sessionID ++ s.queued sessionID
  delivered : ∀ e, s.delivered.count e = (s.accepted e.sessionID).count e + s.refused.count e
  reported : s.refused = (s.reported.filter (·.2)).map (·.1) ++ s.reporting.toList
  taken : ∀ sessionID e rest, s.queued sessionID = e :: rest → ∃ q as s', (s.drainers q).session = some sessionID ∧ as.length ≤ 2 ∧
    (∀ a ∈ as, a = .receive q ∨ a = .finish q ∨ a = .check q) ∧ exec State.step s as = some s' ∧
    s'.processed sessionID = s.processed sessionID ++ [e]

/-- The log takes the event that reports backpressure; else it leaves no more than a line in the process's own log. -/
def Act.Logged : Act → Prop
  | .report ok => ok = true
  | _ => True

instance (a : Act) : Decidable a.Logged := by
  unfold Act.Logged
  split <;> infer_instance

/-- **The invariant**: a session has a queue exactly when that queue's goroutine runs for it. -/
structure Owned (s : State) : Prop where
  owner : ∀ q sessionID, s.sessions sessionID = some q ↔ (s.drainers q).session = some sessionID
  unborn : ∀ q, s.created ≤ q → s.drainers q = .unborn
  in_order : ∀ sessionID, s.accepted sessionID = s.processed sessionID ++ s.queued sessionID
  delivered : ∀ e, s.delivered.count e = (s.accepted e.sessionID).count e + s.refused.count e
  reported : s.refused = s.reported.map (·.1) ++ s.reporting.toList

section
variable {s s' : State} {q : Nat} {sessionID : Text}

theorem queued_eq (h : s.sessions sessionID = some q) : s.queued sessionID = s.channels q := by
  rw [State.queued, h]

theorem turns_session {d : Drainer} {q' : Nat} (hd : d.session = (s.drainers q).session) :
    ((s.turns q d).drainers q').session = (s.drainers q').session := by
  show (update s.drainers q d q').session = (s.drainers q').session
  by_cases hq : q' = q
  · rw [hq, update_self, hd]
  · rw [update_of_ne hq]

theorem Owned.unborn_update {d : Drainer} {q' : Nat} (h : Owned s) (hr : s.drainers q ≠ .unborn) (hq' : s.created ≤ q') :
    update s.drainers q d q' = .unborn := by
  rw [update_of_ne, h.unborn q' hq']
  rintro rfl
  exact hr (h.unborn q' hq')

theorem Owned.fresh (h : Owned s) : s.sessions sessionID ≠ some s.created := by
  rw [Ne, h.owner, h.unborn s.created (Nat.le_refl _)]
  nofun

theorem Owned.turns {d : Drainer} (h : Owned s) (hd : d.session = (s.drainers q).session) (hr : d.session ≠ none) :
    Owned (s.turns q d) where
  owner q' sessionID := by
    rw [turns_session hd]
    exact h.owner q' sessionID
  unborn q' hq' := by
    refine h.unborn_update (fun hq => hr ?_) hq'
    rw [hd, hq]
    rfl
  in_order := h.in_order
  delivered := h.delivered
  reported := h.reported

theorem Owned.queueOf (h : Owned s) (sessionID : Text) :
    Owned (s.queueOf sessionID).2 ∧ (s.queueOf sessionID).2.sessions sessionID = some (s.queueOf sessionID).1 := by
  unfold State.queueOf
  split
  · rename_i hq
    exact ⟨h, hq⟩
  rename_i hn
  refine ⟨⟨fun q sid => ?_, fun q hq => ?_, fun sid => ?_, h.delivered, h.reported⟩, update_self _ _ _⟩
  · show update s.sessions sessionID (some s.created) sid = some q ↔
      (update s.drainers s.created (.waiting sessionID) q).session = some sid
    by_cases hsid : sid = sessionID <;> by_cases hq : q = s.created
    · subst hsid hq
      rw [update_self, update_self]
      exact ⟨fun _ => rfl, fun _ => rfl⟩
    · subst hsid
      rw [update_self, update_of_ne hq]
      refine ⟨fun heq => absurd (some.inj heq).symm hq, fun hr => ?_⟩
      rw [(h.owner q sid).2 hr] at hn
      cases hn
    · subst hq
      rw [update_of_ne hsid, update_self]
      exact ⟨fun heq => absurd heq h.fresh, fun hr => absurd (some.inj hr).symm hsid⟩
    · rw [update_of_ne hsid, update_of_ne hq]
      exact h.owner q sid
  · have hq : s.created + 1 ≤ q := hq
    exact (update_of_ne (by omega) _ _).trans (h.unborn q (by omega))
  · have hqueued : State.queued { s with
        sessions := update s.sessions sessionID (some s.created)
        channels := update s.channels s.created []
        drainers := update s.drainers s.created (.waiting sessionID)
        created := s.created + 1 } sid = s.queued sid := by
      unfold State.queued
      by_cases hsid : sid = sessionID
      · subst hsid
        simp only [update_self, hn]
      simp only [update_of_ne hsid]
      cases hs : s.sessions sid with
      | none => rfl
      | some q =>
        refine update_of_ne ?_ _ _
        rintro rfl
        exact h.fresh hs
    rw [hqueued]
    exact h.in_order sid

theorem Owned.queued_update {sid : Text} (h : Owned s) (hq : s.sessions sessionID = some q) (channel : List Event) :
    State.queued { s with channels := update s.channels q channel } sid = if sid = sessionID then channel else s.queued sid := by
  split
  · rename_i hsid
    simp only [State.queued, hsid, hq, update_self]
  rename_i hsid
  unfold State.queued
  cases hs : s.sessions sid with
  | none => rfl
  | some q' =>
    refine update_of_ne ?_ _ _
    rintro rfl
    have hr := (h.owner q' sid).1 hs
    rw [(h.owner q' sessionID).1 hq] at hr
    exact hsid (some.inj hr).symm

theorem Owned.push {e : Event} (h : Owned s) (hq : s.sessions e.sessionID = some q) (hready : s.reporting = none) :
    Owned (s.push q e) := by
  unfold State.push
  split
  · refine ⟨h.owner, h.unborn, fun sid => ?_, fun e' => ?_, h.reported⟩
    · show update s.accepted e.sessionID (s.accepted e.sessionID ++ [e]) sid = s.processed sid ++
        State.queued { s with channels := update s.channels q (s.channels q ++ [e]) } sid
      rw [h.queued_update hq, update_apply]
      split
      · rename_i hs
        rw [hs, h.in_order, queued_eq hq, append_assoc]
      · exact h.in_order sid
    · show (s.delivered ++ [e]).count e' = (update s.accepted e.sessionID _ e'.sessionID).count e' + s.refused.count e'
      have hc := h.delivered e'
      rw [count_append]
      by_cases hs : e'.sessionID = e.sessionID
      · rw [hs, update_self, count_append, hc, hs]
        omega
      have hn : [e].count e' = 0 :=
        count_eq_zero_of_not_mem fun hm => hs (congrArg Event.sessionID (mem_singleton.1 hm))
      rw [update_of_ne hs, hc, hn]
      rfl
  · refine ⟨h.owner, h.unborn, h.in_order, fun e' => ?_, ?_⟩
    · show (s.delivered ++ [e]).count e' = (s.accepted e'.sessionID).count e' + (s.refused ++ [e]).count e'
      rw [count_append, count_append, h.delivered e']
      omega
    · show s.refused ++ [e] = s.reported.map (·.1) ++ [e]
      have hr := h.reported
      rw [hready, toList_none, append_nil] at hr
      rw [hr]

theorem Owned.receive {e : Event} {rest : List Event} (h : Owned s) (hd : s.drainers q = .waiting sessionID)
    (hch : s.channels q = e :: rest) : Owned { s.turns q (.processing sessionID e) with
      channels := update s.channels q rest
      processed := update s.processed sessionID (s.processed sessionID ++ [e]) } := by
  have ht : Owned (s.turns q (.processing sessionID e)) := h.turns (by rw [hd]; rfl) nofun
  have hq : s.sessions sessionID = some q := (h.owner q sessionID).2 (by rw [hd]; rfl)
  refine ⟨ht.owner, ht.unborn, fun sid => ?_, h.delivered, h.reported⟩
  show s.accepted sid = update s.processed sessionID (s.processed sessionID ++ [e]) sid ++
    State.queued { s with channels := update s.channels q rest } sid
  rw [h.queued_update hq, update_apply]
  split
  · rename_i hs
    rw [hs, h.in_order, queued_eq hq, hch, append_assoc]
    rfl
  · exact h.in_order sid

theorem Owned.leave (h : Owned s) (hd : s.drainers q = .expired sessionID) (he : s.channels q = []) :
    Owned { s.turns q .gone with sessions := update s.sessions sessionID none } := by
  have hq : s.sessions sessionID = some q := (h.owner q sessionID).2 (by rw [hd]; rfl)
  refine ⟨fun q' sid => ?_, fun q' hq' => ?_, fun sid => ?_, h.delivered, h.reported⟩
  · show update s.sessions sessionID none sid = some q' ↔ (update s.drainers q .gone q').session = some sid
    by_cases hs : sid = sessionID <;> by_cases hqq : q' = q
    · subst hs hqq
      rw [update_self, update_self]
      exact ⟨nofun, nofun⟩
    · subst hs
      rw [update_self, update_of_ne hqq, ← h.owner q' sid, hq]
      exact ⟨nofun, fun heq => absurd (some.inj heq).symm hqq⟩
    · subst hqq
      rw [update_of_ne hs, update_self, h.owner q' sid, hd]
      exact ⟨fun heq => absurd (some.inj heq).symm hs, nofun⟩
    · rw [update_of_ne hs, update_of_ne hqq]
      exact h.owner q' sid
  · exact h.unborn_update (by rw [hd]; nofun) hq'
  · have hin := h.in_order sid
    show s.accepted sid = s.processed sid ++ State.queued { s with sessions := update s.sessions sessionID none } sid
    unfold State.queued at hin ⊢
    by_cases hs : sid = sessionID
    · subst hs
      simp only [update_self, hq, he] at hin ⊢
      exact hin
    · simp only [update_of_ne hs]
      exact hin

theorem Owned.step {a : Act} (h : Owned s) (hs : s.step a = some s') : Owned s' := by
  cases a with simp only [State.step] at hs
  | deliver e =>
    split at hs <;> cases hs
    rename_i hready
    obtain ⟨hm, hq⟩ := h.queueOf e.sessionID
    refine hm.push hq ?_
    unfold State.queueOf
    split <;> exact hready
  | report =>
    split at hs <;> cases hs
    rename_i he
    refine ⟨h.owner, h.unborn, h.in_order, h.delivered, ?_⟩
    have hr := h.reported
    rw [he] at hr
    rw [hr]
    simp
  | receive =>
    split at hs <;> cases hs
    rename_i hd hch
    exact h.receive hd hch
  | finish | fire =>
    split at hs <;> cases hs
    rename_i hd
    exact h.turns (by rw [hd]; rfl) nofun
  | check =>
    split at hs
    · rename_i hd
      split at hs <;> cases hs
      · exact h.leave hd ‹_›
      · exact h.turns (by rw [hd]; rfl) nofun
    · cases hs

theorem logged_step {a : Act} (h : ∀ p ∈ s.reported, p.2 = true) (ha : a.Logged) (hs : s.step a = some s') :
    ∀ p ∈ s'.reported, p.2 = true := by
  cases a with simp only [State.step] at hs
  | deliver e =>
    split at hs <;> cases hs
    unfold State.push State.queueOf
    split <;> split <;> exact h
  | report ok =>
    split at hs <;> cases hs
    exact forall_mem_append.2 ⟨h, forall_mem_singleton.2 ha⟩
  | _ =>
    repeat' split at hs
    all_goals cases hs
    all_goals exact h

theorem start_owned (queueSize : Nat) : Owned (start queueSize) :=
  ⟨fun _ _ => ⟨nofun, nofun⟩, fun _ _ => rfl, fun _ => rfl, fun _ => rfl, rfl⟩

/-! ## What is queued is taken -/

theorem receive_step {e : Event} {rest : List Event} (hd : s.drainers q = .waiting sessionID) (hch : s.channels q = e :: rest) :
    ∃ s', s.step (.receive q) = some s' ∧ s'.processed sessionID = s.processed sessionID ++ [e] := by
  have hs : s.step (.receive q) = some { s.turns q (.processing sessionID e) with
      channels := update s.channels q rest
      processed := update s.processed sessionID (s.processed sessionID ++ [e]) } := by
    simp only [State.step, hd, hch]
  exact ⟨_, hs, update_self _ _ _⟩

theorem receive_step_after {a : Act} {e : Event} {rest : List Event} (ha : s.step a = some (s.turns q (.waiting sessionID)))
    (hch : s.channels q = e :: rest) : ∃ s', exec State.step s [a, .receive q] = some s' ∧
      s'.processed sessionID = s.processed sessionID ++ [e] := by
  obtain ⟨s', hs', hp⟩ := receive_step (s := s.turns q (.waiting sessionID)) (update_self _ _ _) hch
  exact ⟨s', exec_cons.2 ⟨_, ha, exec_cons.2 ⟨s', hs', rfl⟩⟩, hp⟩

theorem Owned.drained (h : Owned s) (hlogged : ∀ p ∈ s.reported, p.2 = true) : Drained s where
  one_drainer q q' sessionID hq hq' := by
    have hsame := ((h.owner q sessionID).2 hq).symm.trans ((h.owner q' sessionID).2 hq')
    exact some.inj hsame
  in_order := h.in_order
  delivered := h.delivered
  reported := by
    rw [filter_eq_self.2 hlogged]
    exact h.reported
  taken sessionID e rest hqueued := by
    obtain ⟨q, hq⟩ : ∃ q, s.sessions sessionID = some q := by
      cases hs : s.sessions sessionID with
      | none =>
        rw [State.queued, hs] at hqueued
        cases hqueued
      | some q => exact ⟨q, rfl⟩
    have hr := (h.owner q sessionID).1 hq
    have hch : s.channels q = e :: rest := (queued_eq hq).symm.trans hqueued
    refine ⟨q, ?_⟩
    cases hd : s.drainers q with (rw [hd] at hr; cases hr)
    | waiting =>
      obtain ⟨s', hs', hp⟩ := receive_step hd hch
      exact ⟨[.receive q], s', rfl, by simp, by simp, exec_cons.2 ⟨s', hs', rfl⟩, hp⟩
    | processing =>
      have hf : s.step (.finish q) = some (s.turns q (.waiting sessionID)) := by simp only [State.step, hd]
      obtain ⟨s', hs', hp⟩ := receive_step_after hf hch
      exact ⟨[.finish q, .receive q], s', rfl, by simp, by simp, hs', hp⟩
    | expired =>
      have hc : s.step (.check q) = some (s.turns q (.waiting sessionID)) := by simp [State.step, hd, hch]
      obtain ⟨s', hs', hp⟩ := receive_step_after hc hch
      exact ⟨[.check q, .receive q], s', rfl, by simp, by simp, hs', hp⟩

end

/-- **The queues are drained**: after every run of deliveries and drainers in which the log takes the reports, whatever the size
of the queues. -/
theorem queues_drained {queueSize : Nat} {as : List Act} {s : State} (hlogged : ∀ a ∈ as, a.Logged)
    (hrun : exec State.step (start queueSize) as = some s) : Drained s := by
  have hstep : ∀ s a s', (Owned s ∧ ∀ p ∈ s.reported, p.2 = true) → a.Logged → s.step a = some s' →
      Owned s' ∧ ∀ p ∈ s'.reported, p.2 = true := fun _ _ _ h ha hs => ⟨h.1.step hs, logged_step h.2 ha hs⟩
  obtain ⟨ho, hreported⟩ := invariant hstep ⟨start_owned queueSize, by simp [start]⟩ (along_forall hlogged) hrun
  exact ho.drained hreported

/-- A queue of one: the second event comes as the drainer leaves, a third finds the queue full. -/
def lateEvents (logged : Bool) : List Act :=
  [.deliver ⟨"s".toList, 1, ⟨[], []⟩⟩, .receive 0, .finish 0, .fire 0, .deliver ⟨"s".toList, 2, ⟨[], []⟩⟩,
    .deliver ⟨"s".toList, 3, ⟨[], []⟩⟩, .report logged, .check 0, .receive 0]

theorem queues_drained_lateEvents : ∃ s, exec State.step (start 1) (lateEvents true) = some s ∧ Drained s ∧
    (s.processed "s".toList).map (·.seq) = [1, 2] ∧ s.reported.map (·.1.seq) = [3] := by
  have hr : exec State.step (start 1) (lateEvents true) = some _ := rfl
  exact ⟨_, hr, queues_drained (by decide) hr, by decide, by decide⟩

/-- **An event is dropped and no event says so**: the log does not take the report. -/
theorem refused_unreported : ∃ s, exec State.step (start 1) (lateEvents false) = some s ∧
    s.refused = [⟨"s".toList, 3, ⟨[], []⟩⟩] ∧ s.reported = [(⟨"s".toList, 3, ⟨[], []⟩⟩, false)] ∧ s.reporting = none ∧
      ¬ Drained s :=
  ⟨_, rfl, rfl, rfl, rfl, fun h => absurd h.reported (by decide)⟩

end Jamsesh.MergeQueue
