import Jamsesh.MergeQueue
/-!
# FanOut — from a committed event to the auto-merger's queues (`events/log.go`, `automerger/worker.go`)

A subscriber's channel holds 64 events; when it is full an event is dropped, and nothing repairs that.  So a committed event
reaches its session's queue, or is reported, where each fan-out finds room (`arrivals_handled`).
-/
namespace Jamsesh
namespace Events

/-! ## Publishing -/

def subscriberBuffer : Nat := 64

/-- What `fanOut` does to the channel of one subscriber; an empty filter lets everything through. -/
def offer (filter : Text) (ch : List Event) (e : Event) : List Event :=
  if filter ≠ [] && filter ≠ e.draft.type then ch else if ch.length < subscriberBuffer then ch ++ [e] else ch

def published (db : State) : Act → Option (List Event)
  | .commit t =>
    match db.txs t with
    | .allocated sessionID drafts last _ => some (rows sessionID (firstSeq last drafts.length) drafts)
    | _ => none
  | _ => none

theorem published_eq_none {db : State} {a : Act} (h : ∀ t, a ≠ .commit t) : published db a = none := by
  cases a with
  | commit t => exact absurd rfl (h t)
  | _ => rfl

theorem flatten_set_perm {L : List (List Event)} {k : Nat} {e : Event} {rest : List Event} (hk : L[k]? = some (e :: rest)) :
    L.flatten.Perm (e :: (L.set k rest).flatten) := by
  induction L generalizing k with
  | nil => cases hk
  | cons l L ih =>
    cases k with
    | zero =>
      cases hk
      exact List.Perm.refl _
    | succ k =>
      have hr := ih hk
      rw [List.set_cons_succ, List.flatten_cons, List.flatten_cons]
      exact (hr.append_left l).trans List.perm_middle

theorem mem_events_step {db db' : State} {a : Act} (hstep : db.step a = some db') {sessionID : Text} {e : Event}
    (he : e ∈ db'.events sessionID) : e ∈ db.events sessionID ∨ ∃ t l, a = .commit t ∧ published db a = some l ∧ e ∈ l := by
  rcases step_events hstep with ⟨-, heq⟩ | ⟨t, sid, _, _, _, rfl, hn, heq⟩
  · rw [heq] at he
    exact .inl he
  rw [heq] at he
  by_cases hs : sessionID = sid
  · subst hs
    rw [Function.update_self] at he
    rcases List.mem_append.1 he with he | he
    · exact .inl he
    · exact .inr ⟨t, _, rfl, by simp only [published, hn], he⟩
  · rw [Function.update_of_ne hs] at he
    exact .inl he

end Events

namespace FanOut

open List Machine Option
open Events (Event offer published subscriberBuffer)

/-! ## The process -/

def commitArrived : Text := "commit.arrived".toList

/-- One process: the database, the writers that have committed and fan out the events they have left, the channel of the
auto-merger's subscription, and the auto-merger. -/
structure State where
  db : Events.State
  emitting : List (List Event)
  ch : List Event
  worker : MergeQueue.State

inductive Act where
  /-- a statement of the event log; a commit may succeed without its caller being told -/
  | db (a : Events.Act) (told : Bool)
  | fan (k : Nat)
  | dispatch
  | worker (a : MergeQueue.Act)
deriving DecidableEq

def isDeliver : MergeQueue.Act → Bool
  | .deliver _ => true
  | _ => false

def State.step (s : State) : Act → Option State
  | .db a told =>
    (s.db.step a).map (fun db => { s with db, emitting := s.emitting ++ if told then (published s.db a).toList else [] })
  | .fan k =>
    match s.emitting[k]? with
    | some (e :: rest) => some { s with emitting := s.emitting.set k rest, ch := offer commitArrived s.ch e }
    | _ => none
  | .dispatch =>
    match s.ch with
    | e :: ch => (s.worker.step (.deliver e)).map (fun worker => { s with ch, worker })
    | [] => none
  | .worker a => if isDeliver a then none else (s.worker.step a).map (fun worker => { s with worker })

def start (db : Events.State) (queueSize : Nat) : State := ⟨db, [], [], MergeQueue.start queueSize⟩

/-! ## The condition and the property -/

/-- **Each fan-out finds room**: the caller learns of its commit, an event for the auto-merger is offered to a channel that is not
full, and the log takes the reports of backpressure. -/
def Roomy (s : State) : Act → Prop
  | .db (.commit _) told => told = true
  | .fan k =>
    match s.emitting[k]? with
    | some (e :: _) => e.draft.type = commitArrived → s.ch.length < subscriberBuffer
    | _ => True
  | .worker (.report ok) => ok = true
  | _ => True

instance (s : State) (a : Act) : Decidable (Roomy s a) := by
  unfold Roomy
  repeat' split
  all_goals infer_instance

/-- What is left to do for the writers and the dispatcher, each event counted with the hands it still has to pass through. -/
def State.work (s : State) : Nat := 3 * s.emitting.flatten.length + 2 * s.ch.length + s.worker.reporting.toList.length

/-- **Every arrival is handled**: it is on its way, was put on its session's queue, or was reported as backpressure; while
there is work somebody can take a step, which leaves less; no step but a commit makes more; and the channel is taken in order.
-/
structure Handled (s : State) : Prop where
  not_lost : ∀ sessionID, ∀ e ∈ s.db.events sessionID, e.draft.type = commitArrived →
    (∃ l ∈ s.emitting, e ∈ l) ∨ e ∈ s.ch ∨ s.worker.reporting = some e ∨ e ∈ s.worker.accepted e.sessionID ∨
      (e, true) ∈ s.worker.reported
  goes_on : s.work ≠ 0 → ∃ a s', ((∃ k, a = .fan k) ∨ a = .dispatch ∨ a = .worker (.report true)) ∧ s.step a = some s' ∧
    s'.work < s.work
  no_more : ∀ a s', s.step a = some s' → (∀ t told, a ≠ .db (.commit t) told) → s'.work ≤ s.work
  in_turn : ∀ a s', s.step a = some s' → s.worker.delivered ++ s.ch <+: s'.worker.delivered ++ s'.ch

/-! ## The invariant -/

/-- **Nothing is lost on the way**: every committed arrival is with its writer, in the channel, or was delivered to the worker; the
worker keeps its queues; and every report was taken. -/
structure Tracked (s : State) : Prop where
  owned : MergeQueue.Owned s.worker
  tracked : ∀ sessionID, ∀ e ∈ s.db.events sessionID, e.draft.type = commitArrived →
    (∃ l ∈ s.emitting, e ∈ l) ∨ e ∈ s.ch ∨ e ∈ s.worker.delivered
  taken : ∀ p ∈ s.worker.reported, p.2 = true

section
variable {s s' : State} {e : Event}

theorem mem_offer {ch : List Event} {e' : Event} (h : e' ∈ ch) : e' ∈ offer commitArrived ch e := by
  unfold offer
  split
  · exact h
  · split
    · exact mem_append_left _ h
    · exact h

theorem self_mem_offer {ch : List Event} (ht : e.draft.type = commitArrived) (hr : ch.length < subscriberBuffer) :
    e ∈ offer commitArrived ch e := by
  simp [offer, ht, hr]

theorem dispatch_step (hs : s.step .dispatch = some s') : ∃ e ch worker, s.ch = e :: ch ∧ s' = { s with ch, worker } ∧
    s.worker.step (.deliver e) = some worker ∧ s.worker.reporting = none ∧ worker.delivered = s.worker.delivered ++ [e] ∧
      worker.reporting.toList.length ≤ 1 := by
  simp only [State.step] at hs
  split at hs
  · rename_i e ch hch
    obtain ⟨worker, hw, rfl⟩ := map_eq_some_iff.1 hs
    refine ⟨e, ch, worker, hch, rfl, hw, ?_⟩
    simp only [MergeQueue.State.step] at hw
    split at hw <;> cases hw
    rename_i hr
    refine ⟨hr, ?_⟩
    have hq : (s.worker.queueOf e.sessionID).2.delivered = s.worker.delivered ∧
        (s.worker.queueOf e.sessionID).2.reporting = none := by
      unfold MergeQueue.State.queueOf
      split <;> exact ⟨rfl, hr⟩
    unfold MergeQueue.State.push
    split
    · exact ⟨congrArg (· ++ [e]) hq.1, by rw [hq.2]; exact Nat.zero_le _⟩
    · exact ⟨congrArg (· ++ [e]) hq.1, Nat.le_refl _⟩
  · cases hs

theorem worker_step {a : MergeQueue.Act} (hs : s.step (.worker a) = some s') : ∃ worker, s' = { s with worker } ∧
    s.worker.step a = some worker ∧ worker.delivered = s.worker.delivered ∧
      ((∃ e ok, a = .report ok ∧ s.worker.reporting = some e ∧ worker.reporting = none) ∨
        (∀ ok, a ≠ .report ok) ∧ worker.reporting = s.worker.reporting) := by
  simp only [State.step] at hs
  split at hs
  · cases hs
  rename_i hno
  obtain ⟨worker, hw, rfl⟩ := map_eq_some_iff.1 hs
  refine ⟨worker, rfl, hw, ?_⟩
  cases a with simp only [MergeQueue.State.step] at hw
  | deliver => exact absurd rfl hno
  | report ok =>
    split at hw <;> cases hw
    rename_i e he
    exact ⟨rfl, .inl ⟨e, ok, rfl, he, rfl⟩⟩
  | _ =>
    repeat' split at hw
    all_goals cases hw
    all_goals exact ⟨rfl, .inr ⟨(fun _ h => by cases h), rfl⟩⟩

theorem Tracked.step {a : Act} (h : Tracked s) (hok : Roomy s a) (hstep : s.step a = some s') : Tracked s' := by
  cases a with
  | db a told =>
    obtain ⟨_, hdb, rfl⟩ := map_eq_some_iff.1 hstep
    refine ⟨h.owned, fun sessionID e he ht => ?_, h.taken⟩
    rcases Events.mem_events_step hdb he with he | ⟨t, l, rfl, hl, he⟩
    · rcases h.tracked sessionID e he ht with ⟨l, hl, he⟩ | hrest
      · exact .inl ⟨l, mem_append_left _ hl, he⟩
      · exact .inr hrest
    · have htold : told = true := hok
      refine .inl ⟨l, mem_append_right _ ?_, he⟩
      simp [htold, hl]
  | fan k =>
    simp only [State.step] at hstep
    split at hstep <;> cases hstep
    rename_i e rest hk
    simp only [Roomy, hk] at hok
    refine ⟨h.owned, fun sessionID e' he' ht => ?_, h.taken⟩
    rcases h.tracked sessionID e' he' ht with ⟨l, hl, hel⟩ | hch | hd
    · by_cases hs : e' = e
      · subst hs
        exact .inr (.inl (self_mem_offer ht (hok ht)))
      refine .inl ?_
      obtain ⟨i, hi, rfl⟩ := mem_iff_getElem.1 hl
      by_cases hik : i = k
      · subst hik
        rw [List.getElem?_eq_getElem hi, Option.some.injEq] at hk
        rw [hk] at hel
        exact ⟨rest, mem_set hi rest, (mem_cons.1 hel).resolve_left hs⟩
      · refine ⟨s.emitting[i], ?_, hel⟩
        refine mem_iff_getElem.2 ⟨i, by rw [length_set]; exact hi, ?_⟩
        rw [getElem_set_of_ne (Ne.symm hik)]
    · exact .inr (.inl (mem_offer hch))
    · exact .inr (.inr hd)
  | dispatch =>
    obtain ⟨e, ch, worker, hch, rfl, hw, -, hd, -⟩ := dispatch_step hstep
    refine ⟨h.owned.step hw, fun sessionID e' he' ht => ?_, MergeQueue.logged_step (a := .deliver e) h.taken trivial hw⟩
    show (∃ l ∈ s.emitting, e' ∈ l) ∨ e' ∈ ch ∨ e' ∈ worker.delivered
    rw [hd]
    rcases h.tracked sessionID e' he' ht with hl | he' | he'
    · exact .inl hl
    · rw [hch] at he'
      rcases mem_cons.1 he' with rfl | he'
      · exact .inr (.inr (by simp))
      · exact .inr (.inl he')
    · exact .inr (.inr (mem_append_left _ he'))
  | worker a =>
    obtain ⟨worker, rfl, hw, hd, -⟩ := worker_step hstep
    refine ⟨h.owned.step hw, fun sessionID e' he' ht => ?_, MergeQueue.logged_step h.taken (by cases a <;> exact hok) hw⟩
    show (∃ l ∈ s.emitting, e' ∈ l) ∨ e' ∈ s.ch ∨ e' ∈ worker.delivered
    rw [hd]
    exact h.tracked sessionID e' he' ht

/-! ## Work and turns -/

theorem length_flatten_set {L : List (List Event)} {k : Nat} {rest : List Event} (hk : L[k]? = some (e :: rest)) :
    (L.set k rest).flatten.length + 1 = L.flatten.length := (Events.flatten_set_perm hk).length_eq.symm

theorem offer_length {ch : List Event} : (offer commitArrived ch e).length ≤ ch.length + 1 := by
  unfold offer
  split
  · exact Nat.le_succ _
  · split
    · simp
    · exact Nat.le_succ _

theorem work_step {a : Act} (hstep : s.step a = some s') :
    (((∃ k, a = .fan k) ∨ a = .dispatch ∨ ∃ ok, a = .worker (.report ok)) → s'.work < s.work) ∧
      ((∀ t told, a ≠ .db (.commit t) told) → s'.work ≤ s.work) := by
  cases a with
  | db a told =>
    obtain ⟨db, _, rfl⟩ := map_eq_some_iff.1 hstep
    refine ⟨by simp, fun hno => ?_⟩
    have hnone : published s.db a = none := Events.published_eq_none fun t ht => hno t told (by rw [ht])
    simp [State.work, hnone]
  | fan k =>
    simp only [State.step] at hstep
    split at hstep <;> cases hstep
    rename_i e rest hk
    have hlt : State.work { s with emitting := s.emitting.set k rest, ch := offer commitArrived s.ch e } < s.work := by
      have hflatten := length_flatten_set hk
      have hlength : (offer commitArrived s.ch e).length ≤ s.ch.length + 1 := offer_length
      simp only [State.work]
      omega
    exact ⟨fun _ => hlt, fun _ => Nat.le_of_lt hlt⟩
  | dispatch =>
    obtain ⟨e, ch, worker, hch, rfl, -, hready, -, _⟩ := dispatch_step hstep
    have hlt : State.work { s with ch, worker } < s.work := by
      unfold State.work
      rw [hready, hch, length_cons]
      simp only
      omega
    exact ⟨fun _ => hlt, fun _ => Nat.le_of_lt hlt⟩
  | worker =>
    obtain ⟨worker, rfl, -, -, ⟨e, ok, -, hr, hdone⟩ | ⟨ho, hs⟩⟩ := worker_step hstep
    · have hlt : State.work { s with worker } < s.work := by
        unfold State.work
        rw [hr, hdone]
        simp
      exact ⟨fun _ => hlt, fun _ => Nat.le_of_lt hlt⟩
    · refine ⟨?_, fun _ => ?_⟩
      · rintro (⟨k, hk⟩ | hd | ⟨ok, hw⟩)
        · cases hk
        · cases hd
        · cases hw
          exact absurd rfl (ho ok)
      · unfold State.work
        rw [hs]

theorem exists_step (hw : s.work ≠ 0) :
    ∃ a s', ((∃ k, a = .fan k) ∨ a = .dispatch ∨ a = .worker (.report true)) ∧ s.step a = some s' := by
  cases hr : s.worker.reporting with
  | some e =>
    have hs : s.step (.worker (.report true)) = some { s with
        worker := { s.worker with reporting := none, reported := s.worker.reported ++ [(e, true)] } } := by
      simp [State.step, isDeliver, MergeQueue.State.step, hr]
    exact ⟨_, _, .inr (.inr rfl), hs⟩
  | none =>
    cases hch : s.ch with
    | cons e ch =>
      have hs : s.step .dispatch = some { s with
          ch, worker := (s.worker.queueOf e.sessionID).2.push (s.worker.queueOf e.sessionID).1 e } := by
        simp [State.step, hch, MergeQueue.State.step, hr]
      exact ⟨_, _, .inr (.inl rfl), hs⟩
    | nil =>
      have hf : s.emitting.flatten ≠ [] := by
        intro hn
        unfold State.work at hw
        rw [hr, hch, hn] at hw
        exact hw rfl
      obtain ⟨x, hx⟩ := exists_mem_of_ne_nil _ hf
      obtain ⟨l, hl, hm⟩ := mem_flatten.1 hx
      have hne := ne_nil_of_mem hm
      obtain ⟨k, hk, rfl⟩ := mem_iff_getElem.1 hl
      obtain ⟨e, rest, hc⟩ := exists_cons_of_ne_nil hne
      have hs : s.step (.fan k) = some { s with emitting := s.emitting.set k rest, ch := offer commitArrived s.ch e } := by
        simp [State.step, List.getElem?_eq_getElem hk, hc]
      exact ⟨_, _, .inl ⟨k, rfl⟩, hs⟩

theorem stream_step {a : Act} (hs : s.step a = some s') : s.worker.delivered ++ s.ch <+: s'.worker.delivered ++ s'.ch := by
  cases a with
  | db =>
    obtain ⟨_, -, rfl⟩ := map_eq_some_iff.1 hs
    exact prefix_rfl
  | fan =>
    simp only [State.step] at hs
    split at hs <;> cases hs
    refine (prefix_append_right_inj _).2 ?_
    unfold offer
    split
    · exact prefix_rfl
    · split
      · exact prefix_append _ _
      · exact prefix_rfl
  | dispatch =>
    obtain ⟨e, ch, worker, hch, rfl, -, -, hd, -⟩ := dispatch_step hs
    show s.worker.delivered ++ s.ch <+: worker.delivered ++ ch
    rw [hd, hch, append_assoc]
    exact prefix_rfl
  | worker =>
    obtain ⟨_, rfl, -, hd, -⟩ := worker_step hs
    exact ⟨[], by rw [hd, append_nil]⟩

theorem Tracked.settled (h : Tracked s) (he : e ∈ s.worker.delivered) :
    s.worker.reporting = some e ∨ e ∈ s.worker.accepted e.sessionID ∨ (e, true) ∈ s.worker.reported := by
  have hc := h.owned.delivered e
  have hpos := count_pos_iff.2 he
  by_cases ha : e ∈ s.worker.accepted e.sessionID
  · exact .inr (.inl ha)
  rw [count_eq_zero_of_not_mem ha, Nat.zero_add] at hc
  have hr : e ∈ s.worker.refused := count_pos_iff.1 (hc ▸ hpos)
  rw [h.owned.reported] at hr
  rcases mem_append.1 hr with hreported | hreporting
  · obtain ⟨p, hp, rfl⟩ := mem_map.1 hreported
    have ht := h.taken p hp
    obtain ⟨e, _⟩ := p
    cases ht
    exact .inr (.inr hp)
  · exact .inl (mem_toList.1 hreporting)

theorem Tracked.handled (h : Tracked s) : Handled s where
  not_lost sessionID e he ht := by
    rcases h.tracked sessionID e he ht with hl | hch | hd
    · exact .inl hl
    · exact .inr (.inl hch)
    · exact .inr (.inr (h.settled hd))
  goes_on hw := by
    obtain ⟨a, s', ha, hs⟩ := exists_step hw
    refine ⟨a, s', ha, hs, (work_step hs).1 ?_⟩
    rcases ha with hf | hdispatch | hr
    · exact .inl hf
    · exact .inr (.inl hdispatch)
    · exact .inr (.inr ⟨true, hr⟩)
  no_more a s' hs := (work_step hs).2
  in_turn a s' hs := stream_step hs

end

theorem start_tracked {db : Events.State} (hdb : Events.Initial db) (queueSize : Nat) : Tracked (start db queueSize) where
  owned := MergeQueue.start_owned queueSize
  tracked sessionID e he := by
    have he : e ∈ db.events sessionID := he
    rw [hdb.events] at he
    cases he
  taken p hp := absurd hp not_mem_nil

/-- **Every arrival is handled**, in every state of every run in which each fan-out finds room. -/
theorem arrivals_handled {db : Events.State} {queueSize : Nat} {as : List Act} {s : State} (hdb : Events.Initial db)
    (hroomy : Along State.step Roomy (start db queueSize) as) (hrun : exec State.step (start db queueSize) as = some s) :
    Handled s :=
  (invariant (fun _ _ _ hI hok hs => Tracked.step hI hok hs) (start_tracked hdb queueSize) hroomy hrun).handled

def pushOf (n : Nat) : List Act :=
  [.db (.begin 0 "s".toList (List.replicate n ⟨commitArrived, []⟩)) true, .db (.ensure 0) true, .db (.allocate 0) true] ++
    List.replicate n (.db (.insert 0) true) ++ [.db (.commit 0) true]

def handledPush : List Act := pushOf 2 ++ [.fan 0, .dispatch, .fan 0, .dispatch]

theorem arrivals_handled_push : ∃ s, exec State.step (start Events.empty 256) handledPush = some s ∧ Handled s ∧
    (s.worker.accepted "s".toList).map (·.seq) = [1, 2] := by
  have hr : Along State.step Roomy (start Events.empty 256) handledPush := by decide
  have hrun : exec State.step (start Events.empty 256) handledPush = some _ := rfl
  exact ⟨_, hrun, arrivals_handled Events.empty_initial hr hrun, by decide⟩

def burst : List Act := pushOf 65 ++ List.replicate 65 (.fan 0) ++ List.replicate 64 .dispatch

/-- **The last event of the burst is nowhere**: it is committed, nothing is left to do, and it is neither queued nor reported. -/
theorem arrival_lost : Events.Initial Events.empty ∧ ∃ s, exec State.step (start Events.empty 256) burst = some s ∧
    ∃ e ∈ s.db.events "s".toList, e.draft.type = commitArrived ∧ s.work = 0 ∧ e ∉ s.worker.accepted e.sessionID ∧
      s.worker.reported = [] := by
  have hl : (exec State.step (start Events.empty 256) burst).any (fun s => decide
      (⟨"s".toList, 65, ⟨commitArrived, []⟩⟩ ∈ s.db.events "s".toList ∧ s.work = 0 ∧
        ⟨"s".toList, 65, ⟨commitArrived, []⟩⟩ ∉ s.worker.accepted "s".toList ∧ s.worker.reported = [])) = true := by
    decide +kernel
  obtain ⟨s, hrun, hs⟩ := (any_eq_true _ _).1 hl
  obtain ⟨hm, hw, hq, hr⟩ := of_decide_eq_true hs
  exact ⟨Events.empty_initial, s, hrun, _, hm, rfl, hw, hq, hr⟩

end FanOut
end Jamsesh
