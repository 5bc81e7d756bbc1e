import Jamsesh.FanOut
/-!
# Gateway — the events of a session on a WebSocket connection (`wsgateway/gateway.go`)

A connection registers for live events, may ask for those behind a number, and writes what the replay query and the fan-out
gave it; nothing compares the two.  What is written follows the log without a gap or a repetition where the fan-outs come in
order and find room, and the replay meets no live event on its way (`connection_faithful`).
-/
namespace Jamsesh.Gateway

open List Machine
open Events (Event offer published subscriberBuffer listEventsSince)

/-! ## The gateway and one connection -/

def sendBuffer : Nat := 64

def replayLimit : Nat := 1000

/-- A connection: not there yet, registered and waiting for the first frame, in the write loops, or closed. -/
inductive Phase where
  | absent | registered | pumping | closed
deriving DecidableEq

/-- The event log with its writers, the channel of the gateway's subscription, and a connection: its session, the number it
sends as `replay_from`, whether it is a subscriber, its send queue, the rows of the replay to be written, and what was
written. -/
structure State where
  db : Events.State
  emitting : List (List Event)
  ch : List Event
  sessionID : Text
  replayFrom : Int
  phase : Phase
  live : Bool
  send : List Event
  rows : List Event
  written : List Event

inductive Act where
  /-- a statement of the event log; a commit may come from another process, or succeed without its caller being told -/
  | db (a : Events.Act) (told : Bool)
  | fan (k : Nat)
  | fanout
  | register
  | frame (listed : Bool)
  | noFrame
  | write (ok : Bool)
  | disconnect
deriving DecidableEq

def State.log (s : State) : List Event := s.db.events s.sessionID

def State.ours (s : State) (l : List Event) : List Event := l.filter (fun e => e.sessionID = s.sessionID)

def State.replay (s : State) : List Event := listEventsSince s.log s.replayFrom.toNat replayLimit

/-- `fanout` for one event: a connection whose queue is full is closed and leaves the set. -/
def State.deliver (s : State) (e : Event) : State :=
  if e.sessionID = s.sessionID && s.live then
    if s.send.length < sendBuffer then { s with send := s.send ++ [e] } else { s with live := false }
  else s

/-- The deferred `unregister` and `CloseNow` of the handler. -/
def State.close (s : State) : State := { s with phase := .closed, live := false }

def State.step (s : State) : Act → Option State
  | .db a told =>
    (s.db.step a).map (fun db => { s with db, emitting := s.emitting ++ if told then (published s.db a).toList else [] })
  | .fan k =>
    match s.emitting[k]? with
    | some (e :: rest) => some { s with emitting := s.emitting.set k rest, ch := offer [] s.ch e }
    | _ => none
  | .fanout =>
    match s.ch with
    | e :: ch => some ({ s with ch }.deliver e)
    | [] => none
  | .register => if s.phase = .absent then some { s with phase := .registered, live := true } else none
  | .frame listed =>
    -- a query that fails is passed over
    if s.phase = .registered then
      some { s with phase := .pumping, rows := if 0 < s.replayFrom && listed then s.replay else [] }
    else none
  | .noFrame => if s.phase = .registered then some { s with phase := .pumping } else none
  | .write ok =>
    if s.phase = .pumping then
      match s.rows, s.send with
      | e :: rows, _ => some (if ok then { s with rows, written := s.written ++ [e] } else s.close)
      | [], e :: send => some (if ok then { s with send, written := s.written ++ [e] } else s.close)
      | [], [] => none
    else none
  | .disconnect => if s.phase = .registered || s.phase = .pumping then some s.close else none

def start (db : Events.State) (sessionID : Text) (replayFrom : Int) : State :=
  ⟨db, [], [], sessionID, replayFrom, .absent, false, [], [], []⟩

/-! ## The property and the condition -/

/-- **What is written follows the log**: its numbers go up, and it has every committed event of the session behind the
number that was asked for, up to the last that is written. -/
structure Faithful (s : State) : Prop where
  increasing : (s.written.map (·.seq)).Pairwise (· < ·)
  complete : ∀ e ∈ s.log, s.replayFrom < e.seq → (∃ e' ∈ s.written, e.seq ≤ e'.seq) → e ∈ s.written

def Quiet (s : State) : Prop := s.send = [] ∧ s.ours s.ch = [] ∧ s.ours s.emitting.flatten = []

def Covered (s : State) : Prop :=
  ∀ e ∈ s.log, s.replayFrom < e.seq → e ∈ s.send ∨ e ∈ s.ch ∨ e ∈ s.emitting.flatten

instance (s : State) : Decidable (Quiet s) :=
  inferInstanceAs (Decidable (s.send = [] ∧ s.ours s.ch = [] ∧ s.ours s.emitting.flatten = []))

instance (s : State) : Decidable (Covered s) :=
  inferInstanceAs (Decidable (∀ e ∈ s.log, s.replayFrom < e.seq → e ∈ s.send ∨ e ∈ s.ch ∨ e ∈ s.emitting.flatten))

/-- **Live events and replay do not cross**: each committed event of the session is fanned out, in order, and finds room; a
replay query that has rows is within its limit and meets no event on its way; where there is none, everything behind the
number is still on its way. -/
def Uncrossed (s : State) : Act → Prop
  | .db a told => s.ours ((published s.db a).toList.flatten) ≠ [] → told = true
  | .fan k =>
    match s.emitting[k]? with
    | some (e :: _) => e.sessionID = s.sessionID →
        s.ch.length < subscriberBuffer ∧ ∀ e' ∈ s.ours s.emitting.flatten, e.seq ≤ e'.seq
    | _ => True
  | .frame listed =>
    if 0 < s.replayFrom && listed then
      (s.log.filter (fun e => e.seq > s.replayFrom.toNat)).length ≤ replayLimit ∧ (s.replay = [] ∨ Quiet s)
    else Covered s
  | .noFrame => Covered s
  | _ => True

instance (s : State) (a : Act) : Decidable (Uncrossed s a) := by
  unfold Uncrossed
  repeat' split
  all_goals infer_instance

/-! ## Places in the log -/

/-- How far the session's log has come: where what the connection gets begins, what it was handed, what has left the
channel, and what was fanned out. -/
structure Places where
  first : Nat
  handed : Nat
  taken : Nat
  fanned : Nat

/-- **The invariant**: the places follow each other in the log; the channel has what is between two of them, and the
connection what is between its own; a live connection was handed all that has left the channel. -/
structure Follows (s : State) (p : Places) : Prop where
  numbered : Events.Numbered s.db
  first_le : p.first ≤ p.handed
  handed_le : p.handed ≤ p.taken
  taken_le : p.taken ≤ p.fanned
  fanned_le : p.fanned ≤ s.log.length
  emitting : (s.ours s.emitting.flatten).Perm (s.log.drop p.fanned)
  queued : s.ours s.ch = (s.log.take p.fanned).drop p.taken
  handed : s.written ++ s.rows ++ s.send = (s.log.take p.handed).drop p.first
  live : s.live = true → p.handed = p.taken
  absent : s.phase = .absent → s.live = false ∧ s.written ++ s.rows ++ s.send = []
  registered : s.phase = .registered → s.written ++ s.rows = []
  behind : s.phase = .pumping ∨ s.written ≠ [] → p.first ≤ s.replayFrom.toNat

section
variable {s : State} (h : Events.Numbered s.db)

include h

theorem mem_log_drop {n : Nat} {e : Event} : e ∈ s.log.drop n ↔ e ∈ s.log ∧ n < e.seq := by
  unfold State.log
  rw [h.rows_eq, ← Events.filter_rows, mem_filter, decide_eq_true_eq]

theorem sessionID_of_mem_log {e : Event} (he : e ∈ s.log) : e.sessionID = s.sessionID := by
  unfold State.log at he
  rw [h.rows_eq, Events.rows, mem_mapIdx] at he
  obtain ⟨i, _, rfl⟩ := he
  rfl

theorem seq_pos_of_mem_log {e : Event} (he : e ∈ s.log) : 0 < e.seq := by
  unfold State.log at he
  rw [h.rows_eq] at he
  exact (Events.seq_of_mem_rows he).1

theorem log_increasing : s.log.Pairwise (fun a b => a.seq < b.seq) := by
  unfold State.log
  rw [h.rows_eq, ← pairwise_map, Events.map_seq_rows]
  exact pairwise_lt_range'

/-- **What is written is faithful** as soon as it is a piece of the log that begins no later than behind the number. -/
theorem faithful_of_piece (first n : Nat) (hw : s.written <+: (s.log.take n).drop first)
    (hf : s.written ≠ [] → first ≤ s.replayFrom.toNat) : Faithful s := by
  have hs : s.written.Sublist s.log := hw.sublist.trans ((drop_sublist _ _).trans (take_sublist _ _))
  have hp : s.written <+: s.log.drop first := by
    rw [drop_take] at hw
    exact hw.trans (List.take_prefix _ _)
  refine ⟨pairwise_map.2 ((log_increasing h).sublist hs), ?_⟩
  rintro e he _ ⟨e', he', _⟩
  have hf := hf (ne_nil_of_mem he')
  have hpos := seq_pos_of_mem_log h he
  have hd : e ∈ s.log.drop first := (mem_log_drop h).2 ⟨he, by omega⟩
  obtain ⟨rest, hr⟩ := hp
  rw [← hr] at hd
  rcases mem_append.1 hd with hin | hin
  · exact hin
  -- what follows has larger numbers than what is written
  have hi : (s.written ++ rest).Pairwise (fun a b => a.seq < b.seq) := by
    rw [hr]
    exact (log_increasing h).sublist (drop_sublist _ _)
  have := (pairwise_append.1 hi).2.2 e' he' e hin
  omega

end

theorem Follows.faithful {s : State} {p : Places} (h : Follows s p) : Faithful s := by
  refine faithful_of_piece h.numbered p.first p.handed ⟨s.rows ++ s.send, ?_⟩ fun hne => h.behind (.inr hne)
  rw [← append_assoc]
  exact h.handed

/-! ## One step -/

section
variable {s s' : State} {p : Places}

theorem log_of_step {a : Events.Act} {db : Events.State} (hdb : s.db.step a = some db) :
    db.events s.sessionID = s.log ++ s.ours ((published s.db a).toList.flatten) := by
  rcases Events.step_events hdb with ⟨hno, heq⟩ | ⟨t, sid, drafts, last, _, rfl, hn, heq⟩
  · rw [heq, Events.published_eq_none hno]
    simp [State.log, State.ours]
  have hr : (published s.db (.commit t)).toList.flatten =
      Events.rows sid (Events.firstSeq last drafts.length) drafts := by simp [published, hn]
  have ha : ∀ e ∈ Events.rows sid (Events.firstSeq last drafts.length) drafts, e.sessionID = sid := by
    intro e he
    rw [Events.rows, mem_mapIdx] at he
    obtain ⟨i, -, rfl⟩ := he
    rfl
  rw [heq, hr, State.ours]
  by_cases hs : s.sessionID = sid
  · subst hs
    rw [Function.update_self, filter_eq_self.2 fun e he => decide_eq_true (ha e he)]
    rfl
  rw [Function.update_of_ne hs, filter_eq_nil_iff.2 fun e he => ?_, append_nil]
  · rfl
  · rw [ha e he, decide_eq_true_eq]
    exact Ne.symm hs

theorem Follows.db {a : Events.Act} {told : Bool} {db : Events.State} (h : Follows s p)
    (hok : s.ours ((published s.db a).toList.flatten) ≠ [] → told = true) (hdb : s.db.step a = some db) :
    Follows { s with db, emitting := s.emitting ++ if told then (published s.db a).toList else [] } p := by
  have hl := log_of_step hdb
  have hle := h.fanned_le
  have ht : ∀ n ≤ p.fanned, (db.events s.sessionID).take n = s.log.take n := fun n hn => by
    rw [hl, take_append_of_le_length (hn.trans hle)]
  refine { h with numbered := h.numbered.step hdb, fanned_le := ?_, emitting := ?_, queued := ?_, handed := ?_ }
  · show p.fanned ≤ (db.events s.sessionID).length
    rw [hl, length_append]
    exact hle.trans (Nat.le_add_right _ _)
  · show (s.ours (s.emitting ++ if told then (published s.db a).toList else []).flatten).Perm
      ((db.events s.sessionID).drop p.fanned)
    rw [hl, drop_append_of_le_length hle, flatten_append, State.ours, filter_append]
    refine h.emitting.append (List.Perm.of_eq ?_)
    cases told with
    | true => rfl
    | false =>
      -- nothing of the session was committed
      have hnone := not_imp_comm.1 hok (by simp)
      rw [hnone]
      rfl
  · exact h.queued.trans (by rw [← ht p.fanned (Nat.le_refl _)]; rfl)
  · exact h.handed.trans (by rw [← ht p.handed (h.handed_le.trans h.taken_le)]; rfl)

theorem Follows.next {e : Event} {rest : List Event} (h : Follows s p) (hm : e ∈ s.ours s.emitting.flatten)
    (hmin : ∀ e' ∈ s.ours s.emitting.flatten, e.seq ≤ e'.seq) (hr : (s.ours s.emitting.flatten).Perm (e :: rest)) :
    s.log.drop p.fanned = e :: s.log.drop (p.fanned + 1) ∧ rest.Perm (s.log.drop (p.fanned + 1)) := by
  have hi : (s.log.drop p.fanned).Pairwise (fun a b => a.seq < b.seq) :=
    (log_increasing h.numbered).sublist (drop_sublist _ _)
  have ht : s.log.drop (p.fanned + 1) = (s.log.drop p.fanned).tail := by rw [tail_drop]
  have hin : e ∈ s.log.drop p.fanned := h.emitting.mem_iff.1 hm
  cases hd : s.log.drop p.fanned with
  | nil =>
    rw [hd] at hin
    cases hin
  | cons x =>
    rw [hd] at hi hin ht
    have hx : e.seq ≤ x.seq := hmin x (h.emitting.mem_iff.2 (by rw [hd]; exact mem_cons_self))
    obtain rfl : e = x := by
      rcases mem_cons.1 hin with heq | hin
      · exact heq
      · exact absurd ((pairwise_cons.1 hi).1 e hin) (by omega)
    rw [ht]
    refine ⟨rfl, (perm_cons e).1 (hr.symm.trans ?_)⟩
    have hp := h.emitting
    rwa [hd] at hp

theorem ours_offer {ch : List Event} {e : Event} (hr : e.sessionID = s.sessionID → ch.length < subscriberBuffer) :
    s.ours (offer [] ch e) = s.ours ch ++ s.ours [e] := by
  unfold offer State.ours
  by_cases hs : e.sessionID = s.sessionID
  · simp [hr hs]
  · by_cases hf : ch.length < subscriberBuffer <;> simp [hf, hs]

theorem Follows.fan {k : Nat} (h : Follows s p) (hok : Uncrossed s (.fan k)) (hs : s.step (.fan k) = some s') :
    ∃ p', Follows s' p' := by
  simp only [State.step] at hs
  split at hs <;> cases hs
  rename_i e _ hk
  simp only [Uncrossed, hk] at hok
  have hp := (Events.flatten_set_perm hk).filter (fun e => e.sessionID = s.sessionID)
  by_cases hsid : e.sessionID = s.sessionID
  · obtain ⟨hr, hm⟩ := hok hsid
    rw [filter_cons, if_pos (decide_eq_true hsid)] at hp
    obtain ⟨hn, hleft⟩ := h.next (hp.mem_iff.2 mem_cons_self) hm hp
    have hlt : p.fanned < s.log.length := by
      rw [← drop_eq_nil_iff.not.trans not_le, hn]
      exact cons_ne_nil _ _
    refine ⟨{ p with fanned := p.fanned + 1 },
      { h with taken_le := h.taken_le.trans (Nat.le_succ _), fanned_le := hlt, emitting := hleft, queued := ?_ }⟩
    show s.ours (offer [] s.ch e) = (s.log.take (p.fanned + 1)).drop p.taken
    have ho : s.log.take (p.fanned + 1) = s.log.take p.fanned ++ [e] := by
      rw [take_add, hn]
      rfl
    have hl : p.taken ≤ (s.log.take p.fanned).length := by
      rw [length_take]
      exact le_min h.taken_le (h.taken_le.trans h.fanned_le)
    rw [ours_offer fun _ => hr, ho, drop_append_of_le_length hl, ← h.queued]
    simp [State.ours, hsid]
  · rw [filter_cons, if_neg (by simpa using hsid)] at hp
    refine ⟨p, { h with emitting := hp.symm.trans h.emitting, queued := ?_ }⟩
    show s.ours (offer [] s.ch e) = (s.log.take p.fanned).drop p.taken
    rw [ours_offer fun hc => absurd hc hsid, ← h.queued]
    simp [State.ours, hsid]

theorem Follows.head {e : Event} {ch : List Event} (h : Follows s p) (hch : s.ch = e :: ch)
    (hs : e.sessionID = s.sessionID) : p.taken < p.fanned ∧ s.log.take (p.taken + 1) = s.log.take p.taken ++ [e] ∧
      s.ours ch = (s.log.take p.fanned).drop (p.taken + 1) := by
  have hq := h.queued
  rw [hch, State.ours, filter_cons, if_pos (decide_eq_true hs)] at hq
  have hlt : p.taken < p.fanned := by
    by_contra hge
    rw [drop_eq_nil_of_le ((length_take_le _ _).trans (not_lt.1 hge))] at hq
    cases hq
  refine ⟨hlt, ?_, ?_⟩
  · rw [drop_take] at hq
    rw [take_add]
    congr 1
    have hh := congrArg (List.take 1) hq
    rw [take_take, min_eq_left (by omega)] at hh
    exact hh.symm
  · have ht := congrArg List.tail hq
    rw [tail_drop] at ht
    exact ht

theorem Follows.fanout (h : Follows s p) (hs : s.step .fanout = some s') : ∃ p', Follows s' p' := by
  simp only [State.step] at hs
  split at hs <;> cases hs
  rename_i e _ hch
  unfold State.deliver
  by_cases hsid : e.sessionID = s.sessionID
  · obtain ⟨hlt, ho, hq⟩ := h.head hch hsid
    cases hl : s.live with
    | false =>
      rw [if_neg (by simp)]
      exact ⟨{ p with taken := p.taken + 1 }, { h with
        handed_le := h.handed_le.trans (Nat.le_succ _), taken_le := hlt, queued := hq, live := nofun,
        absent := fun hab => ⟨rfl, (h.absent hab).2⟩ }⟩
    | true =>
      have hh := h.live hl
      rw [if_pos (by simp [hsid])]
      split
      · have hf : p.first ≤ p.taken + 1 := h.first_le.trans (h.handed_le.trans (Nat.le_succ _))
        refine ⟨{ p with handed := p.taken + 1, taken := p.taken + 1 }, { h with
          first_le := hf, handed_le := Nat.le_refl _, taken_le := hlt, queued := hq, handed := ?_,
          live := fun _ => rfl, absent := fun hab => ?_ }⟩
        · show s.written ++ s.rows ++ (s.send ++ [e]) = (s.log.take (p.taken + 1)).drop p.first
          have hlength : p.first ≤ (s.log.take p.taken).length := by
            rw [length_take]
            exact le_min (hh ▸ h.first_le) ((hh ▸ h.first_le).trans (h.taken_le.trans h.fanned_le))
          rw [ho, drop_append_of_le_length hlength, ← hh, ← h.handed, append_assoc]
          simp only [append_assoc]
        · have hno := (h.absent hab).1
          rw [hl] at hno
          cases hno
      · exact ⟨{ p with taken := p.taken + 1 }, { h with
          handed_le := h.handed_le.trans (Nat.le_succ _), taken_le := hlt, queued := hq, live := nofun,
          absent := fun hab => ⟨rfl, (h.absent hab).2⟩ }⟩
  · rw [if_neg (by simp [hsid])]
    refine ⟨p, { h with queued := ?_ }⟩
    have hq := h.queued
    rw [hch, State.ours, filter_cons, if_neg (by simpa using hsid)] at hq
    exact hq

theorem Follows.register (h : Follows s p) (hp : s.phase = .absent) :
    Follows { s with phase := .registered, live := true } { p with first := p.taken, handed := p.taken } := by
  obtain ⟨-, hn⟩ := h.absent hp
  refine { h with
    first_le := Nat.le_refl _, handed_le := Nat.le_refl _, handed := ?_, live := fun _ => rfl, absent := nofun,
    registered := fun _ => (append_eq_nil_iff.1 hn).1, behind := ?_ }
  · show s.written ++ s.rows ++ s.send = (s.log.take p.taken).drop p.taken
    rw [hn, drop_eq_nil_of_le (length_take_le _ _)]
  · rintro (hc | hne)
    · cases hc
    · exact absurd (append_eq_nil_iff.1 (append_eq_nil_iff.1 hn).1).1 hne

theorem Follows.pump (h : Follows s p) (hp : s.phase = .registered) (hf : p.first ≤ s.replayFrom.toNat) :
    Follows { s with phase := .pumping, rows := [] } p := by
  have hr := (append_eq_nil_iff.1 (h.registered hp)).2
  have hh := h.handed
  rw [hr] at hh
  exact { h with handed := hh, absent := nofun, registered := nofun, behind := fun _ => hf }

theorem Follows.first_le_of_covered (h : Follows s p) (hp : s.phase = .registered) (hc : Covered s) :
    p.first ≤ s.replayFrom.toNat := by
  by_contra hgt
  have hlt : s.replayFrom.toNat < s.log.length :=
    (not_le.1 hgt).trans_le (h.first_le.trans (h.handed_le.trans (h.taken_le.trans h.fanned_le)))
  -- the event right behind the number is on its way, so it is not before the first
  obtain ⟨e, he⟩ : ∃ e, s.log[s.replayFrom.toNat]? = some e := ⟨_, List.getElem?_eq_getElem hlt⟩
  have hm := mem_of_getElem? he
  have hseq : e.seq = s.replayFrom.toNat + 1 := by
    have hs : (s.log.map (·.seq))[s.replayFrom.toNat]? = some e.seq := by rw [List.getElem?_map, he]; rfl
    unfold State.log at hs hlt
    rw [h.numbered.rows_eq, Events.rows_length] at hlt
    rw [h.numbered.rows_eq, Events.map_seq_rows, List.getElem?_range' hlt] at hs
    have := Option.some.inj hs
    omega
  have hb : ∀ n, p.first ≤ n → e ∉ s.log.drop n := fun n _ hd => by
    have := ((mem_log_drop h.numbered).1 hd).2
    omega
  have ho : ∀ l, e ∈ l → e ∈ s.ours l := fun l hl =>
    mem_filter.2 ⟨hl, decide_eq_true (sessionID_of_mem_log h.numbered hm)⟩
  rcases hc e hm (by omega) with hin | hin | hin
  · have hh := h.handed
    rw [h.registered hp, nil_append] at hh
    rw [hh, drop_take] at hin
    exact hb p.first (Nat.le_refl _) (mem_of_mem_take hin)
  · have hin := ho _ hin
    rw [h.queued, drop_take] at hin
    exact hb p.taken (h.first_le.trans h.handed_le) (mem_of_mem_take hin)
  · have hin := h.emitting.mem_iff.1 (ho _ hin)
    exact hb p.fanned (h.first_le.trans (h.handed_le.trans h.taken_le)) hin

theorem replay_eq (h : Events.Numbered s.db) : s.replay = (s.log.drop s.replayFrom.toNat).take replayLimit := by
  unfold State.replay State.log
  rw [h.rows_eq, Events.listEventsSince_rows]

theorem Follows.frame {listed : Bool} (h : Follows s p) (hphase : s.phase = .registered) (hok : Uncrossed s (.frame listed)) :
    ∃ p', Follows { s with phase := .pumping, rows := if 0 < s.replayFrom && listed then s.replay else [] } p' := by
  simp only [Uncrossed] at hok
  split
  · rename_i hr
    rw [if_pos hr] at hok
    obtain ⟨hl, hquiet⟩ := hok
    have ha : s.replay = s.log.drop s.replayFrom.toNat := by
      have hf : s.log.filter (fun e => e.seq > s.replayFrom.toNat) = s.log.drop s.replayFrom.toNat := by
        unfold State.log
        rw [h.numbered.rows_eq, Events.filter_rows]
      rw [replay_eq h.numbered, take_of_length_le (by rw [← hf]; exact hl)]
    by_cases hn : s.replay = []
    · rw [hn]
      rw [ha, drop_eq_nil_iff] at hn
      exact ⟨p, h.pump hphase ((h.first_le.trans (h.handed_le.trans (h.taken_le.trans h.fanned_le))).trans hn)⟩
    obtain ⟨hs, hch, he⟩ := hquiet.resolve_left hn
    -- nothing is on its way, so all places are at the end of the log
    have hfanned : p.fanned = s.log.length := by
      have hp := h.emitting
      rw [he] at hp
      exact Nat.le_antisymm h.fanned_le (drop_eq_nil_iff.1 (nil_perm.1 hp))
    have ht : p.taken = s.log.length := by
      have hq := h.queued
      rw [hch, hfanned, take_length] at hq
      exact Nat.le_antisymm (h.taken_le.trans h.fanned_le) (drop_eq_nil_iff.1 hq.symm)
    have hlt : s.replayFrom.toNat < s.log.length := by
      rw [ha] at hn
      exact not_le.1 (mt drop_eq_nil_of_le hn)
    refine ⟨{ p with first := s.replayFrom.toNat, handed := s.log.length }, { h with
      first_le := Nat.le_of_lt hlt, handed_le := ht.ge, handed := ?_, live := fun _ => ht.symm, absent := nofun,
      registered := nofun, behind := fun _ => Nat.le_refl _ }⟩
    show s.written ++ s.replay ++ s.send = (s.log.take s.log.length).drop s.replayFrom.toNat
    rw [(append_eq_nil_iff.1 (h.registered hphase)).1, hs, ha, take_length, nil_append, append_nil]
  · rename_i hno
    rw [if_neg hno] at hok
    exact ⟨p, h.pump hphase (h.first_le_of_covered hphase hok)⟩

theorem Follows.close (h : Follows s p) : Follows s.close p :=
  { h with live := nofun, absent := nofun, registered := nofun, behind := fun hb => h.behind (hb.elim nofun .inr) }

theorem Follows.wrote {rows send written : List Event} (h : Follows s p) (hp : s.phase = .pumping)
    (hs : written ++ rows ++ send = s.written ++ s.rows ++ s.send) : Follows { s with rows, send, written } p := by
  refine { h with
    handed := hs.trans h.handed, absent := fun hc => ?_, registered := fun hc => ?_, behind := fun _ => h.behind (.inl hp) }
  all_goals
    rw [hp] at hc
    cases hc

theorem Follows.write {ok : Bool} (h : Follows s p) (hstep : s.step (.write ok) = some s') : Follows s' p := by
  simp only [State.step] at hstep
  split at hstep
  · rename_i hp
    split at hstep
    · rename_i hr
      cases hstep
      cases ok with
      | true => exact h.wrote hp (by rw [hr]; simp)
      | false => exact h.close
    · rename_i hr hs
      cases hstep
      cases ok with
      | true => exact h.wrote hp (by rw [hr, hs]; simp)
      | false => exact h.close
    · cases hstep
  · cases hstep

theorem Follows.step {a : Act} (h : Follows s p) (hok : Uncrossed s a) (hs : s.step a = some s') : ∃ p', Follows s' p' := by
  cases a with simp only [State.step] at hs
  | db =>
    obtain ⟨db, hdb, rfl⟩ := Option.map_eq_some_iff.1 hs
    exact ⟨p, h.db hok hdb⟩
  | fan => exact h.fan hok hs
  | fanout => exact h.fanout hs
  | register =>
    split at hs <;> cases hs
    rename_i hp
    exact ⟨_, h.register hp⟩
  | frame =>
    split at hs <;> cases hs
    rename_i hp
    exact h.frame hp hok
  | noFrame =>
    split at hs <;> cases hs
    rename_i hp
    have hpump := h.pump hp (h.first_le_of_covered hp hok)
    rw [← (append_eq_nil_iff.1 (h.registered hp)).2] at hpump
    exact ⟨p, hpump⟩
  | write => exact ⟨p, h.write hs⟩
  | disconnect =>
    split at hs <;> cases hs
    exact ⟨p, h.close⟩

end

/-! ## Every run -/

theorem start_follows {db : Events.State} (hdb : Events.Initial db) (sessionID : Text) (replayFrom : Int) :
    Follows (start db sessionID replayFrom) ⟨0, 0, 0, 0⟩ where
  numbered := hdb.numbered
  first_le := Nat.le_refl _
  handed_le := Nat.le_refl _
  taken_le := Nat.le_refl _
  fanned_le := Nat.zero_le _
  emitting := by
    show List.Perm [] (db.events sessionID)
    rw [hdb.events]
  queued := rfl
  handed := rfl
  live hl := by cases hl
  absent _ := ⟨rfl, rfl⟩
  registered _ := rfl
  behind _ := Nat.zero_le _

/-- **What is written follows the log** in every state of every run in which live events and replay do not cross. -/
theorem connection_faithful {db : Events.State} {sessionID : Text} {replayFrom : Int} {as : List Act} {s : State}
    (hdb : Events.Initial db) (hok : Along State.step Uncrossed (start db sessionID replayFrom) as)
    (hrun : exec State.step (start db sessionID replayFrom) as = some s) : Faithful s := by
  have hi : ∃ p, Follows s p := invariant (I := fun s => ∃ p, Follows s p)
    (fun _ _ _ hI ha hs => by
      obtain ⟨p, hp⟩ := hI
      exact hp.step ha hs)
    ⟨_, start_follows hdb sessionID replayFrom⟩ hok hrun
  obtain ⟨p, hp⟩ := hi
  exact hp.faithful

def emit (t : Nat) : List Act :=
  [.db (.begin t "s".toList [⟨"turn.ended".toList, []⟩]) true, .db (.ensure t) true, .db (.allocate t) true,
    .db (.insert t) true, .db (.commit t) true]

def replayThenLive : List Act :=
  emit 0 ++ [.fan 0, .fanout] ++ emit 1 ++ [.fan 1, .fanout, .register, .frame true, .write true] ++ emit 2 ++
    [.fan 2, .fanout, .write true]

theorem connection_faithful_replay : ∃ s, exec State.step (start Events.empty "s".toList 1) replayThenLive = some s ∧
    Faithful s ∧ s.written.map (·.seq) = [2, 3] := by
  have hok : Along State.step Uncrossed (start Events.empty "s".toList 1) replayThenLive := by decide
  have hr : exec State.step (start Events.empty "s".toList 1) replayThenLive = some _ := rfl
  exact ⟨_, hr, connection_faithful Events.empty_initial hok hr, by decide⟩

def liveBeforeReplay : List Act :=
  emit 0 ++ [.fan 0, .fanout, .register] ++ emit 1 ++ [.fan 1, .fanout, .frame true, .write true, .write true]

/-- **An event is written twice**: the replay has it, and so does the send queue. -/
theorem event_written_twice : ∃ s, exec State.step (start Events.empty "s".toList 1) liveBeforeReplay = some s ∧
    s.written.map (·.seq) = [2, 2] ∧ s.phase = .pumping ∧ ¬ Faithful s := by
  have hr : exec State.step (start Events.empty "s".toList 1) liveBeforeReplay = some _ := rfl
  refine ⟨_, hr, by decide, rfl, fun hf => ?_⟩
  exact absurd hf.increasing (by decide)

end Jamsesh.Gateway
