import Jamsesh.Machine
import Jamsesh.Text
import Mathlib.Data.List.Sort
/-!
# EventLog — the numbered events of every session (`events/log.go`, `comments/service.go`, `events.sql`)

A writer's transaction takes its numbers by an update of the session's row of `event_seq`, which locks the row to the end, so
the numbers of a session are given out, and become visible, one transaction after the other (`log_recorded`).  A reader asks
for the events behind the last it has seen.
-/
namespace Jamsesh.Events

open List
open Function (update update_apply update_self update_of_ne)

/-! ## Rows and statements -/

structure Draft where
  type : Text
  payload : Text
deriving DecidableEq

structure Event where
  sessionID : Text
  seq : Nat
  draft : Draft
deriving DecidableEq

def rows (sessionID : Text) (firstSeq : Nat) (drafts : List Draft) : List Event :=
  drafts.mapIdx (fun i d => ⟨sessionID, firstSeq + i, d⟩)

/-- `ListEventsSince` on the rows of a session. -/
def listEventsSince (events : List Event) (sinceSeq limit : Nat) : List Event :=
  ((events.filter (fun e => e.seq > sinceSeq)).insertionSort (fun a b => a.seq ≤ b.seq)).take limit

/-- The transaction of `insertAndPublish`, `UpdatePresence` or a comment, which all take these steps. -/
inductive Tx where
  | idle
  | begun (sessionID : Text) (drafts : List Draft)
  | ensured (sessionID : Text) (drafts : List Draft)
  /-- the numbers up to `last` are taken, and so many of the drafts are inserted -/
  | allocated (sessionID : Text) (drafts : List Draft) (last inserted : Nat)
  | committed
  | rolledBack
deriving DecidableEq

/-- A reader of a session that calls `ListSince` with the last number it has seen. -/
structure Reader where
  sessionID : Text
  start : Nat
  cursor : Nat
  seen : List Event
deriving DecidableEq

/-- By session: the counter of `event_seq`, the committed rows, the drafts of the committed transactions, and the transaction
that has the lock of the counter. -/
structure State where
  next : Text → Option Nat
  events : Text → List Event
  batches : Text → List (List Draft)
  lock : Text → Option Nat
  txs : Nat → Tx
  readers : Nat → Reader

inductive Act where
  | begin (t : Nat) (sessionID : Text) (drafts : List Draft)
  | ensure (t : Nat)
  | allocate (t : Nat)
  | insert (t : Nat)
  | commit (t : Nat)
  | rollback (t : Nat)
  | read (r limit : Nat)
deriving DecidableEq

def State.goes (s : State) (t : Nat) (tx : Tx) : State := { s with txs := update s.txs t tx }

def State.ends (s : State) (t : Nat) (tx : Tx) : State :=
  { s.goes t tx with lock := fun sessionID => if s.lock sessionID = some t then none else s.lock sessionID }

/-- The number of the first of `n` events when the last has the number `last`. -/
def firstSeq (last n : Nat) : Nat := last - n + 1

def State.step (s : State) : Act → Option State
  | .begin t sessionID drafts =>
    match s.txs t with
    -- `EmitBatch` returns without a transaction when there are no drafts
    | .idle => if drafts = [] then none else some (s.goes t (.begun sessionID drafts))
    | _ => none
  | .ensure t =>
    match s.txs t with
    | .begun sessionID drafts =>
      if (s.next sessionID).isSome then some (s.goes t (.ensured sessionID drafts))
      -- the new row is seen by no other transaction, and another that inserts it waits
      else if s.lock sessionID = none then
        some { s.goes t (.ensured sessionID drafts) with lock := update s.lock sessionID (some t) }
      else none
    | _ => none
  | .allocate t =>
    match s.txs t with
    | .ensured sessionID drafts =>
      -- the update waits for the transaction that has updated the row
      if s.lock sessionID = none || s.lock sessionID = some t then
        some { s.goes t (.allocated sessionID drafts ((s.next sessionID).getD 0 + drafts.length) 0) with
          lock := update s.lock sessionID (some t) }
      else none
    | _ => none
  | .insert t =>
    match s.txs t with
    | .allocated sessionID drafts last inserted =>
      if inserted = drafts.length then none
      -- UNIQUE(session_id, seq)
      else if (s.events sessionID).any (fun e => e.seq = firstSeq last drafts.length + inserted) then some (s.ends t .rolledBack)
      else some (s.goes t (.allocated sessionID drafts last (inserted + 1)))
    | _ => none
  | .commit t =>
    match s.txs t with
    | .allocated sessionID drafts last inserted =>
      if inserted = drafts.length then
        some { s.ends t .committed with
          next := update s.next sessionID (some last)
          events := update s.events sessionID
            (s.events sessionID ++ rows sessionID (firstSeq last drafts.length) drafts)
          batches := update s.batches sessionID (s.batches sessionID ++ [drafts]) }
      else none
    | _ => none
  | .rollback t =>
    match s.txs t with
    | .begun _ _ | .ensured _ _ | .allocated _ _ _ _ => some (s.ends t .rolledBack)
    | _ => none
  | .read r limit =>
    let reader := s.readers r
    let list := listEventsSince (s.events reader.sessionID) reader.cursor limit
    some { s with readers := update s.readers r { reader with
      cursor := (list.getLast?.map (·.seq)).getD reader.cursor, seen := reader.seen ++ list } }

structure Initial (s : State) : Prop where
  next : ∀ sessionID, s.next sessionID = none
  events : ∀ sessionID, s.events sessionID = []
  batches : ∀ sessionID, s.batches sessionID = []
  txs : ∀ t, s.txs t = .idle
  readers : ∀ r, (s.readers r).cursor = (s.readers r).start ∧ (s.readers r).seen = []

/-! ## Numbered rows -/

section
variable {sessionID : Text} {first : Nat} {drafts drafts' : List Draft}

@[simp] theorem rows_length : (rows sessionID first drafts).length = drafts.length := length_mapIdx

theorem rows_append : rows sessionID first (drafts ++ drafts') =
    rows sessionID first drafts ++ rows sessionID (first + drafts.length) drafts' := by
  rw [rows, mapIdx_append]
  congr 1
  refine congrArg (List.mapIdx · drafts') (funext fun i => funext fun d => ?_)
  rw [Nat.add_assoc, Nat.add_comm drafts.length i]

theorem rows_cons {d : Draft} : rows sessionID first (d :: drafts) = ⟨sessionID, first, d⟩ :: rows sessionID (first + 1) drafts := by
  rw [← singleton_append, rows_append]
  rfl

@[simp] theorem map_draft_rows : (rows sessionID first drafts).map (·.draft) = drafts := by
  induction drafts generalizing first with
  | nil => rfl
  | cons d _ ih => rw [rows_cons, map_cons, ih]

@[simp] theorem map_seq_rows : (rows sessionID first drafts).map (·.seq) = List.range' first drafts.length := by
  induction drafts generalizing first with
  | nil => rfl
  | cons d _ ih => rw [rows_cons, map_cons, ih, length_cons, List.range'_succ]

theorem seq_of_mem_rows {e : Event} (h : e ∈ rows sessionID first drafts) : first ≤ e.seq ∧ e.seq < first + drafts.length := by
  have hs : e.seq ∈ (rows sessionID first drafts).map (·.seq) := mem_map_of_mem h
  rw [map_seq_rows] at hs
  exact mem_range'_1.1 hs

theorem rows_sorted : (rows sessionID first drafts).Pairwise (fun a b => a.seq ≤ b.seq) := by
  have hs : ((rows sessionID first drafts).map (·.seq)).Pairwise (· ≤ ·) := by
    rw [map_seq_rows]
    exact pairwise_le_range'
  exact pairwise_map.1 hs

theorem filter_rows (n : Nat) : (rows sessionID 1 drafts).filter (fun e => e.seq > n) = (rows sessionID 1 drafts).drop n := by
  have ht : ((rows sessionID 1 drafts).take n).filter (fun e => e.seq > n) = [] := by
    refine filter_eq_nil_iff.2 fun e he => ?_
    obtain ⟨i, _, rfl⟩ := mem_take_iff_getElem.1 he
    simp only [rows, getElem_mapIdx, decide_eq_true_eq]
    omega
  have hd : ((rows sessionID 1 drafts).drop n).filter (fun e => e.seq > n) = (rows sessionID 1 drafts).drop n := by
    refine filter_eq_self.2 fun e he => ?_
    obtain ⟨i, -, rfl⟩ := mem_drop_iff_getElem.1 he
    simp only [rows, getElem_mapIdx, decide_eq_true_eq]
    omega
  conv_lhs => rw [← take_append_drop n (rows sessionID 1 drafts), filter_append, ht, hd, nil_append]

theorem listEventsSince_rows (n limit : Nat) :
    listEventsSince (rows sessionID 1 drafts) n limit = ((rows sessionID 1 drafts).drop n).take limit := by
  have hs : ((rows sessionID 1 drafts).drop n).Pairwise (fun a b => a.seq ≤ b.seq) := rows_sorted.sublist (drop_sublist _ _)
  rw [listEventsSince, filter_rows, List.Pairwise.insertionSort_eq hs]

theorem getLast_seq {list : List Event} {n : Nat} (h : list.map (·.seq) = List.range' (n + 1) list.length) :
    (list.getLast?.map (·.seq)).getD n = n + list.length := by
  rw [← List.getLast?_map, h, List.getLast?_range']
  split
  · rename_i hn
    rw [hn]
    rfl
  · show n + 1 + list.length - 1 = n + list.length
    omega

end

/-! ## The log of a session -/

/-- **What the log promises**: the numbers of a session are 1 to n; its events are the committed batches one after the other;
a reader has seen a beginning of what is behind its start. -/
structure Recorded (s : State) : Prop where
  seqs : ∀ sessionID, (s.events sessionID).map (·.seq) = List.range' 1 (s.events sessionID).length
  batches : ∀ sessionID, (s.events sessionID).map (·.draft) = (s.batches sessionID).flatten
  seen : ∀ r, (s.readers r).seen <+: (s.events (s.readers r).sessionID).filter (fun e => e.seq > (s.readers r).start)
  reads : ∀ r limit s', s.step (.read r limit) = some s' → (s'.readers r).seen =
    ((s.events (s.readers r).sessionID).filter (fun e => e.seq > (s.readers r).start)).take ((s.readers r).seen.length + limit)

/-- **The invariant**: rows are numbered in order, the counter counts them, a transaction that has taken numbers has the lock,
and a reader's place is its start and what it has seen. -/
structure Numbered (s : State) : Prop where
  rows_eq : ∀ sessionID, s.events sessionID = rows sessionID 1 (s.batches sessionID).flatten
  counter : ∀ sessionID, (s.next sessionID).getD 0 = (s.events sessionID).length
  writer : ∀ t sessionID drafts last inserted, s.txs t = .allocated sessionID drafts last inserted →
    s.lock sessionID = some t ∧ last = (s.events sessionID).length + drafts.length
  reader : ∀ r, (s.readers r).cursor = (s.readers r).start + (s.readers r).seen.length ∧
    (s.readers r).seen <+: (s.events (s.readers r).sessionID).drop (s.readers r).start

section
variable {s s' : State} {t : Nat}

theorem Numbered.goes {tx : Tx} (h : Numbered s)
    (htx : ∀ sessionID drafts last inserted, tx = .allocated sessionID drafts last inserted →
      s.lock sessionID = some t ∧ last = (s.events sessionID).length + drafts.length) : Numbered (s.goes t tx) where
  rows_eq := h.rows_eq
  counter := h.counter
  writer u sessionID drafts last inserted (hu : update s.txs t tx u = _) := by
    rw [update_apply] at hu
    split at hu
    · rename_i hut
      exact hut ▸ htx sessionID drafts last inserted hu
    · exact h.writer u sessionID drafts last inserted hu
  reader := h.reader

theorem Numbered.ends {tx : Tx} (h : Numbered s) (htx : ∀ sessionID drafts last inserted, tx ≠ .allocated sessionID drafts last inserted) :
    Numbered (s.ends t tx) where
  rows_eq := h.rows_eq
  counter := h.counter
  writer u sessionID drafts last inserted (hu : update s.txs t tx u = _) := by
    rw [update_apply] at hu
    split at hu
    · exact absurd hu (htx sessionID drafts last inserted)
    rename_i hut
    obtain ⟨hl, hlast⟩ := h.writer u sessionID drafts last inserted hu
    refine ⟨?_, hlast⟩
    show (if s.lock sessionID = some t then none else s.lock sessionID) = some u
    rw [hl, if_neg fun hs => hut (Option.some.inj hs)]
  reader := h.reader

theorem Numbered.locks {sessionID : Text} (h : Numbered s) (hf : s.lock sessionID = none ∨ s.lock sessionID = some t) :
    Numbered { s with lock := update s.lock sessionID (some t) } where
  rows_eq := h.rows_eq
  counter := h.counter
  writer u sessionID' drafts last inserted hu := by
    obtain ⟨hl, hlast⟩ := h.writer u sessionID' drafts last inserted hu
    refine ⟨?_, hlast⟩
    show update s.lock sessionID (some t) sessionID' = some u
    rw [update_apply]
    split
    · rename_i hs
      rw [hs] at hl
      rcases hf with hf | hf
      · rw [hf] at hl
        cases hl
      · rw [← hl, hf]
    · exact hl
  reader := h.reader

theorem Numbered.commit {sessionID : Text} {drafts : List Draft} {last inserted : Nat} (h : Numbered s)
    (hnow : s.txs t = .allocated sessionID drafts last inserted) :
    Numbered { s.ends t .committed with
      next := update s.next sessionID (some last)
      events := update s.events sessionID (s.events sessionID ++ rows sessionID (firstSeq last drafts.length) drafts)
      batches := update s.batches sessionID (s.batches sessionID ++ [drafts]) } := by
  obtain ⟨hlock, hlast⟩ := h.writer t sessionID drafts last inserted hnow
  have he : Numbered (s.ends t .committed) := h.ends nofun
  have hf : firstSeq last drafts.length = 1 + (s.batches sessionID).flatten.length := by
    have hl := congrArg List.length (h.rows_eq sessionID)
    rw [rows_length] at hl
    unfold firstSeq
    omega
  refine ⟨fun sid => ?_, fun sid => ?_, fun u sid drafts' last' inserted' hu => ?_, fun r => ?_⟩
  · simp only [update_apply]
    split
    · rename_i hsid
      rw [hsid, flatten_append, flatten_singleton, rows_append, ← hf, ← h.rows_eq]
    · exact h.rows_eq sid
  · simp only [update_apply]
    split
    · rw [length_append, rows_length]
      exact hlast
    · exact h.counter sid
  · -- the lock was this transaction's, so another that has numbers has them of another session
    obtain ⟨hl', hlast'⟩ := he.writer u sid drafts' last' inserted' hu
    refine ⟨hl', ?_⟩
    simp only [update_apply]
    split
    · rename_i hsid
      have hn : (if s.lock sid = some t then none else s.lock sid) = some u := hl'
      rw [if_pos (hsid ▸ hlock)] at hn
      cases hn
    · exact hlast'
  · refine ⟨(h.reader r).1, ?_⟩
    have hs := (he.reader r).2
    simp only [update_apply]
    split
    · rename_i hsid
      rw [hsid] at hs
      refine hs.trans ?_
      rw [drop_append]
      exact prefix_append _ _
    · exact hs

theorem Numbered.listed (h : Numbered s) (r limit : Nat) :
    listEventsSince (s.events (s.readers r).sessionID) (s.readers r).cursor limit =
      ((s.events (s.readers r).sessionID).drop (s.readers r).cursor).take limit := by
  rw [h.rows_eq, listEventsSince_rows]

theorem Numbered.behind_start (h : Numbered s) (r : Nat) : (s.events (s.readers r).sessionID).drop (s.readers r).start =
    (s.readers r).seen ++ (s.events (s.readers r).sessionID).drop (s.readers r).cursor := by
  obtain ⟨hc, _, hr⟩ := h.reader r
  rw [hc, ← drop_drop, ← hr, drop_left]

theorem Numbered.read (h : Numbered s) {r limit : Nat} (hstep : s.step (.read r limit) = some s') : Numbered s' := by
  cases hstep
  refine ⟨h.rows_eq, h.counter, h.writer, fun r' => ?_⟩
  by_cases hr : r' = r
  · subst hr
    simp only [update_self]
    rw [h.listed]
    obtain ⟨hc, _⟩ := h.reader r'
    refine ⟨?_, ?_⟩
    · have hs : (((s.events (s.readers r').sessionID).drop (s.readers r').cursor).take limit).map (·.seq) =
          List.range' ((s.readers r').cursor + 1)
            (((s.events (s.readers r').sessionID).drop (s.readers r').cursor).take limit).length := by
        rw [map_take, map_drop, h.rows_eq, map_seq_rows]
        refine ext_getElem (by simp) fun i _ _ => ?_
        simp only [getElem_take, getElem_drop, getElem_range']
        omega
      rw [getLast_seq hs, length_append, ← Nat.add_assoc, ← hc]
    · rw [h.behind_start r']
      exact (prefix_append_right_inj _).2 (List.take_prefix _ _)
  · simp only [update_of_ne hr]
    exact h.reader r'

theorem Numbered.step {a : Act} (h : Numbered s) (hs : s.step a = some s') : Numbered s' := by
  cases a with simp only [State.step] at hs
  | begin =>
    split at hs
    · split at hs <;> cases hs
      exact h.goes nofun
    · cases hs
  | ensure =>
    split at hs
    · split at hs
      · cases hs
        exact h.goes nofun
      · split at hs <;> cases hs
        rename_i hfree
        exact (h.locks (.inl hfree)).goes nofun
    · cases hs
  | allocate t =>
    split at hs
    · rename_i sessionID _ _
      split at hs <;> cases hs
      rename_i hfree
      have hfree : s.lock sessionID = none ∨ s.lock sessionID = some t := by simpa using hfree
      have hlocked := h.locks hfree
      refine hlocked.goes fun _ _ _ _ htx => ?_
      cases htx
      refine ⟨update_self _ _ _, ?_⟩
      rw [h.counter]
    · cases hs
  | insert t =>
    split at hs
    · rename_i sessionID drafts last inserted hn
      split at hs
      · cases hs
      split at hs <;> cases hs
      · exact h.ends nofun
      · refine h.goes fun _ _ _ _ htx => ?_
        cases htx
        exact h.writer t sessionID drafts last inserted hn
    · cases hs
  | commit =>
    split at hs
    · rename_i hn
      split at hs <;> cases hs
      exact h.commit hn
    · cases hs
  | rollback =>
    split at hs <;> cases hs <;> exact h.ends nofun
  | read => exact h.read hs

theorem step_events {a : Act} (hs : s.step a = some s') : ((∀ t, a ≠ .commit t) ∧ s'.events = s.events) ∨
    ∃ t sessionID drafts last inserted, a = .commit t ∧ s.txs t = .allocated sessionID drafts last inserted ∧
      s'.events = update s.events sessionID
        (s.events sessionID ++ rows sessionID (firstSeq last drafts.length) drafts) := by
  cases a with
  | commit t =>
    simp only [State.step] at hs
    split at hs
    · rename_i hn
      split at hs <;> cases hs
      exact .inr ⟨t, _, _, _, _, rfl, hn, rfl⟩
    · cases hs
  | read =>
    cases hs
    exact .inl ⟨nofun, rfl⟩
  | _ =>
    refine .inl ⟨nofun, ?_⟩
    simp only [State.step] at hs
    repeat' split at hs
    all_goals first | cases hs; rfl | cases hs

theorem Initial.numbered (h : Initial s) : Numbered s where
  rows_eq sessionID := by
    rw [h.events, h.batches]
    rfl
  counter sessionID := by
    rw [h.events, h.next]
    rfl
  writer t sessionID drafts last inserted ht := by
    rw [h.txs] at ht
    cases ht
  reader r := by
    obtain ⟨hc, hs⟩ := h.readers r
    rw [hc, hs]
    exact ⟨rfl, nil_prefix⟩

theorem Numbered.recorded (h : Numbered s) : Recorded s where
  seqs sessionID := by
    rw [h.rows_eq, map_seq_rows, rows_length]
  batches sessionID := by
    rw [h.rows_eq, map_draft_rows]
  seen r := by
    have hs := (h.reader r).2
    rw [h.rows_eq] at hs ⊢
    rw [filter_rows]
    exact hs
  reads r limit s' hstep := by
    cases hstep
    simp only [update_self]
    have hb := h.behind_start r
    rw [h.listed]
    rw [h.rows_eq] at hb ⊢
    rw [filter_rows, hb, take_length_add_append]

end

def empty : State :=
  ⟨fun _ => none, fun _ => [], fun _ => [], fun _ => none, fun _ => .idle, fun _ => ⟨"s".toList, 0, 0, []⟩⟩

theorem empty_initial : Initial empty := ⟨fun _ => rfl, fun _ => rfl, fun _ => rfl, fun _ => rfl, fun _ => ⟨rfl, rfl⟩⟩

/-- **The log of every session is recorded**, after every run of writers and readers. -/
theorem log_recorded {s s' : State} {as : List Act} (hinit : Initial s) (hrun : Machine.exec State.step s as = some s') :
    Recorded s' :=
  (Machine.always (fun _ _ _ hI hs => Numbered.step hI hs) hinit.numbered hrun).recorded

def twoWriters : List Act :=
  [.begin 0 "s".toList [⟨"a".toList, []⟩, ⟨"b".toList, []⟩], .ensure 0, .begin 1 "s".toList [⟨"c".toList, []⟩], .allocate 0,
    .insert 0, .insert 0, .commit 0, .ensure 1, .allocate 1, .begin 2 "s".toList [⟨"d".toList, []⟩], .ensure 2, .read 0 1,
    .rollback 1, .allocate 2, .insert 2, .commit 2, .read 0 10]

theorem log_recorded_twoWriters : ∃ s, Machine.exec State.step empty twoWriters = some s ∧ Recorded s ∧
    (s.readers 0).seen.map (·.seq) = [1, 2, 3] := by
  have hr : Machine.exec State.step empty twoWriters = some _ := rfl
  refine ⟨_, hr, log_recorded empty_initial hr, ?_⟩
  decide

end Jamsesh.Events
