import Mathlib.Data.List.Nodup
import Jamsesh.Destruction
/-!
# SweepRace — the sweep against the pushes that reset the idle timer (`playground/worker.go`, `githttp/receive_pack.go`)

A sweep lists the expired sessions once; the delete of a row does not look at the timer again.  Where no push resets the timer
of a session between its listing and the delete, a session that goes for idleness is idle when it goes
(`deleted_only_idle`).  A sweep that no push comes into is that of `Destruction` (`sweep_alone`).
-/
namespace Jamsesh.Playground

open List Machine
open PlaygroundJoin (Answer)

/-! ## States -/

/-- A push behind its reset of the timer, with its acknowledgement to come. -/
structure Push where
  sessionID : String
  fresh : Bool
deriving DecidableEq

structure Deletion where
  row : Session
  reason : String
  time : Int
  /-- the pushes since the listing that have reset the timer and were acknowledged, by their sessions -/
  acked : List String
deriving DecidableEq

structure Race where
  world : World
  clock : Int
  idleTimeout : Int
  queue : List (Session × String)
  current : Option (Frame × List Stmt)
  pushes : List Push
  acked : List String
  deletions : List Deletion
deriving DecidableEq

/-! ## Steps -/

inductive RaceAct where
  | wait (d : Nat)
  | list (answered : Bool)
  | go (answer : Answer) (held : Bool)
  | reset (sessionID : String) (answer : Answer)
  | ack (i : Nat)
deriving DecidableEq

def World.resetIdleTimer (w : World) (sessionID : String) (idleTimeoutAt : Int) : World :=
  { w with sessions := w.sessions.map fun s => if s.id = sessionID then { s with idleTimeoutAt := some idleTimeoutAt } else s }

/-- `ListExpiredPlaygroundSessions` at the head of a sweep. -/
def Race.listed (s : Race) : Race where
  world := s.world
  clock := s.clock
  idleTimeout := s.idleTimeout
  queue := (s.world.sessions.filter (·.expired s.clock)).map fun sess => (sess, reasonFor sess s.clock)
  current := none
  pushes := s.pushes.map fun p => { p with fresh := false }
  acked := []
  deletions := s.deletions

def Race.deleted (s : Race) (f : Frame) (answer : Answer) (stmt : Stmt) : List Deletion :=
  if stmt = .deleteSession ∧ answer ≠ .failed then
    (s.world.sessions.filter (fun r => r.id = f.sess.id)).map fun r => ⟨r, f.reason, s.clock, s.acked⟩
  else []

def Race.exec (s : Race) (f : Frame) (answer : Answer) (held : Bool) (stmt : Stmt) (stmts : List Stmt) : Race where
  world := (s.world.exec f ⟨answer, held, s.clock⟩ stmt).1
  clock := s.clock
  idleTimeout := s.idleTimeout
  queue := s.queue
  current := (s.world.exec f ⟨answer, held, s.clock⟩ stmt).2.map fun f' => (f', stmts)
  pushes := s.pushes
  acked := s.acked
  deletions := s.deletions ++ s.deleted f answer stmt

def Race.reset (s : Race) (sessionID : String) (answer : Answer) : Race :=
  if answer = .failed then { s with pushes := s.pushes ++ [⟨sessionID, false⟩] }
  else { s with
    world := s.world.resetIdleTimer sessionID (s.clock + s.idleTimeout),
    pushes := s.pushes ++ [⟨sessionID, s.world.sessions.any (fun r => r.id = sessionID)⟩] }

def Race.step (s : Race) : RaceAct → Option Race
  | .wait d => some { s with clock := s.clock + d }
  | .list answered => if s.queue = [] ∧ s.current = none then some (if answered then s.listed else s) else none
  | .go answer held =>
    match s.current with
    | some (f, stmt :: stmts) => some (s.exec f answer held stmt stmts)
    | some (_, []) => some { s with current := none }
    | none =>
      match s.queue with
      | [] => none
      | (sess, reason) :: queue => some { s with queue := queue, current := some (.start sess reason, destroyStmts) }
  | .reset sessionID answer => if 0 < s.idleTimeout then some (s.reset sessionID answer) else none
  | .ack i => do
    let p ← s.pushes[i]?
    return { s with pushes := s.pushes.eraseIdx i, acked := if p.fresh then s.acked ++ [p.sessionID] else s.acked }

/-! ## A sweep on its own -/

structure SameBut (s s' : Race) : Prop where
  clock : s'.clock = s.clock
  queue : s'.queue = s.queue
  current : s'.current = none

theorem exec_run (turn : Stmt → Turn) (stmts : List Stmt) (s : Race) (f : Frame) (hc : s.current = some (f, stmts))
    (hclock : ∀ stmt, (turn stmt).now = s.clock) :
    ∃ as s', exec Race.step s as = some s' ∧ s'.world = s.world.run turn f stmts ∧ SameBut s s' := by
  induction stmts generalizing s f with
  | nil =>
    have hs : s.step (.go .ok false) = some { s with current := none } := by simp only [Race.step, hc]
    exact ⟨[.go .ok false], _, exec_cons.2 ⟨_, hs, rfl⟩, rfl, rfl, rfl, rfl⟩
  | cons stmt stmts ih =>
    obtain ⟨answer, held, hturn⟩ : ∃ answer held, turn stmt = ⟨answer, held, s.clock⟩ := ⟨_, _, by rw [← hclock stmt]⟩
    have hs : s.step (.go answer held) = some (s.exec f answer held stmt stmts) := by simp only [Race.step, hc]
    cases hf : (s.world.exec f ⟨answer, held, s.clock⟩ stmt).2 with
    | none =>
      refine ⟨[.go answer held], _, exec_cons.2 ⟨_, hs, rfl⟩, ?_, rfl, rfl, ?_⟩
      · simp only [Race.exec, World.run, hturn, hf]
      · simp only [Race.exec, hf, Option.map_none]
    | some f' =>
      obtain ⟨as, s', hr, hw, hsame⟩ := ih (s.exec f answer held stmt stmts) f'
        (by simp only [Race.exec, hf, Option.map_some]) hclock
      refine ⟨_, s', exec_cons.2 ⟨_, hs, hr⟩, ?_, hsame.clock, hsame.queue, hsame.current⟩
      rw [hw]
      simp only [Race.exec, World.run, hturn, hf]

theorem exec_destroyAll (t : Tick) (l : List Session) (s : Race)
    (hq : s.queue = l.map fun sess => (sess, reasonFor sess t.now)) (hc : s.current = none)
    (hclock : ∀ id stmt, (t.turn id stmt).now = s.clock) :
    ∃ as s', exec Race.step s as = some s' ∧ s'.world = s.world.destroyAll t l ∧ s'.queue = [] ∧ s'.current = none := by
  induction l generalizing s with
  | nil => exact ⟨[], s, rfl, rfl, hq, hc⟩
  | cons sess l ih =>
    let s₀ : Race := { s with
      queue := l.map fun sess => (sess, reasonFor sess t.now),
      current := some (.start sess (reasonFor sess t.now), destroyStmts) }
    have hstep : s.step (.go .ok false) = some s₀ := by simp only [Race.step, hc, hq]; rfl
    obtain ⟨as, s₁, hr, hw, hs⟩ := exec_run (t.turn sess.id) destroyStmts s₀ _ rfl (hclock sess.id)
    obtain ⟨as', s', hr', hw', hd⟩ := ih s₁ hs.queue hs.current
      (fun id stmt => by rw [hs.clock]; exact hclock id stmt)
    refine ⟨.go .ok false :: (as ++ as'), s', exec_cons.2 ⟨_, hstep, ?_⟩, ?_, hd⟩
    · rw [exec_append, hr]
      exact hr'
    · rw [hw', hw]
      rfl

theorem sweep_alone (s : Race) (t : Tick) (hq : s.queue = []) (hc : s.current = none) (hn : t.now = s.clock)
    (hclock : ∀ id stmt, (t.turn id stmt).now = s.clock) :
    ∃ as s', exec Race.step s (.list t.listed :: as) = some s' ∧ s'.world = s.world.sweep t ∧ s'.queue = [] ∧
      s'.current = none := by
  have hs : s.step (.list t.listed) = some (if t.listed then s.listed else s) := if_pos ⟨hq, hc⟩
  cases hl : t.listed with
  | false =>
    refine ⟨[], s, ?_, by simp [World.sweep, hl], hq, hc⟩
    rw [← hl, exec, hs, hl]
    rfl
  | true =>
    obtain ⟨as, s', hr, hw, hd⟩ := exec_destroyAll t (s.world.sessions.filter (·.expired t.now)) s.listed
      (by rw [Race.listed, hn]) rfl hclock
    refine ⟨as, s', exec_cons.2 ⟨s.listed, ?_, hr⟩, ?_, hd⟩
    · rw [← hl, hs, if_pos hl]
    · rw [hw, World.sweep, if_pos hl]
      rfl

/-! ## Idle when it goes -/

/-- The sessions listed as idle whose rows the sweep has not come to delete yet, as they were listed. -/
def Race.idle (s : Race) : List Session :=
  (s.queue.filter (fun x => x.2 = "idle")).map (·.1) ++
    match s.current with
    | some (f, stmts) => if f.reason = "idle" ∧ .deleteSession ∈ stmts then [f.sess] else []
    | none => []

/-- **The condition on a step**: no push resets the timer of a session that stands listed as idle. -/
def Undisturbed (s : Race) : RaceAct → Prop
  | .reset sessionID answer => answer = .failed ∨ ∀ x ∈ s.idle, x.id ≠ sessionID
  | _ => True

instance (s : Race) (a : RaceAct) : Decidable (Undisturbed s a) :=
  match a with
  | .reset _ _ => inferInstanceAs (Decidable (_ ∨ _))
  | .wait _ | .list _ | .go _ _ | .ack _ => inferInstanceAs (Decidable True)

/-- **A row deleted for idleness** is past its timer, and nobody has had a push acknowledged since it was listed. -/
def Deletion.Idle (d : Deletion) : Prop :=
  d.reason = "idle" → (∃ time, d.row.idleTimeoutAt = some time ∧ time ≤ d.time) ∧ d.row.id ∉ d.acked

structure StillIdle (s : Race) (x : Session) : Prop where
  timer : ∀ row ∈ s.world.sessions, row.id = x.id → row.idleTimeoutAt = x.idleTimeoutAt
  due : ∃ time, x.idleTimeoutAt = some time ∧ time ≤ s.clock
  unacked : x.id ∉ s.acked
  unpushed : ∀ p ∈ s.pushes, p.fresh = true → p.sessionID ≠ x.id

structure Fair (s : Race) : Prop where
  keys : (s.world.sessions.map (·.id)).Nodup
  idle : ∀ x ∈ s.idle, StillIdle s x
  deletions : ∀ d ∈ s.deletions, d.Idle

/-- A session table with its key, nothing on the way and nothing deleted yet. -/
structure RaceInitial (s : Race) : Prop where
  keys : (s.world.sessions.map (·.id)).Nodup
  queue : s.queue = []
  current : s.current = none
  deletions : s.deletions = []

theorem RaceInitial.fair {s : Race} (h : RaceInitial s) : Fair s := by
  refine ⟨h.keys, fun x hx => ?_, fun d hd => ?_⟩
  · simp [Race.idle, h.queue, h.current] at hx
  · rw [h.deletions] at hd
    cases hd

section
variable {s s' : Race}

theorem StillIdle.of_fewer {x : Session} (h : StillIdle s x) (hf : s'.world.sessions ⊆ s.world.sessions)
    (hc : s.clock ≤ s'.clock) (ha : s'.acked = s.acked) (hp : s'.pushes = s.pushes) : StillIdle s' x := by
  obtain ⟨time, ht, hd⟩ := h.due
  refine ⟨fun row hr => h.timer row (hf hr), ⟨time, ht, Int.le_trans hd hc⟩, ?_, ?_⟩
  · rw [ha]
    exact h.unacked
  · rw [hp]
    exact h.unpushed

theorem Fair.of_fewer (h : Fair s) (hf : s'.world.sessions.Sublist s.world.sessions) (hc : s.clock ≤ s'.clock)
    (ha : s'.acked = s.acked) (hp : s'.pushes = s.pushes) (hi : ∀ x ∈ s'.idle, x ∈ s.idle)
    (hd : ∀ d ∈ s'.deletions, d.Idle) : Fair s' :=
  ⟨h.keys.sublist (hf.map _), fun x hx => (h.idle x (hi x hx)).of_fewer hf.subset hc ha hp, hd⟩

theorem Fair.listed (h : Fair s) : Fair s.listed := by
  refine ⟨h.keys, fun x hx => ?_, h.deletions⟩
  have hx : x ∈ s.world.sessions ∧ x.expired s.clock = true ∧ reasonFor x s.clock = "idle" := by
    simpa [Race.idle, Race.listed, and_assoc] using hx
  obtain ⟨hm, -, hr⟩ := hx
  have hd : x.idleTimeoutAt.any (· ≤ s.clock) = true := by
    unfold reasonFor at hr
    split at hr
    · exact absurd hr (by decide)
    · split at hr
      · assumption
      · exact absurd hr (by decide)
  refine ⟨fun _ hrow hid => ?_, ?_, not_mem_nil, fun p hp hf => ?_⟩
  · rw [inj_on_of_nodup_map h.keys hrow hm hid]
  · obtain ⟨time, ht, hle⟩ := (Option.any_eq_true _ _).1 hd
    exact ⟨time, ht, of_decide_eq_true hle⟩
  · obtain ⟨q, -, rfl⟩ := mem_map.1 hp
    cases hf

theorem Fair.exec (h : Fair s) {f : Frame} {stmt : Stmt} {stmts : List Stmt} (hc : s.current = some (f, stmt :: stmts))
    (answer : Answer) (held : Bool) : Fair (s.exec f answer held stmt stmts) := by
  have hfewer := exec_fewer s.world f ⟨answer, held, s.clock⟩ stmt
  refine h.of_fewer hfewer.sessions (Int.le_refl _) rfl rfl (fun x hx => ?_) fun d hd => ?_
  · simp only [Race.idle, Race.exec, mem_append] at hx ⊢
    rcases hx with hx | hx
    · exact .inl hx
    right
    rw [hc]
    cases hn : (s.world.exec f ⟨answer, held, s.clock⟩ stmt).2 with
    | none =>
      rw [hn] at hx
      cases hx
    | some =>
      obtain ⟨hs, hreason⟩ := exec_frame hn
      simp only [hn, Option.map_some, hs, hreason] at hx
      split at hx
      · rename_i hi
        dsimp only
        rw [if_pos ⟨hi.1, mem_cons_of_mem _ hi.2⟩]
        exact hx
      · cases hx
  · rcases mem_append.1 hd with hd | hd
    · exact h.deletions d hd
    unfold Race.deleted at hd
    split at hd
    · rename_i hdelete
      obtain ⟨r, hr, rfl⟩ := mem_map.1 hd
      obtain ⟨hr, hid⟩ := mem_filter.1 hr
      have hid : r.id = f.sess.id := of_decide_eq_true hid
      intro hreason
      -- the session of the run stands listed as idle up to this statement
      have hlisted : f.sess ∈ s.idle := by
        simp only [Race.idle, hc, mem_append]
        right
        rw [if_pos ⟨hreason, by rw [hdelete.1]; exact mem_cons_self⟩]
        exact mem_singleton_self _
      have hstill := h.idle f.sess hlisted
      refine ⟨?_, ?_⟩
      · rw [hstill.timer r hr hid]
        exact hstill.due
      · rw [hid]
        exact hstill.unacked
    · cases hd

theorem Fair.reset (h : Fair s) {sessionID : String} {answer : Answer} (hok : Undisturbed s (.reset sessionID answer)) :
    Fair (s.reset sessionID answer) := by
  unfold Race.reset
  split
  · refine ⟨h.keys, fun x hx => ?_, h.deletions⟩
    have hs := h.idle x hx
    refine ⟨hs.timer, hs.due, hs.unacked, fun p hp hf => ?_⟩
    rcases mem_append.1 hp with hp | hp
    · exact hs.unpushed p hp hf
    · cases mem_singleton.1 hp
      cases hf
  · rename_i ha
    have ho : ∀ x ∈ s.idle, x.id ≠ sessionID := hok.resolve_left ha
    refine ⟨?_, fun x hx => ?_, h.deletions⟩
    · have hi : (s.world.resetIdleTimer sessionID (s.clock + s.idleTimeout)).sessions.map (·.id) =
          s.world.sessions.map (·.id) := by
        rw [World.resetIdleTimer, map_map]
        refine map_congr_left fun r _ => ?_
        dsimp only [Function.comp_apply]
        split <;> rfl
      rw [hi]
      exact h.keys
    · have hs := h.idle x hx
      refine ⟨fun _ hrow hid => ?_, hs.due, hs.unacked, fun p hp hf => ?_⟩
      · obtain ⟨r, hr, rfl⟩ := mem_map.1 hrow
        split at hid
        · rename_i heq
          exact absurd (hid.symm.trans heq) (ho x hx)
        · rename_i hne
          rw [if_neg hne]
          exact hs.timer r hr hid
      · rcases mem_append.1 hp with hp | hp
        · exact hs.unpushed p hp hf
        · cases mem_singleton.1 hp
          exact (ho x hx).symm

theorem Fair.ack (h : Fair s) {i : Nat} {p : Push} (hp : s.pushes[i]? = some p) :
    Fair { s with pushes := s.pushes.eraseIdx i, acked := if p.fresh then s.acked ++ [p.sessionID] else s.acked } := by
  refine ⟨h.keys, fun x hx => ?_, h.deletions⟩
  have hs := h.idle x hx
  refine ⟨hs.timer, hs.due, ?_, fun q hq => hs.unpushed q (mem_of_mem_eraseIdx hq)⟩
  dsimp only
  split
  · rename_i hf
    intro hm
    rcases mem_append.1 hm with hm | hm
    · exact hs.unacked hm
    · exact hs.unpushed p (mem_of_getElem? hp) hf (mem_singleton.1 hm).symm
  · exact hs.unacked

theorem Fair.step (h : Fair s) {a : RaceAct} (hok : Undisturbed s a) (hs : s.step a = some s') : Fair s' := by
  cases a with simp only [Race.step] at hs
  | wait =>
    cases hs
    exact h.of_fewer (.refl _) (by dsimp only; omega) rfl rfl (fun _ hx => hx) h.deletions
  | list =>
    split at hs <;> cases hs
    split
    · exact h.listed
    · exact h
  | go answer held =>
    split at hs
    · rename_i hc
      cases hs
      exact h.exec hc answer held
    · rename_i hc
      cases hs
      refine h.of_fewer (.refl _) (Int.le_refl _) rfl rfl (fun x hx => ?_) h.deletions
      simpa [Race.idle, hc] using hx
    · rename_i hc
      split at hs <;> cases hs
      rename_i reason _ hq
      refine h.of_fewer (.refl _) (Int.le_refl _) rfl rfl (fun x hx => ?_) h.deletions
      by_cases hr : reason = "idle"
      · simp only [Race.idle, Frame.start, hr, mem_append] at hx
        simp only [Race.idle, hq, hc, hr, append_nil, filter_cons, decide_true, if_true, map_cons, mem_cons]
        rcases hx with hx | hx
        · exact .inr hx
        · rw [if_pos (by decide)] at hx
          exact .inl (mem_singleton.1 hx)
      · simpa [Race.idle, Frame.start, hq, hc, hr] using hx
  | reset =>
    split at hs <;> cases hs
    exact h.reset hok
  | ack =>
    obtain ⟨p, hp, hs⟩ := Option.bind_eq_some_iff.1 hs
    cases hs
    exact h.ack hp

end

/-- **In every interleaving of sweeps and undisturbing pushes**, a row that goes for idleness is past its timer, with no push
acknowledged since the listing. -/
theorem deleted_only_idle {s s' : Race} {as : List RaceAct} (hinit : RaceInitial s)
    (hok : Along Race.step Undisturbed s as) (hrun : exec Race.step s as = some s') :
    ∀ d ∈ s'.deletions, d.reason = "idle" →
      (∃ time, d.row.idleTimeoutAt = some time ∧ time ≤ d.time) ∧ d.row.id ∉ d.acked :=
  (invariant (fun _ _ _ h hok hs => Fair.step h hok hs) hinit.fair hok hrun).deletions

def idleRace : Race where
  world := ⟨[⟨"demo", "active", 0, some 1000, some 90⟩], [], [], [], [], [], ["demo"], []⟩
  clock := 100
  idleTimeout := 30
  queue := []
  current := none
  pushes := []
  acked := []
  deletions := []

theorem idleRace_initial : RaceInitial idleRace := ⟨by decide, rfl, rfl, rfl⟩

def toDelete : List RaceAct := List.replicate 9 (.go .ok false)

/-- The push resets the timer before the listing and is acknowledged after it. -/
def pushedBefore : List RaceAct := [.reset "demo" .ok, .wait 31, .list true, .ack 0] ++ toDelete

theorem deleted_only_idle_pushedBefore :
    ∃ s', exec Race.step idleRace pushedBefore = some s' ∧
      (∃ d ∈ s'.deletions, d.reason = "idle") ∧ ∀ d ∈ s'.deletions, d.reason = "idle" →
        (∃ time, d.row.idleTimeoutAt = some time ∧ time ≤ d.time) ∧ d.row.id ∉ d.acked := by
  have hok : Along Race.step Undisturbed idleRace pushedBefore := by decide
  exact ⟨_, rfl, by decide, deleted_only_idle idleRace_initial hok rfl⟩

/-- **A push between the listing and the delete** is acknowledged, and the row goes with its timer in the future. -/
theorem acknowledged_push_deleted :
    RaceInitial idleRace ∧ ∃ s', exec Race.step idleRace (.list true :: .reset "demo" .ok :: .ack 0 :: toDelete) = some s' ∧
      s'.deletions = [⟨⟨"demo", "active", 0, some 1000, some 130⟩, "idle", 100, ["demo"]⟩] :=
  ⟨idleRace_initial, _, rfl, by decide⟩

end Jamsesh.Playground
