import Jamsesh.SessionFlow
/-!
# SessionRuns — what holds while the handlers of sessions and locks interleave

`Move` says what a statement can do.  The status is written unconditionally, so an ended session stays ended only if no call
that has read it as live has its write to come when it ends.  The locks are guarded in the statements, so at most one is
active, and a lock in use is ended only by an override.
-/
namespace Jamsesh.Portal

/-! ## Runs -/

structure FlowState where
  db : Db
  calls : List Phase
  endWrites : List String

inductive FlowAct where
  | start (op : SessionOp)
  | go (i : Nat)

def Phase.endWrite : Phase → List String
  | abandonReason r => if r.ctx.down .setEndReason = none then [r.sessionID] else []
  | shipReason r _ => if r.ctx.down .setEndReason = none then [r.sessionID] else []
  | _ => []

def FlowState.step (env : Env) (unmarshal : String → Option (List String)) (s : FlowState) : FlowAct → Option FlowState
  | .start op => some { s with calls := s.calls ++ [.start op] }
  | .go i => do
    let p ← s.calls[i]?
    let (db, p') ← p.next env unmarshal s.db
    return ⟨db, s.calls.set i p', s.endWrites ++ p.endWrite⟩

/-! ## What a call has before it -/

def Phase.pending : Phase → Option String
  | finalizeWrite r => some r.sessionID
  | abandonEnd r => some r.sessionID
  | shipEnd r _ => some r.sessionID
  | acquireLock r _ session => if session.status = "active" then some r.sessionID else none
  | acquireTx r _ session _ => if session.status = "active" then some r.sessionID else none
  | _ => none

def Phase.ending : Phase → Option String
  | abandonEnd r => some r.sessionID
  | shipEnd r _ => some r.sessionID
  | _ => none

def Phase.unreasoned : Phase → Option String
  | abandonReason r => some r.sessionID
  | shipReason r _ => some r.sessionID
  | _ => none

def Phase.acquiring : Phase → Option AcquireFinalizeLock
  | start (.acquire r) => some r
  | acquireRead r _ => some r
  | acquireLock r _ _ => some r
  | acquireTx r _ _ _ => some r
  | _ => none

/-- **What a call has read is still so**: the session is there, and so is the row of the lock in the way, which was idle or is
overridden. -/
def Phase.Sound (db : Db) : Phase → Prop
  | abandonEnd r => ∃ s, getSession db r.orgID r.sessionID = .ok s
  | shipEnd r _ => ∃ s, getSession db r.orgID r.sessionID = .ok s
  | acquireLock r _ _ => ∃ s, getSession db r.orgID r.sessionID = .ok s
  | acquireTx r _ _ existing => (∃ s, getSession db r.orgID r.sessionID = .ok s) ∧ InTheWay db r.sessionID existing ∧
      ∀ lock, existing = some lock → isLockExpired lock.lastActivityAt r.ctx.now = true ∨ r.override = true
  | _ => True

structure Phase.Quiet (p : Phase) : Prop where
  pending : p.pending = none
  unreasoned : p.unreasoned = none
  sound : ∀ db, p.Sound db

theorem Phase.quiet_done (reply : Reply) : (Phase.done reply).Quiet := ⟨rfl, rfl, fun _ => trivial⟩

def Live (db : Db) (sessionID : String) : Prop := ∃ s, db.sessions.lookup sessionID = some s ∧ s.status ≠ "ended"

def Ended (db : Db) (sessionID : String) : Prop := ∃ s, db.sessions.lookup sessionID = some s ∧ s.status = "ended"

/-- **What a statement can do**, with the end reason that it writes. -/
inductive Move (db : Db) : Phase → Db → Phase → List String → Prop where
  | reads {p p' : Phase} : (∀ sessionID, p'.pending = some sessionID → p.pending = some sessionID ∨ Live db sessionID) →
      p'.unreasoned = none → (p.Sound db → p'.Sound db) → Move db p db p' []
  | columns {p p' : Phase} {orgID sessionID : String} {g : Session → Session} :
      (∀ s, (g s).orgID = s.orgID ∧ (g s).status = s.status) → p.acquiring = none → p'.Quiet →
        Move db p (updateSession db orgID sessionID g) p' []
  | lock {p p' : Phase} {id : String} {f : FinalizeLock → FinalizeLock} : (∀ l, LockKept l (f l)) → p.acquiring = none →
      p'.Quiet → Move db p (updateLock db id f) p' []
  | finalizing {r : SessionRequest} {p' : Phase} : p'.Quiet → Move db (.finalizeWrite r)
      (updateSession db r.orgID r.sessionID (fun s => { s with status := "finalizing" })) p' []
  | ending {p p' : Phase} {orgID sessionID : String} : p.ending = some sessionID → p.pending = some sessionID →
      p.acquiring = none → (p.Sound db → ∃ s, getSession db orgID sessionID = .ok s) → p'.pending = none →
        p'.unreasoned = some sessionID → (∀ db, p'.Sound db) → Move db p (endSession db orgID sessionID) p' []
  | reason {p p' : Phase} {orgID sessionID reason : String} {now : Int} : p.unreasoned = some sessionID →
      p.acquiring = none → p'.Quiet → Move db p (setEndReason db orgID sessionID reason now) p' [sessionID]
  | acquired {r : AcquireFinalizeLock} {accountID : String} {session : Session} {existing : Option FinalizeLock} {db₁ : Db} :
      Acquired r accountID db existing db₁ →
        Move db (.acquireTx r accountID session existing) (lockSession db₁ r accountID session)
          (.done (.locked r.lockID)) []

variable {orgID sessionID accountID : String} {go : Phase} {session : Session} {r : AcquireFinalizeLock}
  {existing : Option FinalizeLock}

section
variable {db : Db} {p : Phase}

theorem Move.quiet {p' : Phase} (h : p'.Quiet) : Move db p db p' [] :=
  .reads (fun _ hp => by rw [h.pending] at hp; cases hp) h.unreasoned (fun _ => h.sound db)

theorem Move.stop (reply : Reply) : Move db p db (.done reply) [] := .quiet (Phase.quiet_done reply)

theorem readSession_move {ctx : Ctx} {error : String} {go : Session → Phase}
    (h : ∀ session, getSession db orgID sessionID = .ok session → Move db p db (go session) []) :
    Move db p (readSession db ctx orgID sessionID error go).1 (readSession db ctx orgID sessionID error go).2 [] := by
  unfold readSession
  split
  · exact .stop _
  · exact .stop _
  · rename_i session hg
    exact h session (call_ok.1 hg).2

theorem write_move {down : StoreCall → Option String} {site : StoreCall} {answer : Store Db} {error : String}
    (h : ∀ db', answer = .ok db' → Move db p db' go []) :
    Move db p (write down site db answer error go).1 (write down site db answer error go).2 [] := by
  unfold write
  split
  · exact .stop _
  · rename_i db' hc
    exact h db' (call_ok.1 hc).2

theorem writeAnyway_move {down : StoreCall → Option String} {site : StoreCall} {db' : Db} {failed : Phase}
    (hf : failed.Quiet) (h : Move db p db' go []) :
    Move db p (writeAnyway down site db db' failed go).1 (writeAnyway down site db db' failed go).2 [] := by
  unfold writeAnyway
  split
  · exact .quiet hf
  · rename_i hc
    cases (call_ok.1 hc).2
    exact h

theorem reason_move {ctx : Ctx} {reason error : String} {now : Int}
    (hp : p.unreasoned = some sessionID) (ha : p.acquiring = none) (hgo : go.Quiet)
    (hw : p.endWrite = if ctx.down .setEndReason = none then [sessionID] else []) :
    Move db p (write ctx.down .setEndReason db (.ok (setEndReason db orgID sessionID reason now)) error go).1
      (write ctx.down .setEndReason db (.ok (setEndReason db orgID sessionID reason now)) error go).2 p.endWrite := by
  rw [hw]
  unfold write call
  cases ctx.down .setEndReason with
  | none => exact .reason hp ha hgo
  | some => exact .stop _

theorem live_of_get (h : getSession db orgID sessionID = .ok session)
    (hs : session.status ≠ "ended") : Live db sessionID := ⟨session, (getSession_ok.1 h).1, hs⟩

theorem LockKept.released (now : Int) (l : FinalizeLock) :
    LockKept l (if l.releasedAt.isNone then { l with releasedAt := some now } else l) := .ite (fun _ => .release l now)

theorem checkFinalizing_none (h : checkFinalizing session = none) : session.status = "finalizing" := by
  unfold checkFinalizing at h
  split at h
  · split at h <;> cases h
  split at h
  · cases h
  · split at h
    · assumption
    · cases h

theorem enter_quiet (db : Db) (op : SessionOp) : (op.enter db).Quiet := by
  cases op with
  | finalizeSession | abandonSession | patchSession | acquire | release | markShipped =>
    simp only [SessionOp.enter]
    split <;> exact ⟨rfl, rfl, fun _ => trivial⟩
  | patchLock =>
    simp only [SessionOp.enter]
    split
    · exact ⟨rfl, rfl, fun _ => trivial⟩
    · split <;> exact ⟨rfl, rfl, fun _ => trivial⟩

theorem acquireLock_move (existing : Option FinalizeLock)
    (he : ∀ lock, existing = some lock → getActiveFinalizeLock db r.sessionID = .ok lock ∧
      (isLockExpired lock.lastActivityAt r.ctx.now = true ∨ r.override = true)) :
    Move db (.acquireLock r accountID session) db (.acquireTx r accountID session existing) [] := by
  refine .reads (fun _ h => .inl h) rfl (fun hs => ⟨hs, fun lock hl => ?_, fun lock hl => ?_⟩)
  · obtain ⟨hm, hsame, -⟩ := getActiveFinalizeLock_ok (he lock hl).1
    exact ⟨lock, hm, rfl, hsame⟩
  · exact (he lock hl).2

theorem acquireAs_move {env : Env} : Move db (.acquireTx r accountID session existing)
      (acquireAs env db r accountID session existing).1 (.done (acquireAs env db r accountID session existing).2) [] := by
  unfold acquireAs
  cases htx : withTx env r.ctx .other db (acquireTx r accountID session existing) with
  | error e => cases e <;> exact .stop _
  | ok out =>
    obtain ⟨_, _⟩ := out
    obtain ⟨-, -, _, hb, -⟩ := withTx_ok.1 htx
    obtain ⟨_, ha, rfl⟩ := acquireTx_ok hb
    exact .acquired ha

theorem next_move {env : Env} {unmarshal : String → Option (List String)} {out : Db × Phase}
    (h : p.next env unmarshal db = some out) : Move db p out.1 out.2 p.endWrite := by
  cases p with cases h
  | start op =>
    exact .quiet (enter_quiet db op)
  | finalizeRead =>
    refine readSession_move (fun _ hg => ?_)
    split
    · exact .stop _
    split
    · exact .stop _
    rename_i he
    refine .reads (fun _ hp => ?_) rfl (fun _ => trivial)
    cases hp
    exact .inr (live_of_get hg (fun hs => he (.inl hs)))
  | finalizeWrite =>
    refine write_move (fun _ ha => ?_)
    cases ha
    exact .finalizing (Phase.quiet_done _)
  | abandonRead =>
    refine readSession_move (fun session hg => ?_)
    split
    · exact .stop _
    rename_i he
    refine .reads (fun _ hp => ?_) rfl (fun _ => ⟨session, hg⟩)
    cases hp
    exact .inr (live_of_get hg (fun hs => he (.inl hs)))
  | abandonEnd | shipEnd =>
    refine write_move (fun _ ha => ?_)
    cases ha
    exact .ending rfl rfl rfl (fun hsound => hsound) rfl rfl (fun _ => trivial)
  | abandonReason =>
    exact reason_move rfl rfl (Phase.quiet_done _) rfl
  | patchRead =>
    refine readSession_move (fun _ _ => ?_)
    split
    · exact .stop _
    · exact .quiet ⟨rfl, rfl, fun _ => trivial⟩
  | patchWrite =>
    refine write_move (fun _ ha => ?_)
    unfold updateGoalScopeMode at ha
    split at ha <;> cases ha
    exact .columns (fun _ => ⟨rfl, rfl⟩) rfl ⟨rfl, rfl, fun _ => trivial⟩
  | acquireRead =>
    refine readSession_move (fun session hg => .reads (fun _ hp => ?_) rfl (fun _ => ⟨session, hg⟩))
    simp only [Phase.pending] at hp
    split at hp <;> cases hp
    rename_i hactive
    exact .inr (live_of_get hg (by rw [hactive]; decide))
  | acquireLock r =>
    split
    · exact acquireLock_move none (fun _ hl => by cases hl)
    · exact .stop _
    rename_i lock hl
    split
    · exact .stop _
    split
    · exact .stop _
    rename_i hf
    refine acquireLock_move (some lock) (fun _ hl' => ?_)
    cases hl'
    refine ⟨(call_ok.1 hl).2, ?_⟩
    cases hexpired : isLockExpired lock.lastActivityAt r.ctx.now with
    | true => exact .inl rfl
    | false =>
      rw [hexpired] at hf
      exact .inr (by simpa using hf)
  | acquireTx =>
    exact acquireAs_move
  | patchRefetch | lockRead | lockRefetch | releaseRead | releaseSession | shipLock =>
    -- these only read
    refine .quiet ?_
    repeat' split
    all_goals exact ⟨rfl, rfl, fun _ => trivial⟩
  | lockExpire r =>
    exact writeAnyway_move (Phase.quiet_done _) (.lock (LockKept.released r.ctx.now) rfl (Phase.quiet_done _))
  | lockCurate =>
    refine write_move (fun _ ha => ?_)
    cases ha
    exact .lock (fun l => ⟨rfl, rfl, rfl, rfl, fun h => h, fun h => h⟩) rfl ⟨rfl, rfl, fun _ => trivial⟩
  | releaseWrite r =>
    refine write_move (fun _ ha => ?_)
    cases ha
    exact .lock (LockKept.released r.ctx.now) rfl ⟨rfl, rfl, fun _ => trivial⟩
  | releaseClear =>
    exact writeAnyway_move (Phase.quiet_done _) (.columns (fun _ => ⟨rfl, rfl⟩) rfl (Phase.quiet_done _))
  | shipRead =>
    refine readSession_move (fun session hg => ?_)
    split
    · exact .stop _
    rename_i hc
    refine .reads (fun _ hp => ?_) rfl (fun _ => ⟨session, hg⟩)
    cases hp
    exact .inr (live_of_get hg (by rw [checkFinalizing_none hc]; decide))
  | shipReason =>
    exact reason_move rfl rfl ⟨rfl, rfl, fun _ => trivial⟩ rfl
  | shipRelease r =>
    refine write_move (fun _ ha => ?_)
    cases ha
    refine .lock (LockKept.released r.ctx.now) rfl ?_
    split <;> exact ⟨rfl, rfl, fun _ => trivial⟩
  | shipClear =>
    refine write_move (fun _ ha => ?_)
    cases ha
    exact .columns (fun _ => ⟨rfl, rfl⟩) rfl (Phase.quiet_done _)

end

section
variable {env : Env} {unmarshal : String → Option (List String)} {s s' : FlowState} {a : FlowAct}

theorem step_cases (h : s.step env unmarshal a = some s') :
    (∃ op, a = .start op ∧ s' = { s with calls := s.calls ++ [.start op] }) ∨
      ∃ i p db' p', a = .go i ∧ s.calls[i]? = some p ∧ Move s.db p db' p' p.endWrite ∧
        s' = ⟨db', s.calls.set i p', s.endWrites ++ p.endWrite⟩ := by
  cases a with
  | start op =>
    cases h
    exact .inl ⟨op, rfl, rfl⟩
  | go i =>
    obtain ⟨p, hp, h⟩ := Option.bind_eq_some_iff.1 h
    obtain ⟨⟨db', p'⟩, hn, h⟩ := Option.bind_eq_some_iff.1 h
    cases h
    exact .inr ⟨i, p, db', p', rfl, hp, next_move hn, rfl⟩

end

/-! ## What calls have read -/

variable {db db' : Db} {p p' : Phase} {w : List String}

structure Stays (db db' : Db) : Prop where
  sessions : ∀ orgID sessionID, (∃ s, getSession db orgID sessionID = .ok s) → ∃ s, getSession db' orgID sessionID = .ok s
  locks : ∀ l ∈ db.finalizeLocks, ∃ l' ∈ db'.finalizeLocks, l'.id = l.id ∧ l'.sessionID = l.sessionID

theorem Stays.refl (db : Db) : Stays db db := ⟨fun _ _ h => h, fun l hl => ⟨l, hl, rfl, rfl⟩⟩

theorem Stays.trans {db₁ db₂ db₃ : Db} (h : Stays db₁ db₂) (h' : Stays db₂ db₃) : Stays db₁ db₃ := by
  refine ⟨fun _ _ hs => h'.sessions _ _ (h.sessions _ _ hs), fun l hl => ?_⟩
  obtain ⟨l₂, hl₂, hid, hsession⟩ := h.locks l hl
  obtain ⟨l₃, hl₃, hi', hs'⟩ := h'.locks l₂ hl₂
  exact ⟨l₃, hl₃, hi'.trans hid, hs'.trans hsession⟩

theorem Stays.updateSession {g : Session → Session} (hg : ∀ s, (g s).orgID = s.orgID) :
    Stays db (updateSession db orgID sessionID g) := by
  obtain heq | ⟨s, hs, heq⟩ := updateSession_cases db orgID sessionID g
  · rw [heq]
    exact .refl db
  rw [heq]
  refine ⟨fun _ sessionID' hget => ?_, fun l hl => ⟨l, hl, rfl, rfl⟩⟩
  obtain ⟨s', hs'⟩ := hget
  obtain ⟨hlookup, ho⟩ := getSession_ok.1 hs'
  by_cases hk : sessionID' = sessionID
  · subst hk
    rw [hs] at hlookup
    cases hlookup
    exact ⟨g s, getSession_ok.2 ⟨Finmap.lookup_insert _, (hg s).trans ho⟩⟩
  · exact ⟨s', getSession_ok.2 ⟨(Finmap.lookup_insert_of_ne _ hk).trans hlookup, ho⟩⟩

theorem Stays.updateLock {id : String} {f : FinalizeLock → FinalizeLock} (hf : ∀ l, LockKept l (f l)) :
    Stays db (updateLock db id f) := by
  refine ⟨fun _ _ h => h, fun l hl => ⟨_, List.mem_map_of_mem hl, ?_⟩⟩
  have hk : LockKept l (if l.id = id then f l else l) := .ite (fun _ => hf l)
  exact ⟨hk.id, hk.sessionID⟩

theorem InTheWay.row (h : InTheWay db sessionID existing)
    (lock : FinalizeLock) (hlock : existing = some lock) : ∃ l ∈ db.finalizeLocks, l.id = lock.id :=
  (h lock hlock).imp (fun _ hl => ⟨hl.1, hl.2.1⟩)

theorem LocksAfter.stays
    {f : FinalizeLock → FinalizeLock} (h : LocksAfter r accountID existing db db' f) : Stays db db' := by
  rw [h.eq]
  refine ⟨fun _ _ h => h, fun l hl => ⟨f l, List.mem_append_left _ (List.mem_map_of_mem hl), ?_⟩⟩
  exact ⟨(h.kept l hl).id, (h.kept l hl).sessionID⟩

theorem Stays.lockSession (r : AcquireFinalizeLock) (accountID : String) (session : Session) :
    Stays db (lockSession db r accountID session) := by
  have hp : Stays db (Portal.updateSession db r.orgID r.sessionID (fun s => { s with finalizeLockedBy := some accountID })) :=
    .updateSession (fun _ => rfl)
  simp only [Portal.lockSession]
  split
  · exact hp.trans (.updateSession (fun _ => rfl))
  · exact hp

theorem Move.stays (h : Move db p db' p' w) (hp : p.Sound db) : Stays db db' := by
  cases h with
  | reads => exact .refl db
  | columns hg => exact .updateSession (fun s => (hg s).1)
  | lock hf => exact .updateLock hf
  | finalizing => exact .updateSession (fun _ => rfl)
  | ending =>
    unfold endSession
    exact .updateSession (fun _ => rfl)
  | reason =>
    unfold setEndReason
    exact .updateSession (fun _ => rfl)
  | acquired ha =>
    obtain ⟨f, hafter⟩ := ha.locksAfter hp.2.1.row
    exact hafter.stays.trans (.lockSession _ _ _)

theorem Stays.sound (h : Stays db db') {q : Phase} (hq : q.Sound db) : q.Sound db' := by
  cases q with
  | abandonEnd | shipEnd | acquireLock => exact h.sessions _ _ hq
  | acquireTx =>
    refine ⟨h.sessions _ _ hq.1, fun lock hlock => ?_, hq.2.2⟩
    obtain ⟨l, hl, hid, hs⟩ := hq.2.1 lock hlock
    obtain ⟨l', hl', hi', hs'⟩ := h.locks l hl
    exact ⟨l', hl', hi'.trans hid, hs'.trans hs⟩
  | _ => trivial

theorem Move.sound (h : Move db p db' p' w) (hp : p.Sound db) : p'.Sound db' := by
  cases h with
  | reads _ _ hs => exact hs hp
  | columns _ _ hq | lock _ _ hq | reason _ _ hq | finalizing hq => exact hq.sound _
  | ending _ _ _ _ _ _ hs => exact hs _
  | acquired => trivial

def FlowState.Sound (s : FlowState) : Prop := ∀ q ∈ s.calls, q.Sound s.db

theorem FlowState.Sound.step {env : Env} {unmarshal : String → Option (List String)} {s s' : FlowState} {a : FlowAct}
    (h : s.Sound) (hstep : s.step env unmarshal a = some s') : s'.Sound := by
  obtain ⟨_, rfl, rfl⟩ | ⟨i, p, _, _, rfl, hp, hm, rfl⟩ := step_cases hstep
  · intro q hq
    rcases List.mem_append.1 hq with hq | hq
    · exact h q hq
    · rw [List.mem_singleton.1 hq]
      trivial
  · have hs := h p (List.mem_of_getElem? hp)
    intro q hq
    rcases List.mem_or_eq_of_mem_set hq with hq | rfl
    · exact (hm.stays hs).sound (h q hq)
    · exact hm.sound hs

end Jamsesh.Portal
