import Jamsesh.LockRows
import Jamsesh.Machine
/-!
# SessionFlow — the handlers of a session's end and of its finalize lock, statement by statement (`sessions/handler.go`,
`finalize/lock_acquire.go`, `lock_patch.go`, `lock_release.go`, `mark_shipped.go`)

Each handler reads the session, decides, and writes later; a call stands at a phase, with what it has read, and the statements
of several calls interleave.  The checks of account and membership are one step, as no statement here writes what they read,
and so is the transaction of `AcquireFinalizeLock`: it only writes.  A call whose answer is lost goes no further.
-/
namespace Jamsesh.Portal

/-! ## Requests -/

structure SessionRequest where
  ctx : Ctx
  orgID : String
  sessionID : String

structure PatchSession where
  ctx : Ctx
  orgID : String
  sessionID : String
  goal : String
  scope : String
  defaultMode : String

inductive SessionOp where
  | finalizeSession (r : SessionRequest)
  | abandonSession (r : SessionRequest)
  | patchSession (r : PatchSession)
  | acquire (r : AcquireFinalizeLock)
  | patchLock (r : PatchFinalizeLock)
  | release (r : ReleaseFinalizeLock)
  | markShipped (r : MarkSessionShipped)

inductive Phase where
  | start (op : SessionOp)
  | finalizeRead (r : SessionRequest)
  | finalizeWrite (r : SessionRequest)
  | abandonRead (r : SessionRequest)
  | abandonEnd (r : SessionRequest)
  | abandonReason (r : SessionRequest)
  | patchRead (r : PatchSession)
  | patchWrite (r : PatchSession) (goal scope mode : String)
  | patchRefetch (r : PatchSession)
  | acquireRead (r : AcquireFinalizeLock) (accountID : String)
  | acquireLock (r : AcquireFinalizeLock) (accountID : String) (session : Session)
  | acquireTx (r : AcquireFinalizeLock) (accountID : String) (session : Session) (existing : Option FinalizeLock)
  | lockRead (r : PatchFinalizeLock) (accountID : String) (body : Curation)
  | lockExpire (r : PatchFinalizeLock) (lock : FinalizeLock)
  | lockCurate (r : PatchFinalizeLock) (lock : FinalizeLock) (body : Curation) (mode : PlanMode)
  | lockRefetch (r : PatchFinalizeLock) (lock : FinalizeLock)
  | releaseRead (r : ReleaseFinalizeLock) (accountID : String)
  | releaseWrite (r : ReleaseFinalizeLock) (lock : FinalizeLock)
  | releaseSession (r : ReleaseFinalizeLock) (lock : FinalizeLock)
  | releaseClear (r : ReleaseFinalizeLock)
  | shipRead (r : MarkSessionShipped)
  | shipEnd (r : MarkSessionShipped) (session : Session)
  | shipReason (r : MarkSessionShipped) (session : Session)
  | shipLock (r : MarkSessionShipped) (session : Session)
  | shipRelease (r : MarkSessionShipped) (session : Session) (lock : FinalizeLock)
  | shipClear (r : MarkSessionShipped)
  | done (reply : Reply)

/-! ## Checks -/

/-- `RequireSessionMember` with the check for the creator, of `AbandonSession` and `PatchSession`. -/
def requireCreator (db : Db) (ctx : Ctx) (orgID sessionID message : String) : Option Reply :=
  match requireAccount db ctx with
  | none => some invalidToken
  | some (accountID, _) =>
    match call ctx.down .getSessionMember (getSessionMember db orgID sessionID accountID) with
    | .error .notFound => some (forbidden "not a member of this session")
    | .error e => some (.err ("sessions: get session member: " ++ e.text))
    | .ok m => if m.role ≠ .creator then some (forbidden message) else none

def requireMember (db : Db) (ctx : Ctx) (orgID sessionID : String) : Except Reply String :=
  match requireAccount db ctx with
  | none => .error invalidToken
  | some (accountID, _) =>
    match membershipReply db ctx orgID sessionID accountID with
    | some reply => .error reply
    | none => .ok accountID

def alreadyEnded : Reply := .conflict "session.already_ended" "session has already ended" []

/-- Whether a glob of the old scope is missing in the new one; `unmarshal` reads a list of strings. -/
def isScopeNarrowing (unmarshal : String → Option (List String)) (oldScope newScope : String) : Bool :=
  match unmarshal oldScope with
  | none => false
  | some oldGlobs =>
    match unmarshal newScope with
    | none => true
    | some newGlobs => oldGlobs.any (fun g => g ∉ newGlobs)

/-- The scope that `PatchSession` writes. -/
def patchedScope (env : Env) (unmarshal : String → Option (List String)) (scope newScope : String) : Except Reply String :=
  if newScope = "" then .ok scope
  else match env.validateWritableScope newScope with
    | some msg => .error (.fail 400 "session.invalid_writable_scope" msg)
    | none =>
      if isScopeNarrowing unmarshal scope newScope then
        .error (.fail 400 "session.scope_narrowing_rejected" "scope may only be widened, not narrowed")
      else .ok newScope

/-- `UpdateSessionGoalScopeMode`: the column of the mode has a check. -/
def updateGoalScopeMode (db : Db) (orgID sessionID goal scope mode : String) : Store Db :=
  if mode ∉ ["sync", "isolated"] then .error (.other "check constraint violation")
  else .ok (updateSession db orgID sessionID
    (fun s => { s with goal := goal, writableScope := scope, defaultMode := mode }))

/-! ## Statements -/

def readSession (db : Db) (ctx : Ctx) (orgID sessionID error : String) (go : Session → Phase) : Db × Phase :=
  match call ctx.down .getSession (getSession db orgID sessionID) with
  | .error .notFound => (db, .done sessionNotFound)
  | .error e => (db, .done (.err (error ++ e.text)))
  | .ok session => (db, go session)

def write (down : StoreCall → Option String) (site : StoreCall) (db : Db) (answer : Store Db) (error : String) (go : Phase) :
    Db × Phase :=
  match call down site answer with
  | .error e => (db, .done (.err (error ++ e.text)))
  | .ok db' => (db', go)

def writeAnyway (down : StoreCall → Option String) (site : StoreCall) (db db' : Db) (failed go : Phase) : Db × Phase :=
  match call down site (.ok db') with
  | .error _ => (db, failed)
  | .ok db' => (db', go)

def clearFinalizeLock (db : Db) (orgID sessionID : String) : Db :=
  updateSession db orgID sessionID (fun s => { s with finalizeLockedBy := none })

def SessionOp.enter (db : Db) : SessionOp → Phase
  | finalizeSession r => if requireAccount db r.ctx = none then .done invalidToken else .finalizeRead r
  | abandonSession r =>
    match requireCreator db r.ctx r.orgID r.sessionID "only the session creator can abandon the session" with
    | some reply => .done reply
    | none => .abandonRead r
  | patchSession r =>
    match requireCreator db r.ctx r.orgID r.sessionID "only the session creator can patch the session" with
    | some reply => .done reply
    | none => .patchRead r
  | acquire r =>
    match requireMember db r.ctx r.orgID r.sessionID with
    | .error reply => .done reply
    | .ok accountID => .acquireRead r accountID
  | patchLock r =>
    match r.body with
    | none => .done (if requireAccount db r.ctx = none then invalidToken
        else .fail 400 "request.invalid" "request body is required")
    | some body =>
      match requireMember db r.ctx r.orgID r.sessionID with
      | .error reply => .done reply
      | .ok accountID => .lockRead r accountID body
  | release r =>
    match requireMember db r.ctx r.orgID r.sessionID with
    | .error reply => .done reply
    | .ok accountID => .releaseRead r accountID
  | markShipped r =>
    match requireMember db r.ctx r.orgID r.sessionID with
    | .error reply => .done reply
    | .ok _ => .shipRead r

def Phase.next (env : Env) (unmarshal : String → Option (List String)) (db : Db) : Phase → Option (Db × Phase)
  | start op => some (db, op.enter db)
  | finalizeRead r =>
    some (readSession db r.ctx r.orgID r.sessionID "sessions: get session: " (fun session =>
      if session.status = "finalizing" then .done (.ok 200)
      else if session.status = "ended" ∨ session.status = "archived" then .done alreadyEnded
      else .finalizeWrite r))
  | finalizeWrite r =>
    some (write r.ctx.down .updateSessionStatus db
      (.ok (updateSession db r.orgID r.sessionID (fun s => { s with status := "finalizing" })))
      "sessions: update session status: " (.done (.ok 200)))
  | abandonRead r =>
    some (readSession db r.ctx r.orgID r.sessionID "sessions: get session: " (fun session =>
      if session.status = "ended" ∨ session.status = "archived" then .done alreadyEnded else .abandonEnd r))
  | abandonEnd r =>
    some (write r.ctx.down .updateSessionStatus db (.ok (endSession db r.orgID r.sessionID))
      "sessions: update session status: " (.abandonReason r))
  | abandonReason r =>
    some (write r.ctx.down .setEndReason db (.ok (setEndReason db r.orgID r.sessionID "abandoned" r.ctx.now))
      "sessions: set session end reason: " (.done (.ok 200)))
  | patchRead r =>
    some (readSession db r.ctx r.orgID r.sessionID "sessions: get session: " (fun session =>
      match patchedScope env unmarshal session.writableScope r.scope with
      | .error reply => .done reply
      | .ok scope => .patchWrite r (if r.goal ≠ "" then r.goal else session.goal) scope
          (if r.defaultMode ≠ "" then r.defaultMode else session.defaultMode)))
  | patchWrite r goal scope mode =>
    some (write r.ctx.down .updateSession db (updateGoalScopeMode db r.orgID r.sessionID goal scope mode)
      "sessions: update session: " (.patchRefetch r))
  | patchRefetch r =>
    some (db, match call r.ctx.down .refetchSession (getSession db r.orgID r.sessionID) with
      | .error e => .done (.err ("sessions: re-fetch session after patch: " ++ e.text))
      | .ok _ => .done (.ok 200))
  | acquireRead r accountID =>
    some (readSession db r.ctx r.orgID r.sessionID "finalize: get session: " (.acquireLock r accountID))
  | acquireLock r accountID session =>
    some (db, match call r.ctx.down .getActiveLock (getActiveFinalizeLock db r.sessionID) with
      | .error .notFound => .acquireTx r accountID session none
      | .error e => .done (.err ("finalize: get active lock: " ++ e.text))
      | .ok lock =>
        if lock.acquiredBy = accountID then .done (.locked lock.id)
        else if !isLockExpired lock.lastActivityAt r.ctx.now && !r.override then .done (heldByOther lock)
        else .acquireTx r accountID session (some lock))
  | acquireTx r accountID session existing =>
    some ((acquireAs env db r accountID session existing).1, .done (acquireAs env db r accountID session existing).2)
  | lockRead r accountID body =>
    some (db, match findLock db r.ctx r.orgID r.sessionID r.lockID with
      | .error reply => .done reply
      | .ok lock =>
        match checkHolder lock accountID with
        | some reply => .done reply
        | none =>
          if isLockExpired lock.lastActivityAt r.ctx.now then .lockExpire r lock
          else match validateCuration body with
            | .error reply => .done reply
            | .ok mode => .lockCurate r lock body mode)
  | lockExpire r lock =>
    some (writeAnyway r.ctx.down .releaseLock db (releaseFinalizeLock db lock.id r.ctx.now)
      (.done expiredOnPatch) (.done expiredOnPatch))
  | lockCurate r lock body mode =>
    some (write r.ctx.down .updateCuration db (.ok (updateFinalizeLockCuration db lock.id body mode r.ctx.now))
      "finalize: update lock curation: " (.lockRefetch r lock))
  | lockRefetch r lock =>
    some (db, match call r.ctx.down .refetchLock (getFinalizeLockByID db lock.id) with
      | .error e => .done (.err ("finalize: re-fetch lock: " ++ e.text))
      | .ok _ => .done (.ok 200))
  | releaseRead r accountID =>
    some (db, match findLock db r.ctx r.orgID r.sessionID r.lockID with
      | .error reply => .done reply
      | .ok lock =>
        if lock.acquiredBy ≠ accountID then .done (forbidden "only the lock holder can release this lock")
        else if lock.releasedAt.isSome then .done (.ok 204)
        else .releaseWrite r lock)
  | releaseWrite r lock =>
    some (write r.ctx.down .releaseLock db (.ok (releaseFinalizeLock db lock.id r.ctx.now))
      "finalize: release lock: " (.releaseSession r lock))
  | releaseSession r lock =>
    some (db, match call r.ctx.down .getSession (getSession db r.orgID r.sessionID) with
      | .error _ => .done (.ok 204)
      | .ok session => if session.finalizeLockedBy = some lock.acquiredBy then .releaseClear r else .done (.ok 204))
  | releaseClear r =>
    some (writeAnyway r.ctx.down .clearSessionLock db (clearFinalizeLock db r.orgID r.sessionID)
      (.done (.ok 204)) (.done (.ok 204)))
  | shipRead r =>
    some (readSession db r.ctx r.orgID r.sessionID "finalize: get session: " (fun session =>
      match checkFinalizing session with
      | some reply => .done reply
      | none => .shipEnd r session))
  | shipEnd r session =>
    some (write r.ctx.down .updateSessionStatus db (.ok (endSession db r.orgID r.sessionID))
      "finalize: update session status: " (.shipReason r session))
  | shipReason r session =>
    some (write r.ctx.down .setEndReason db (.ok (setEndReason db r.orgID r.sessionID "shipped" r.ctx.now))
      "finalize: set session end reason: " (.shipLock r session))
  | shipLock r session =>
    some (db, match call r.ctx.down .getActiveLock (getActiveFinalizeLock db r.sessionID) with
      | .error .notFound => .done (.ok 200)
      | .error e => .done (.err ("finalize: lookup active lock on ship: " ++ e.text))
      | .ok lock => .shipRelease r session lock)
  | shipRelease r session lock =>
    some (write r.ctx.down .releaseLock db (.ok (releaseFinalizeLock db lock.id r.ctx.now))
      "finalize: release finalize lock on ship: "
      (if session.finalizeLockedBy = some lock.acquiredBy then .shipClear r else .done (.ok 200)))
  | shipClear r =>
    some (write r.ctx.down .clearSessionLock db (.ok (clearFinalizeLock db r.orgID r.sessionID))
      "finalize: clear sessions pointer on ship: " (.done (.ok 200)))
  | done _ => none

/-! ## A call alone -/

def alone (env : Env) (unmarshal : String → Option (List String)) : Nat → Db → Phase → Db × Phase
  | 0, db, p => (db, p)
  | n + 1, db, p =>
    match p.next env unmarshal db with
    | none => (db, p)
    | some (db', p') => alone env unmarshal n db' p'

variable {env : Env} {unmarshal : String → Option (List String)}

@[simp] theorem alone_done {n : Nat} {db : Db} {reply : Reply} : alone env unmarshal n db (.done reply) = (db, .done reply) := by
  cases n <;> rfl

theorem alone_next {n : Nat} {db db' : Db} {p p' : Phase} (h : p.next env unmarshal db = some (db', p')) :
    alone env unmarshal (n + 1) db p = alone env unmarshal n db' p' := by
  rw [alone, h]

def finished (out : Db × Reply) : Db × Phase := (out.1, .done out.2)

theorem alone_member {n : Nat} {db : Db} {ctx : Ctx} {orgID sessionID : String} {go : String → Phase} {rest : String → Db × Reply}
    (h : ∀ accountID, alone env unmarshal n db (go accountID) = finished (rest accountID)) :
    alone env unmarshal n db (match requireMember db ctx orgID sessionID with
      | .error reply => .done reply
      | .ok accountID => go accountID) =
    finished (match requireAccount db ctx with
      | none => (db, invalidToken)
      | some (accountID, _) =>
        match membershipReply db ctx orgID sessionID accountID with
        | some reply => (db, reply)
        | none => rest accountID) := by
  unfold requireMember
  cases requireAccount db ctx with
  | none => exact alone_done
  | some caller =>
    dsimp only
    cases membershipReply db ctx orgID sessionID caller.1 with
    | some => exact alone_done
    | none => exact h caller.1

theorem alone_read {n : Nat} {db : Db} {p : Phase} {ctx : Ctx} {orgID sessionID error : String} {go : Session → Phase}
    {rest : Session → Db × Reply} (hn : p.next env unmarshal db = some (readSession db ctx orgID sessionID error go))
    (h : ∀ session, alone env unmarshal n db (go session) = finished (rest session)) :
    alone env unmarshal (n + 1) db p = finished (match call ctx.down .getSession (getSession db orgID sessionID) with
      | .error .notFound => (db, sessionNotFound)
      | .error e => (db, .err (error ++ e.text))
      | .ok session => rest session) := by
  rw [alone, hn, readSession]
  cases call ctx.down .getSession (getSession db orgID sessionID) with
  | error e => cases e <;> exact alone_done
  | ok session => exact h session

theorem alone_write {n : Nat} {db : Db} {p go : Phase} {down : StoreCall → Option String} {site : StoreCall} {answer : Store Db}
    {error : String} {rest : Db → Db × Reply} (hn : p.next env unmarshal db = some (write down site db answer error go))
    (h : ∀ db', alone env unmarshal n db' go = finished (rest db')) :
    alone env unmarshal (n + 1) db p = finished (match call down site answer with
      | .error e => (db, .err (error ++ e.text))
      | .ok db' => rest db') := by
  rw [alone, hn, write]
  cases call down site answer with
  | error => exact alone_done
  | ok db' => exact h db'

theorem acquire_alone (db : Db) (r : AcquireFinalizeLock) :
    alone env unmarshal 4 db (.start (.acquire r)) = finished (acquireFinalizeLock env db r) := by
  rw [alone_next rfl]
  refine alone_member fun _ => alone_read rfl fun _ => ?_
  rw [alone_next rfl]
  cases call r.ctx.down .getActiveLock (getActiveFinalizeLock db r.sessionID) with
  | error e => cases e <;> rfl
  | ok =>
    dsimp only
    split
    · exact alone_done
    · split
      · exact alone_done
      · rfl

theorem patchLock_alone (db : Db) (r : PatchFinalizeLock) :
    alone env unmarshal 4 db (.start (.patchLock r)) = finished (patchFinalizeLock db r) := by
  rw [alone_next rfl, patchFinalizeLock, SessionOp.enter]
  cases r.body with
  | none => cases requireAccount db r.ctx <;> exact alone_done
  | some body =>
    refine alone_member fun accountID => ?_
    rw [alone_next rfl]
    cases findLock db r.ctx r.orgID r.sessionID r.lockID with
    | error => exact alone_done
    | ok lock =>
      dsimp only
      cases checkHolder lock accountID with
      | some => exact alone_done
      | none =>
        dsimp only
        split
        · rw [alone_next rfl]
          cases call r.ctx.down .releaseLock (.ok (releaseFinalizeLock db lock.id r.ctx.now)) <;> rfl
        cases validateCuration body with
        | error => exact alone_done
        | ok =>
          refine alone_write rfl fun db' => ?_
          rw [alone_next rfl]
          cases call r.ctx.down .refetchLock (getFinalizeLockByID db' lock.id) <;> rfl

theorem release_alone (db : Db) (r : ReleaseFinalizeLock) :
    alone env unmarshal 5 db (.start (.release r)) = finished (releaseLock db r) := by
  rw [alone_next rfl]
  refine alone_member fun _ => ?_
  rw [alone_next rfl]
  cases findLock db r.ctx r.orgID r.sessionID r.lockID with
  | error => exact alone_done
  | ok =>
    dsimp only
    split
    · exact alone_done
    split
    · exact alone_done
    refine alone_write rfl fun db' => ?_
    rw [alone_next rfl, clearPointer]
    cases call r.ctx.down .getSession (getSession db' r.orgID r.sessionID) with
    | error => exact alone_done
    | ok =>
      dsimp only
      split
      · rw [alone_next rfl, clearFinalizeLock]
        generalize call r.ctx.down .clearSessionLock _ = answer
        cases answer <;> rfl
      · exact alone_done

theorem markShipped_alone (db : Db) (r : MarkSessionShipped) :
    alone env unmarshal 7 db (.start (.markShipped r)) = finished (markSessionShipped db r) := by
  rw [alone_next rfl]
  refine alone_member fun _ => alone_read rfl fun session => ?_
  cases checkFinalizing session with
  | some => exact alone_done
  | none =>
    refine alone_write rfl fun _ => alone_write rfl fun db₂ => ?_
    rw [alone_next rfl, releaseOnShip]
    cases call r.ctx.down .getActiveLock (getActiveFinalizeLock db₂ r.sessionID) with
    | error e => cases e <;> exact alone_done
    | ok lock =>
      dsimp only
      rw [alone_next rfl]
      cases call r.ctx.down .releaseLock (.ok (releaseFinalizeLock db₂ lock.id r.ctx.now)) with
      | error => exact alone_done
      | ok db₃ =>
        dsimp only
        split
        · rw [alone_next rfl, clearFinalizeLock]
          generalize call r.ctx.down .clearSessionLock _ = answer
          cases answer <;> rfl
        · exact alone_done

end Jamsesh.Portal
