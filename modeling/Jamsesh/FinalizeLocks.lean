import Jamsesh.Handlers
import Jamsesh.FinalizeScript
import Jamsesh.JsonStrings
/-!
# FinalizeLocks — finalize locks and plans (`finalize/lock_acquire.go`, `lock_patch.go`, `lock_release.go`, `mark_shipped.go`,
`plan.go`)

A member takes the lock of a session, curates commits on it, asks for a plan, and marks the session shipped.  The curated list
is stored as JSON; the plan reads it back, resolves each id and builds the script.  Events and the times in replies are left
out.
-/
namespace Jamsesh.Portal

open Finalize Git

-- thirty minutes, in nanoseconds
def finalizeLockTTL : Int := 30 * 60 * 1000000000

def isLockExpired (lastActivity now : Int) : Bool := if lastActivity > now then false else now - lastActivity > finalizeLockTTL

inductive Verdict where
  | ok | notOrgMember | notSessionMember | sessionNotFound
deriving DecidableEq

def checkSessionMembership (db : Db) (ctx : Ctx) (orgID sessionID accountID : String) : Store Verdict :=
  match call ctx.down .getOrgMember (getOrgMember db orgID accountID) with
  | .error .notFound => .ok .notOrgMember
  | .error e => .error e
  | .ok _ =>
    match call ctx.down .getSessionMember (getSessionMember db orgID sessionID accountID) with
    | .error .notFound =>
      match call ctx.down .checkSession (getSession db orgID sessionID) with
      | .error .notFound => .ok .sessionNotFound
      | .error e => .error e
      | .ok _ => .ok .notSessionMember
    | .error e => .error e
    | .ok _ => .ok .ok

def sessionNotFound : Reply := .fail 404 "session.not_found" "session not found"

def lockNotFound : Reply := .fail 404 "finalize.lock_not_found" "finalize lock not found"

/-- The reply of all four endpoints to a caller who is not a member; `none` for one who is. -/
def membershipReply (db : Db) (ctx : Ctx) (orgID sessionID accountID : String) : Option Reply :=
  match checkSessionMembership db ctx orgID sessionID accountID with
  | .error e => some (.err ("finalize: membership check: " ++ e.text))
  | .ok .notOrgMember => some (forbidden "not a member of this org")
  | .ok .notSessionMember => some (forbidden "not a member of this session")
  | .ok .sessionNotFound => some sessionNotFound
  | .ok .ok => none

/-- The lock with an id, for three of the endpoints: a lock of another session is not found. -/
def findLock (db : Db) (ctx : Ctx) (orgID sessionID lockID : String) : Except Reply FinalizeLock :=
  match call ctx.down .getFinalizeLock (getFinalizeLockByID db lockID) with
  | .error .notFound => .error lockNotFound
  | .error e => .error (.err ("finalize: get lock: " ++ e.text))
  | .ok lock => if lock.sessionID ≠ sessionID ∨ lock.orgID ≠ orgID then .error lockNotFound else .ok lock

/-! ## Acquiring -/

structure AcquireFinalizeLock where
  ctx : Ctx
  orgID : String
  sessionID : String
  override : Bool
  lockID : String

inductive AcquireErr where
  | staleRefreshed | uniqueViolation
  | other (text : String)
deriving DecidableEq

/-- A store error inside the transaction; a unique violation is recognised through its wrapping. -/
def AcquireErr.of (text : String) : StoreErr → AcquireErr
  | .uniqueViolation => .uniqueViolation
  | e => .other (text ++ e.text)

def heldByOther (lock : FinalizeLock) : Reply :=
  .conflict "finalize.lock_held_by_other" "another member holds the finalize lock for this session"
    [("held_by_account_id", lock.acquiredBy), ("lock_id", lock.id)]

def takeOver (r : AcquireFinalizeLock) (existing : Option FinalizeLock) (db : Db) : Except AcquireErr Db :=
  match existing with
  | none => .ok db
  | some lock =>
    if isLockExpired lock.lastActivityAt r.ctx.now then
      -- only while it is still idle
      match call r.ctx.down .releaseLock
          (.ok (releaseFinalizeLockIfStale db lock.id r.ctx.now (r.ctx.now - finalizeLockTTL))) with
      | .error e => .error (.of "conditional release stale lock: " e)
      | .ok (db', changed) => if changed then .ok db' else .error .staleRefreshed
    else
      match call r.ctx.down .releaseLock (.ok (releaseFinalizeLock db lock.id r.ctx.now)) with
      | .error e => .error (.of "release lock (override): " e)
      | .ok db' => .ok db'

def newLock (r : AcquireFinalizeLock) (accountID : String) : FinalizeLock where
  id := r.lockID
  orgID := r.orgID
  sessionID := r.sessionID
  acquiredBy := accountID
  acquiredAt := r.ctx.now
  lastActivityAt := r.ctx.now
  selectedCommitSHAs := "[]"
  targetBranch := ""
  baseSHA := ""
  mode := .squash
  commitMessage := none
  supersededBy := none
  releasedAt := none

def markSuperseded (r : AcquireFinalizeLock) (existing : Option FinalizeLock) (db : Db) : Except AcquireErr Db :=
  match existing with
  | none => .ok db
  | some lock =>
    if isLockExpired lock.lastActivityAt r.ctx.now then .ok db
    else match call r.ctx.down .supersedeLock (.ok (supersedeFinalizeLock db lock.id r.lockID)) with
      | .error e => .error (.of "supersede lock: " e)
      | .ok db' => .ok db'

def acquireTx (r : AcquireFinalizeLock) (accountID : String) (session : Session) (existing : Option FinalizeLock) (db : Db) :
    Except AcquireErr (Db × Unit × Bool) :=
  match takeOver r existing db with
  | .error e => .error e
  | .ok db₁ =>
    match call r.ctx.down .insertLock (insertFinalizeLock db₁ (newLock r accountID)) with
    | .error e => .error (.of "insert lock: " e)
    | .ok db₂ =>
      match markSuperseded r existing db₂ with
      | .error e => .error e
      | .ok db₃ =>
        match call r.ctx.down .setSessionLock
            (.ok (updateSession db₃ r.orgID r.sessionID (fun s => { s with finalizeLockedBy := some accountID }))) with
        | .error e => .error (.of "set sessions pointer: " e)
        | .ok db₄ =>
          if session.status = "active" then
            match call r.ctx.down .updateSessionStatus
                (.ok (updateSession db₄ r.orgID r.sessionID (fun s => { s with status := "finalizing" }))) with
            | .error e => .error (.of "update session status: " e)
            | .ok db₅ => .ok (db₅, (), false)
          else .ok (db₄, (), false)

/-- The writes of `AcquireFinalizeLock` and the replies to how they end. -/
def acquireAs (env : Env) (db : Db) (r : AcquireFinalizeLock) (accountID : String) (session : Session)
    (existing : Option FinalizeLock) : Db × Reply :=
  match withTx env r.ctx .other db (acquireTx r accountID session existing) with
  | .error .staleRefreshed => (db, (existing.map heldByOther).getD (.err "finalize: acquire lock tx: "))
  | .error .uniqueViolation => (db, .conflict "finalize.override_race_lost"
      "another caller acquired the finalize lock simultaneously; re-query to see the current lock holder" [])
  | .error (.other text) => (db, .err ("finalize: acquire lock tx: " ++ text))
  | .ok (db', _) => (db', .locked r.lockID)

def acquireFinalizeLock (env : Env) (db : Db) (r : AcquireFinalizeLock) : Db × Reply :=
  match requireAccount db r.ctx with
  | none => (db, invalidToken)
  | some (accountID, _) =>
    match membershipReply db r.ctx r.orgID r.sessionID accountID with
    | some reply => (db, reply)
    | none =>
      match call r.ctx.down .getSession (getSession db r.orgID r.sessionID) with
      | .error .notFound => (db, sessionNotFound)
      | .error e => (db, .err ("finalize: get session: " ++ e.text))
      | .ok session =>
        match call r.ctx.down .getActiveLock (getActiveFinalizeLock db r.sessionID) with
        | .error .notFound => acquireAs env db r accountID session none
        | .error e => (db, .err ("finalize: get active lock: " ++ e.text))
        | .ok lock =>
          if lock.acquiredBy = accountID then (db, .locked lock.id)
          else if !isLockExpired lock.lastActivityAt r.ctx.now && !r.override then (db, heldByOther lock)
          else acquireAs env db r accountID session (some lock)

/-! ## Curating -/

structure Curation where
  selectedCommitSHAs : List String
  targetBranch : String
  baseSHA : String
  mode : String
  commitMessage : String

structure PatchFinalizeLock where
  ctx : Ctx
  orgID : String
  sessionID : String
  lockID : String
  body : Option Curation

def parseMode (mode : String) : Option PlanMode :=
  if mode = "squash" then some .squash else if mode = "preserve" then some .preserve else none

def superseded (newID : String) : Reply :=
  .conflict "finalize.lock_superseded" "finalize lock has been superseded" [("superseded_by_lock_id", newID)]

/-- `json.Marshal` of the curated list. -/
def marshal (shas : List String) : String := String.ofList (Json.encode shas)

def updateFinalizeLockCuration (db : Db) (id : String) (body : Curation) (mode : PlanMode) (now : Int) : Db :=
  updateLock db id (fun l => { l with
    selectedCommitSHAs := marshal body.selectedCommitSHAs
    targetBranch := body.targetBranch
    baseSHA := body.baseSHA
    mode := mode
    commitMessage := if body.commitMessage ≠ "" then some body.commitMessage else none
    lastActivityAt := now })

def validateCuration (body : Curation) : Except Reply PlanMode :=
  match parseMode body.mode with
  | none => .error (.fail 400 "finalize.invalid_mode" "mode must be one of: squash, preserve")
  | some mode =>
    if !validateTargetBranch body.targetBranch then
      .error (.fail 400 "session.invalid_target_branch"
        "target_branch must be non-empty, contain only [A-Za-z0-9._/-], and must not start with '-'")
    else if !validateBaseSHA body.baseSHA then
      .error (.fail 400 "session.invalid_base_sha" "base_sha must be a 40-character lowercase hex SHA-1")
    else .ok mode

/-- The lock may still be curated: it is the caller's, and neither superseded nor released. -/
def checkHolder (lock : FinalizeLock) (accountID : String) : Option Reply :=
  if lock.acquiredBy ≠ accountID then some (forbidden "only the lock holder can patch this lock")
  else match lock.supersededBy with
    | some newID => some (superseded newID)
    | none =>
      if lock.releasedAt.isSome then
        some (.conflict "finalize.lock_released" "finalize lock has been released" [])
      else none

def expiredOnPatch : Reply :=
  .conflict "finalize.lock_expired" "finalize lock idle for more than 30 minutes; lock has been released" []

def patchFinalizeLock (db : Db) (r : PatchFinalizeLock) : Db × Reply :=
  match requireAccount db r.ctx with
  | none => (db, invalidToken)
  | some (accountID, _) =>
    match r.body with
    | none => (db, .fail 400 "request.invalid" "request body is required")
    | some body =>
      match membershipReply db r.ctx r.orgID r.sessionID accountID with
      | some reply => (db, reply)
      | none =>
        match findLock db r.ctx r.orgID r.sessionID r.lockID with
        | .error reply => (db, reply)
        | .ok lock =>
          match checkHolder lock accountID with
          | some reply => (db, reply)
          | none =>
            if isLockExpired lock.lastActivityAt r.ctx.now then
              -- an idle lock is released on the way
              match call r.ctx.down .releaseLock (.ok (releaseFinalizeLock db lock.id r.ctx.now)) with
              | .error _ => (db, expiredOnPatch)
              | .ok db' => (db', expiredOnPatch)
            else
              match validateCuration body with
              | .error reply => (db, reply)
              | .ok mode =>
                match call r.ctx.down .updateCuration
                    (.ok (updateFinalizeLockCuration db lock.id body mode r.ctx.now)) with
                | .error e => (db, .err ("finalize: update lock curation: " ++ e.text))
                | .ok db' =>
                  match call r.ctx.down .refetchLock (getFinalizeLockByID db' lock.id) with
                  | .error e => (db', .err ("finalize: re-fetch lock: " ++ e.text))
                  | .ok _ => (db', .ok 200)

/-! ## Releasing -/

structure ReleaseFinalizeLock where
  ctx : Ctx
  orgID : String
  sessionID : String
  lockID : String

/-- The session's pointer is cleared when it is the holder's; errors are ignored. -/
def clearPointer (db : Db) (r : ReleaseFinalizeLock) (lock : FinalizeLock) : Db :=
  match call r.ctx.down .getSession (getSession db r.orgID r.sessionID) with
  | .error _ => db
  | .ok session =>
    if session.finalizeLockedBy = some lock.acquiredBy then
      match call r.ctx.down .clearSessionLock
          (.ok (updateSession db r.orgID r.sessionID (fun s => { s with finalizeLockedBy := none }))) with
      | .error _ => db
      | .ok db' => db'
    else db

def releaseLock (db : Db) (r : ReleaseFinalizeLock) : Db × Reply :=
  match requireAccount db r.ctx with
  | none => (db, invalidToken)
  | some (accountID, _) =>
    match membershipReply db r.ctx r.orgID r.sessionID accountID with
    | some reply => (db, reply)
    | none =>
      match findLock db r.ctx r.orgID r.sessionID r.lockID with
      | .error reply => (db, reply)
      | .ok lock =>
        if lock.acquiredBy ≠ accountID then (db, forbidden "only the lock holder can release this lock")
        else if lock.releasedAt.isSome then (db, .ok 204)
        else match call r.ctx.down .releaseLock (.ok (releaseFinalizeLock db lock.id r.ctx.now)) with
          | .error e => (db, .err ("finalize: release lock: " ++ e.text))
          | .ok db' => (clearPointer db' r lock, .ok 204)

/-! ## Shipping -/

structure MarkSessionShipped where
  ctx : Ctx
  orgID : String
  sessionID : String

/-- The reply where the session is not finalizing; `none` where it is. -/
def checkFinalizing (session : Session) : Option Reply :=
  if session.status = "ended" ∨ session.status = "archived" then
    if session.endReason = some "shipped" then some (.ok 200)
    else some (.conflict "session.already_ended" "session has already ended with a different end_reason"
      (session.endReason.toList.map (fun reason => ("end_reason", reason))))
  else if session.status = "active" then
    some (.conflict "session.not_finalizing" "session must be finalizing before it can be marked shipped" [])
  else if session.status = "finalizing" then none
  else some (.conflict "session.not_finalizing" ("session is in unexpected status \"" ++ session.status ++ "\"")
    [("status", session.status)])

/-- The lock of a shipped session is released, and the pointer cleared when the session that was read first had it on the
holder; with the error that ends the call. -/
def releaseOnShip (db : Db) (r : MarkSessionShipped) (session : Session) : Db × Option String :=
  match call r.ctx.down .getActiveLock (getActiveFinalizeLock db r.sessionID) with
  | .error .notFound => (db, none)
  | .error e => (db, some ("finalize: lookup active lock on ship: " ++ e.text))
  | .ok lock =>
    match call r.ctx.down .releaseLock (.ok (releaseFinalizeLock db lock.id r.ctx.now)) with
    | .error e => (db, some ("finalize: release finalize lock on ship: " ++ e.text))
    | .ok db' =>
      if session.finalizeLockedBy = some lock.acquiredBy then
        match call r.ctx.down .clearSessionLock
            (.ok (updateSession db' r.orgID r.sessionID (fun s => { s with finalizeLockedBy := none }))) with
        | .error e => (db', some ("finalize: clear sessions pointer on ship: " ++ e.text))
        | .ok db'' => (db'', none)
      else (db', none)

def markSessionShipped (db : Db) (r : MarkSessionShipped) : Db × Reply :=
  match requireAccount db r.ctx with
  | none => (db, invalidToken)
  | some (accountID, _) =>
    match membershipReply db r.ctx r.orgID r.sessionID accountID with
    | some reply => (db, reply)
    | none =>
      match call r.ctx.down .getSession (getSession db r.orgID r.sessionID) with
      | .error .notFound => (db, sessionNotFound)
      | .error e => (db, .err ("finalize: get session: " ++ e.text))
      | .ok session =>
        match checkFinalizing session with
        | some reply => (db, reply)
        | none =>
          match call r.ctx.down .updateSessionStatus
              (.ok (updateSession db r.orgID r.sessionID (fun s => { s with status := "ended" }))) with
          | .error e => (db, .err ("finalize: update session status: " ++ e.text))
          | .ok db₁ =>
            match call r.ctx.down .setEndReason (.ok (updateSession db₁ r.orgID r.sessionID
                (fun s => { s with endReason := some "shipped", endedAt := some r.ctx.now }))) with
            | .error e => (db₁, .err ("finalize: set session end reason: " ++ e.text))
            | .ok db₂ =>
              match releaseOnShip db₂ r session with
              | (db₃, some text) => (db₃, .err text)
              | (db₃, none) => (db₃, .ok 200)

/-! ## Plans -/

structure GetFinalizePlan where
  ctx : Ctx
  orgID : String
  sessionID : String
  lockID : String
  repo : Except String Repo

structure Plan where
  planID : String
  mode : PlanMode
  script : Text
  selectedCommits : List Commit
  targetBranch : String
  baseSHA : String
  commitMessage : Option Text
  coAuthors : List CoAuthor

def FinalizeLock.curated (lock : FinalizeLock) : Option (List String) :=
  if lock.selectedCommitSHAs ≠ "" then Json.decode lock.selectedCommitSHAs.toList else some []

def resolveCommits (repo : Repo) : List String → Except Reply (List Commit)
  | [] => .ok []
  | sha :: shas =>
    match repo.commitObject (newHash sha) with
    | none => .error (.conflict "finalize.commit_missing" "a curated commit is no longer present in the session repo"
        [("missing_sha", sha)])
    | some c => (resolveCommits repo shas).map (c :: ·)

def squashMessage (env : Env) (goal : String) (lock : FinalizeLock) (commits : List Commit) : Text :=
  renderSquashMessageBody (composeSubject goal.toList (lock.commitMessage.getD "").toList) (composeBody commits)
    (composeCoAuthors env.toLower commits [])

/-- What `BuildScript` is given. -/
def scriptInput (env : Env) (goal : String) (lock : FinalizeLock) (shas : List String) (commits : List Commit) :
    ScriptInput where
  mode := lock.mode
  targetBranch := lock.targetBranch.toList
  baseSHA := lock.baseSHA.toList
  selectedSHAs := shas.map String.toList
  squashMessageBody := if lock.mode = .squash then squashMessage env goal lock commits else []

def composePlan (env : Env) (r : GetFinalizePlan) (goal : String) (lock : FinalizeLock) (shas : List String)
    (commits : List Commit) : Plan where
  planID := r.sessionID ++ ":" ++ lock.id
  mode := lock.mode
  script := buildScript (scriptInput env goal lock shas commits)
  selectedCommits := commits
  targetBranch := lock.targetBranch
  baseSHA := lock.baseSHA
  commitMessage := if lock.mode = .squash then some (squashMessage env goal lock commits) else none
  coAuthors := if lock.mode = .squash then composeCoAuthors env.toLower commits [] else []

def getFinalizePlan (env : Env) (db : Db) (r : GetFinalizePlan) : Except Reply Plan :=
  match requireAccount db r.ctx with
  | none => .error invalidToken
  | some (accountID, _) =>
    match membershipReply db r.ctx r.orgID r.sessionID accountID with
    | some reply => .error reply
    | none =>
      match findLock db r.ctx r.orgID r.sessionID r.lockID with
      | .error reply => .error reply
      | .ok lock =>
        match lock.supersededBy with
        | some newID => .error (superseded newID)
        | none =>
          if isLockExpired lock.lastActivityAt r.ctx.now then
            .error (.conflict "finalize.lock_expired" "finalize lock idle for more than 30 minutes" [])
          else match lock.curated with
            | none => .error (.err "finalize: unmarshal selected_commit_shas: ")
            | some shas =>
              match r.repo with
              | .error e => .error (.err ("finalize: open repo: " ++ e))
              | .ok repo =>
                match resolveCommits repo shas with
                | .error reply => .error reply
                | .ok commits =>
                  match call r.ctx.down .getSession (getSession db r.orgID r.sessionID) with
                  | .error e => .error (.err ("finalize: get session: " ++ e.text))
                  | .ok session => .ok (composePlan env r session.goal lock shas commits)

end Jamsesh.Portal
