import Jamsesh.Text
import Mathlib.Data.Finmap
/-!
# Portal — the tables behind organisations and sessions (`internal/db/store`, `db/queries`)

Each table is a map from its primary key; an insert fails on a key or a unique column that is taken, and on a reference that
leads nowhere.  Any call to the store may fail (`down`).  Columns that nothing here reads are left out.
-/
namespace Jamsesh.Portal

/-! ## Tables -/

structure Account where
  email : String
  displayName : String
deriving DecidableEq

inductive InvitePolicy where
  | membersOnly | open_
deriving DecidableEq

structure Org where
  name : String
  slug : String
  sessionInvitePolicy : InvitePolicy
deriving DecidableEq

inductive Role where
  | creator | member
deriving DecidableEq

structure Ticket where
  email : String
  tokenHash : String
  expiresAt : Int
  acceptedAt : Option Int
  acceptedBy : Option String
deriving DecidableEq

structure OrgInvite where
  orgID : String
  ticket : Ticket
deriving DecidableEq

structure Session where
  orgID : String
  name : String
  goal : String
  writableScope : String
  defaultMode : String
  status : String
  finalizeLockedBy : Option String
  endReason : Option String
  endedAt : Option Int
deriving DecidableEq

/-- A session member, by session and account: the table has the organisation beside the key. -/
structure SessionMember where
  orgID : String
  role : Role
deriving DecidableEq

structure SessionInvite where
  orgID : String
  sessionID : String
  ticket : Ticket
deriving DecidableEq

inductive PlanMode where
  | squash | preserve
deriving DecidableEq

structure FinalizeLock where
  id : String
  orgID : String
  sessionID : String
  acquiredBy : String
  acquiredAt : Int
  lastActivityAt : Int
  selectedCommitSHAs : String
  targetBranch : String
  baseSHA : String
  mode : PlanMode
  commitMessage : Option String
  supersededBy : Option String
  releasedAt : Option Int
deriving DecidableEq

def FinalizeLock.active (l : FinalizeLock) : Bool := l.supersededBy.isNone && l.releasedAt.isNone

abbrev Table (K V : Type) := Finmap (fun _ : K => V)

def Table.keep {K V : Type} (t : Table K V) (p : K → V → Bool) : Table K V where
  entries := t.entries.filter (fun e => p e.1 e.2)
  nodupKeys := by
    have hle : (t.entries.filter (fun e => p e.1 e.2)).keys ≤ t.entries.keys := Multiset.map_le_map (Multiset.filter_le _ _)
    exact Multiset.nodup_keys.1 (Multiset.nodup_of_le hle (Multiset.nodup_keys.2 t.nodupKeys))

theorem Table.lookup_keep {K V : Type} [DecidableEq K] (t : Table K V) (p : K → V → Bool) (k : K) (v : V) :
    (Table.keep t p).lookup k = some v ↔ t.lookup k = some v ∧ p k v = true := by
  rw [Finmap.lookup_eq_some_iff, Finmap.lookup_eq_some_iff]
  exact Multiset.mem_filter

structure Db where
  accounts : Table String Account
  orgs : Table String Org
  orgMembers : Table (String × String) Role
  orgInvites : Table String OrgInvite
  sessions : Table String Session
  sessionMembers : Table (String × String) SessionMember
  sessionInvites : Table String SessionInvite
  finalizeLocks : List FinalizeLock

/-! ## The store -/

inductive StoreErr where
  | notFound | uniqueViolation
  | other (text : String)
deriving DecidableEq

def StoreErr.text : StoreErr → String
  | notFound => "store: not found"
  | uniqueViolation => "store: unique violation"
  | other text => text

abbrev Store (α : Type) := Except StoreErr α

inductive StoreCall where
  | getOrgMember | createOrg | createOrgRetry | addOrgMember | insertOrgInvite | getOrg | getOrgInvite | getSession
  | getSessionMember | getTargetMember | createSession | addSessionMember | deleteSession | insertSessionInvite
  | getSessionInvite | removeSessionMember | beginTx | markAccepted | commit | checkSession | getFinalizeLock | getActiveLock
  | insertLock | updateCuration | refetchLock | releaseLock | supersedeLock | setSessionLock | clearSessionLock
  | updateSessionStatus | setEndReason | updateSession | refetchSession
deriving DecidableEq

def call {α : Type} (down : StoreCall → Option String) (site : StoreCall) (answer : Store α) : Store α :=
  match down site with
  | some text => .error (.other text)
  | none => answer

def found {α : Type} : Option α → Store α
  | some a => .ok a
  | none => .error .notFound

def foreignKey : StoreErr := .other "foreign key violation"

def getOrgMember (db : Db) (orgID accountID : String) : Store Role := found (db.orgMembers.lookup (orgID, accountID))

def getOrgByID (db : Db) (id : String) : Store Org := found (db.orgs.lookup id)

/-- `CreateOrg`: the id and the slug are unique. -/
def insertOrg (db : Db) (id : String) (org : Org) : Store Db :=
  if id ∈ db.orgs ∨ ∃ o ∈ db.orgs.keys, (db.orgs.lookup o).map (·.slug) = some org.slug then .error .uniqueViolation
  else .ok { db with orgs := db.orgs.insert id org }

def addOrgMember (db : Db) (orgID accountID : String) (role : Role) : Store Db :=
  if (orgID, accountID) ∈ db.orgMembers then .error .uniqueViolation
  else if orgID ∉ db.orgs ∨ accountID ∉ db.accounts then .error foreignKey
  else .ok { db with orgMembers := db.orgMembers.insert (orgID, accountID) role }

def insertOrgInvite (db : Db) (id : String) (invite : OrgInvite) : Store Db :=
  if id ∈ db.orgInvites ∨
      ∃ i ∈ db.orgInvites.keys, (db.orgInvites.lookup i).map (·.ticket.tokenHash) = some invite.ticket.tokenHash then
    .error .uniqueViolation
  else if invite.orgID ∉ db.orgs then .error foreignKey
  else .ok { db with orgInvites := db.orgInvites.insert id invite }

def getOrgInviteByID (db : Db) (id : String) : Store OrgInvite := found (db.orgInvites.lookup id)

def Ticket.accept (t : Ticket) (now : Int) (accountID : String) : Ticket :=
  if t.acceptedAt.isSome then t else { t with acceptedAt := some now, acceptedBy := some accountID }

/-- `MarkOrgInviteAccepted`: no row is an update of none. -/
def markOrgInviteAccepted (db : Db) (id : String) (now : Int) (accountID : String) : Db :=
  match db.orgInvites.lookup id with
  | none => db
  | some invite =>
    { db with orgInvites := db.orgInvites.insert id { invite with ticket := invite.ticket.accept now accountID } }

/-- `GetSession` wants the session's own organisation. -/
def getSession (db : Db) (orgID id : String) : Store Session :=
  found ((db.sessions.lookup id).filter (fun s => s.orgID = orgID))

def getSessionMember (db : Db) (orgID sessionID accountID : String) : Store SessionMember :=
  found ((db.sessionMembers.lookup (sessionID, accountID)).filter (fun m => m.orgID = orgID))

def insertSession (db : Db) (id : String) (session : Session) : Store Db :=
  if id ∈ db.sessions then .error .uniqueViolation
  else if session.orgID ∉ db.orgs then .error foreignKey
  else if session.defaultMode ∉ ["sync", "isolated"] then .error (.other "check constraint violation")
  else .ok { db with sessions := db.sessions.insert id session }

/-- `AddSessionMember`: the organisation and the session need to exist, not to belong together. -/
def addSessionMember (db : Db) (orgID sessionID accountID : String) (role : Role) : Store Db :=
  if (sessionID, accountID) ∈ db.sessionMembers then .error .uniqueViolation
  else if orgID ∉ db.orgs ∨ sessionID ∉ db.sessions ∨ accountID ∉ db.accounts then .error foreignKey
  else .ok { db with sessionMembers := db.sessionMembers.insert (sessionID, accountID) ⟨orgID, role⟩ }

def removeSessionMember (db : Db) (orgID sessionID accountID : String) : Db :=
  match getSessionMember db orgID sessionID accountID with
  | .ok _ => { db with sessionMembers := db.sessionMembers.erase (sessionID, accountID) }
  | .error _ => db

/-- `DeleteSession`: members, invites and finalize locks go with the session. -/
def deleteSession (db : Db) (orgID id : String) : Db :=
  match getSession db orgID id with
  | .error _ => db
  | .ok _ =>
    { db with
      sessions := db.sessions.erase id
      sessionMembers := Table.keep db.sessionMembers (fun k _ => k.1 ≠ id)
      sessionInvites := Table.keep db.sessionInvites (fun _ i => i.sessionID ≠ id)
      finalizeLocks := db.finalizeLocks.filter (fun l => l.sessionID ≠ id) }

def insertSessionInvite (db : Db) (id : String) (invite : SessionInvite) : Store Db :=
  if id ∈ db.sessionInvites ∨
      ∃ i ∈ db.sessionInvites.keys, (db.sessionInvites.lookup i).map (·.ticket.tokenHash) = some invite.ticket.tokenHash then
    .error .uniqueViolation
  else if invite.orgID ∉ db.orgs ∨ invite.sessionID ∉ db.sessions then .error foreignKey
  else .ok { db with sessionInvites := db.sessionInvites.insert id invite }

def getSessionInviteByID (db : Db) (id : String) : Store SessionInvite := found (db.sessionInvites.lookup id)

def markSessionInviteAccepted (db : Db) (id : String) (now : Int) (accountID : String) : Db :=
  match db.sessionInvites.lookup id with
  | none => db
  | some invite =>
    { db with sessionInvites := db.sessionInvites.insert id { invite with ticket := invite.ticket.accept now accountID } }

def updateSession (db : Db) (orgID id : String) (f : Session → Session) : Db :=
  match getSession db orgID id with
  | .error _ => db
  | .ok s => { db with sessions := db.sessions.insert id (f s) }

def getFinalizeLockByID (db : Db) (id : String) : Store FinalizeLock := found (db.finalizeLocks.find? (fun l => l.id = id))

def latest : List FinalizeLock → Option FinalizeLock
  | [] => none
  | l :: ls =>
    match latest ls with
    | none => some l
    | some m => if m.acquiredAt ≤ l.acquiredAt then some l else some m

/-- `GetActiveFinalizeLockForSession`: the latest of the active ones. -/
def getActiveFinalizeLock (db : Db) (sessionID : String) : Store FinalizeLock :=
  found (latest (db.finalizeLocks.filter (fun l => l.sessionID = sessionID && l.active)))

def insertFinalizeLock (db : Db) (lock : FinalizeLock) : Store Db :=
  if (∃ l ∈ db.finalizeLocks, l.id = lock.id) ∨ ∃ l ∈ db.finalizeLocks, l.active ∧ l.sessionID = lock.sessionID then
    .error .uniqueViolation
  else if lock.orgID ∉ db.orgs ∨ lock.sessionID ∉ db.sessions ∨ lock.acquiredBy ∉ db.accounts then .error foreignKey
  else .ok { db with finalizeLocks := db.finalizeLocks ++ [lock] }

def updateLock (db : Db) (id : String) (f : FinalizeLock → FinalizeLock) : Db :=
  { db with finalizeLocks := db.finalizeLocks.map (fun l => if l.id = id then f l else l) }

def releaseFinalizeLock (db : Db) (id : String) (now : Int) : Db :=
  updateLock db id (fun l => if l.releasedAt.isNone then { l with releasedAt := some now } else l)

/-- `ReleaseFinalizeLockIfStale`, with whether a row was changed. -/
def releaseFinalizeLockIfStale (db : Db) (id : String) (now cutoff : Int) : Db × Bool :=
  (updateLock db id (fun l =>
      if l.releasedAt.isNone && l.lastActivityAt < cutoff then { l with releasedAt := some now } else l),
    db.finalizeLocks.any (fun l => l.id = id && l.releasedAt.isNone && l.lastActivityAt < cutoff))

def supersedeFinalizeLock (db : Db) (id newID : String) : Db := updateLock db id (fun l => { l with supersededBy := some newID })

end Jamsesh.Portal
