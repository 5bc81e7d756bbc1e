import Jamsesh.Portal
/-!
# Handlers — organisations, sessions and their invites (`accounts/orgs.go`, `accounts/handlers.go`, `sessions/handler.go`,
`sessions/invites.go`, `sessions/members.go`)

A call is a request with the account of its bearer token, the time, the ids and tokens that are drawn for it, and the store
calls that fail.  It leaves the tables and a reply; the bodies of successful replies are left out.
-/
namespace Jamsesh.Portal

open Text

/-- Libraries and the deployment: SHA-256 of an invite token, Unicode folding and lower case, the check of scope patterns, and
the database. -/
structure Env where
  hashToken : String → String
  fold : Char → Char
  toLower : Char → Char
  validateWritableScope : String → Option String
  postgres : Bool

inductive Reply where
  | ok (status : Nat)
  /-- The 201 of an acquired lock. -/
  | locked (lockID : String)
  | fail (status : Nat) (error message : String)
  | conflict (error message : String) (details : List (String × String))
  | err (text : String)
deriving DecidableEq

structure Ctx where
  caller : Option String
  now : Int
  down : StoreCall → Option String

def requireAccount (db : Db) (ctx : Ctx) : Option (String × Account) :=
  ctx.caller.bind (fun id => (db.accounts.lookup id).map (fun acc => (id, acc)))

def invalidToken : Reply := .fail 401 "auth.invalid_token" "invalid token"

def forbidden (message : String) : Reply := .fail 403 "auth.insufficient_permission" message

def equalFold (env : Env) (s t : String) : Bool := s.toList.map env.fold = t.toList.map env.fold

-- seven days, in nanoseconds
def inviteTTL : Int := 7 * 24 * 3600 * 1000000000

/-- `WithTx`.  The body says whether a statement of its failed on the way; Postgres then refuses the commit. -/
def withTx {ε α : Type} (env : Env) (ctx : Ctx) (wrap : String → ε) (db : Db) (body : Db → Except ε (Db × α × Bool)) :
    Except ε (Db × α) :=
  match ctx.down .beginTx with
  | some text => .error (wrap ("store: begin tx: " ++ text))
  | none =>
    match body db with
    | .error e => .error e
    | .ok (db', a, failed) =>
      if failed && env.postgres then .error (wrap "store: commit tx: commit unexpectedly resulted in rollback")
      else match ctx.down .commit with
        | some text => .error (wrap ("store: commit tx: " ++ text))
        | none => .ok (db', a)

def checkTicket (env : Env) (t : Ticket) (token : String) (now : Int) (email : String) : Option Reply :=
  if env.hashToken token ≠ t.tokenHash then some invalidToken
  else if now > t.expiresAt then some (.fail 401 "auth.invalid_token" "invite expired")
  else if t.acceptedAt.isSome then some (.fail 409 "invite.already_accepted" "invite already accepted")
  else if !equalFold env t.email email then some (forbidden "invite is not for this account")
  else none

/-- Whether sending the invite's mail is an error: an unconfigured sender is none. -/
inductive SendResult where
  | sent | notEnabled
  | failed (text : String)
deriving DecidableEq

def sendReply (ctx : String) : SendResult → Reply
  | .failed text => .err (ctx ++ text)
  | _ => .ok 201

/-! ## Organisations -/

def isSlugChar (c : Char) : Bool := ('a' ≤ c && c ≤ 'z') || ('0' ≤ c && c ≤ '9')

def hyphenate : Bool → Text → Text
  | _, [] => []
  | inRun, c :: s =>
    if isSlugChar c then c :: hyphenate false s
    else if inRun then hyphenate true s else '-' :: hyphenate true s

def slugFromName (env : Env) (name : String) : String :=
  String.ofList (((hyphenate false (name.toList.map env.toLower)).dropWhile (· == '-')).rdropWhile (· == '-'))

structure CreateOrg where
  ctx : Ctx
  name : String
  id : String
  retryID : String
  suffix : String

/-- `CreateOrgWithSlug`: the new organisation's id and the tables with it. -/
def createOrgWithSlug (env : Env) (db : Db) (r : CreateOrg) : Except String (String × Db) :=
  match call r.ctx.down .createOrg (insertOrg db r.id ⟨r.name, slugFromName env r.name, .membersOnly⟩) with
  | .ok db' => .ok (r.id, db')
  | .error .uniqueViolation =>
    match call r.ctx.down .createOrgRetry
        (insertOrg db r.retryID ⟨r.name, slugFromName env r.name ++ "-" ++ r.suffix, .membersOnly⟩) with
    | .ok db' => .ok (r.retryID, db')
    | .error e => .error ("auth: create org (retry): " ++ e.text)
  | .error e => .error ("auth: create org: " ++ e.text)

def createOrg (env : Env) (db : Db) (r : CreateOrg) : Db × Reply :=
  match requireAccount db r.ctx with
  | none => (db, invalidToken)
  | some (accountID, _) =>
    match createOrgWithSlug env db r with
    | .error e => (db, .err ("accounts: create org: " ++ e))
    | .ok (orgID, db') =>
      -- not in one transaction with the insert above
      match call r.ctx.down .addOrgMember (addOrgMember db' orgID accountID .creator) with
      | .error e => (db', .err ("accounts: add org member: " ++ e.text))
      | .ok db'' => (db'', .ok 201)

/-- `RequireOrgRole`, behind the bearer check: any failure is the same refusal. -/
def requireOrgRole (db : Db) (ctx : Ctx) (accountID orgID : String) (roles : List Role) : Option Reply :=
  if orgID = "" then some (forbidden "insufficient permission")
  else match call ctx.down .getOrgMember (getOrgMember db orgID accountID) with
    | .error _ => some (forbidden "insufficient permission")
    | .ok role => if role ∈ roles then none else some (forbidden "insufficient permission")

structure CreateOrgInvite where
  ctx : Ctx
  orgID : String
  email : String
  id : String
  token : String
  send : SendResult

def createOrgInvite (env : Env) (db : Db) (r : CreateOrgInvite) : Db × Reply :=
  match requireAccount db r.ctx with
  | none => (db, invalidToken)
  | some (accountID, _) =>
    match requireOrgRole db r.ctx accountID r.orgID [.creator] with
    | some reply => (db, reply)
    | none =>
      match call r.ctx.down .insertOrgInvite
          (insertOrgInvite db r.id ⟨r.orgID, ⟨r.email, env.hashToken r.token, r.ctx.now + inviteTTL, none, none⟩⟩) with
      | .error e => (db, .err ("accounts: insert org invite: " ++ e.text))
      | .ok db' =>
        match call r.ctx.down .getOrg (getOrgByID db' r.orgID) with
        | .error e => (db', .err ("accounts: get org (org=" ++ r.orgID ++ "): " ++ e.text))
        | .ok _ => (db', sendReply "accounts: send invite email: " r.send)

structure AcceptOrgInvite where
  ctx : Ctx
  orgID : String
  inviteID : String
  token : String

def acceptOrgTx (r : AcceptOrgInvite) (accountID : String) (db : Db) : Except String (Db × Unit × Bool) :=
  match call r.ctx.down .markAccepted (.ok (markOrgInviteAccepted db r.inviteID r.ctx.now accountID)) with
  | .error e => .error ("mark invite accepted: " ++ e.text)
  | .ok db' =>
    match call r.ctx.down .addOrgMember (addOrgMember db' r.orgID accountID .member) with
    -- already a member
    | .error .uniqueViolation => .ok (db', (), true)
    | .error e => .error ("add org member: " ++ e.text)
    | .ok db'' =>
      match call r.ctx.down .getOrg (getOrgByID db'' r.orgID) with
      | .error e => .error ("get org: " ++ e.text)
      | .ok _ => .ok (db'', (), false)

def acceptOrgInvite (env : Env) (db : Db) (r : AcceptOrgInvite) : Db × Reply :=
  match requireAccount db r.ctx with
  | none => (db, invalidToken)
  | some (accountID, acc) =>
    match call r.ctx.down .getOrgInvite (getOrgInviteByID db r.inviteID) with
    | .error .notFound => (db, invalidToken)
    | .error e => (db, .err ("accounts: get org invite (id=" ++ r.inviteID ++ "): " ++ e.text))
    | .ok invite =>
      match checkTicket env invite.ticket r.token r.ctx.now acc.email with
      | some reply => (db, reply)
      | none =>
        match withTx env r.ctx id db (acceptOrgTx r accountID) with
        | .error e => (db, .err ("accounts: accept org invite tx: " ++ e))
        | .ok (db', _) => (db', .ok 200)

/-! ## Sessions -/

structure CreateSession where
  ctx : Ctx
  orgID : String
  name : String
  goal : String
  scope : String
  defaultMode : String
  id : String
  repoErr : Option String

def createSessionTx (r : CreateSession) (accountID : String) (db : Db) : Except String (Db × Unit × Bool) :=
  match call r.ctx.down .createSession
      (insertSession db r.id ⟨r.orgID, r.name, r.goal, r.scope, r.defaultMode, "active", none, none, none⟩) with
  | .error e => .error ("insert session: " ++ e.text)
  | .ok db' =>
    match call r.ctx.down .addSessionMember (addSessionMember db' r.orgID r.id accountID .creator) with
    | .error e => .error ("insert session member: " ++ e.text)
    | .ok db'' => .ok (db'', (), false)

def createSession (env : Env) (db : Db) (r : CreateSession) : Db × Reply :=
  match requireAccount db r.ctx with
  | none => (db, invalidToken)
  | some (accountID, _) =>
    match call r.ctx.down .getOrgMember (getOrgMember db r.orgID accountID) with
    | .error .notFound => (db, forbidden "not a member of this org")
    | .error e => (db, .err ("sessions: get org member: " ++ e.text))
    | .ok _ =>
      match env.validateWritableScope r.scope with
      | some msg => (db, .fail 400 "session.invalid_writable_scope" msg)
      | none =>
        match withTx env r.ctx id db (createSessionTx r accountID) with
        | .error e => (db, .err ("sessions: create transaction: " ++ e))
        | .ok (db', _) =>
          match r.repoErr with
          | none => (db', .ok 201)
          -- the session goes again, if the store lets it
          | some text =>
            match call r.ctx.down .deleteSession (.ok (deleteSession db' r.orgID r.id)) with
            | .ok db'' => (db'', .err ("sessions: create repo: " ++ text))
            | .error _ => (db', .err ("sessions: create repo: " ++ text))

structure InviteToSession where
  ctx : Ctx
  orgID : String
  sessionID : String
  email : String
  id : String
  token : String
  send : SendResult

def inviteToSession (env : Env) (db : Db) (r : InviteToSession) : Db × Reply :=
  match requireAccount db r.ctx with
  | none => (db, invalidToken)
  | some (accountID, _) =>
    match call r.ctx.down .getOrgMember (getOrgMember db r.orgID accountID) with
    | .error .notFound => (db, forbidden "not a member of this org")
    | .error e => (db, .err ("sessions: invite: get org member: " ++ e.text))
    | .ok _ =>
      match call r.ctx.down .getSession (getSession db r.orgID r.sessionID) with
      | .error .notFound => (db, .fail 404 "session.not_found" "session not found")
      | .error e => (db, .err ("sessions: invite: get session: " ++ e.text))
      | .ok _ =>
        match call r.ctx.down .getSessionMember (getSessionMember db r.orgID r.sessionID accountID) with
        | .error .notFound => (db, forbidden "not a member of this session")
        | .error e => (db, .err ("sessions: invite: get session member: " ++ e.text))
        | .ok _ =>
          match call r.ctx.down .insertSessionInvite (insertSessionInvite db r.id ⟨r.orgID, r.sessionID,
              ⟨r.email, env.hashToken r.token, r.ctx.now + inviteTTL, none, none⟩⟩) with
          | .error e => (db, .err ("sessions: invite: insert invite: " ++ e.text))
          | .ok db' => (db', sendReply "sessions: invite: send email: " r.send)

structure AcceptSessionInvite where
  ctx : Ctx
  orgID : String
  sessionID : String
  inviteID : String
  token : String

def acceptSessionTx (r : AcceptSessionInvite) (accountID : String) (db : Db) : Except String (Db × Unit × Bool) :=
  match call r.ctx.down .markAccepted (.ok (markSessionInviteAccepted db r.inviteID r.ctx.now accountID)) with
  | .error e => .error ("mark invite accepted: " ++ e.text)
  | .ok db' =>
    match call r.ctx.down .addSessionMember (addSessionMember db' r.orgID r.sessionID accountID .member) with
    -- already a member
    | .error .uniqueViolation => .ok (db', (), true)
    | .error e => .error ("add session member: " ++ e.text)
    | .ok db'' => .ok (db'', (), false)

def checkInvitePolicy (db : Db) (ctx : Ctx) (orgID accountID : String) : Option Reply :=
  match call ctx.down .getOrg (getOrgByID db orgID) with
  | .error e => some (.err ("sessions: accept invite: get org: " ++ e.text))
  | .ok org =>
    if org.sessionInvitePolicy = .membersOnly then
      match call ctx.down .getOrgMember (getOrgMember db orgID accountID) with
      | .error .notFound => some (.fail 403 "auth.org_membership_required"
          "this org requires you to be a member before joining sessions; ask an org admin to add you first")
      | .error e => some (.err ("sessions: accept invite: get org member: " ++ e.text))
      | .ok _ => none
    else none

def acceptSessionInvite (env : Env) (db : Db) (r : AcceptSessionInvite) : Db × Reply :=
  match requireAccount db r.ctx with
  | none => (db, invalidToken)
  | some (accountID, acc) =>
    match call r.ctx.down .getSessionInvite (getSessionInviteByID db r.inviteID) with
    | .error .notFound => (db, invalidToken)
    | .error e => (db, .err ("sessions: accept invite: get invite: " ++ e.text))
    | .ok invite =>
      match checkTicket env invite.ticket r.token r.ctx.now acc.email with
      | some reply => (db, reply)
      | none =>
        match checkInvitePolicy db r.ctx r.orgID accountID with
        | some reply => (db, reply)
        | none =>
          match withTx env r.ctx id db (acceptSessionTx r accountID) with
          | .error e => (db, .err ("sessions: accept invite tx: " ++ e))
          | .ok (db', _) =>
            match call r.ctx.down .getSession (getSession db' r.orgID r.sessionID) with
            | .error e => (db', .err ("sessions: accept invite: get session: " ++ e.text))
            | .ok _ => (db', .ok 200)

structure RemoveSessionMember where
  ctx : Ctx
  orgID : String
  sessionID : String
  accountID : String

/-- `RemoveSessionMember`, for the session's creator. -/
def removeMember (db : Db) (r : RemoveSessionMember) : Db × Reply :=
  match requireAccount db r.ctx with
  | none => (db, invalidToken)
  | some (callerID, _) =>
    match call r.ctx.down .getSession (getSession db r.orgID r.sessionID) with
    | .error .notFound => (db, .fail 404 "session.not_found" "session not found")
    | .error e => (db, .err ("sessions: remove member: get session: " ++ e.text))
    | .ok _ =>
      match call r.ctx.down .getSessionMember (getSessionMember db r.orgID r.sessionID callerID) with
      | .error _ => (db, forbidden "only the session creator can remove members")
      | .ok m =>
        if m.role ≠ .creator then (db, forbidden "only the session creator can remove members")
        else if r.accountID = callerID then
          (db, .fail 403 "session.creator_cannot_self_remove" "the session creator cannot remove themselves")
        else
          match call r.ctx.down .getTargetMember (getSessionMember db r.orgID r.sessionID r.accountID) with
          | .error .notFound => (db, .fail 404 "member.not_found" "account is not a member of this session")
          | .error e => (db, .err ("sessions: remove member: get target session member: " ++ e.text))
          | .ok _ =>
            match call r.ctx.down .removeSessionMember (.ok (removeSessionMember db r.orgID r.sessionID r.accountID)) with
            | .error e => (db, .err ("sessions: remove member: " ++ e.text))
            | .ok db' => (db', .ok 204)

end Jamsesh.Portal
