import Jamsesh.FinalizeLocks
/-!
# Effects — what a call can do to the tables

A handler leaves the tables alone, or every check before its writes let the request through and each write went well
(`step_effect`).
-/
namespace Jamsesh.Portal

/-! ## One call after the other -/

inductive Call where
  | createOrg (r : CreateOrg)
  | createOrgInvite (r : CreateOrgInvite)
  | acceptOrgInvite (r : AcceptOrgInvite)
  | createSession (r : CreateSession)
  | inviteToSession (r : InviteToSession)
  | acceptSessionInvite (r : AcceptSessionInvite)
  | removeSessionMember (r : RemoveSessionMember)
  | acquireFinalizeLock (r : AcquireFinalizeLock)
  | patchFinalizeLock (r : PatchFinalizeLock)
  | releaseFinalizeLock (r : ReleaseFinalizeLock)

def handle (env : Env) (db : Db) : Call → Db × Reply
  | .createOrg r => createOrg env db r
  | .createOrgInvite r => createOrgInvite env db r
  | .acceptOrgInvite r => acceptOrgInvite env db r
  | .createSession r => createSession env db r
  | .inviteToSession r => inviteToSession env db r
  | .acceptSessionInvite r => acceptSessionInvite env db r
  | .removeSessionMember r => removeMember db r
  | .acquireFinalizeLock r => acquireFinalizeLock env db r
  | .patchFinalizeLock r => patchFinalizeLock db r
  | .releaseFinalizeLock r => releaseLock db r

def step (env : Env) (db : Db) (c : Call) : Db := (handle env db c).1

variable {α : Type} {a : α} {orgID accountID : String} {env : Env} {r : AcquireFinalizeLock} {existing : Option FinalizeLock}
  {failed : Bool}

/-! ## Store calls that succeed -/

theorem call_ok {down : StoreCall → Option String} {site : StoreCall} {answer : Store α} :
    call down site answer = .ok a ↔ down site = none ∧ answer = .ok a := by
  unfold call
  cases down site <;> simp

theorem found_ok {o : Option α} : found o = .ok a ↔ o = some a := by
  cases o <;> simp [found]

theorem of_check {c : Prop} [Decidable c] {e : StoreErr} {answer : Store α} (h : (if c then .error e else answer) = .ok a) :
    answer = .ok a := by
  split at h
  · cases h
  · exact h

variable {db db' : Db} {ctx : Ctx}

theorem insertOrg_ok {id : String} {org : Org} (h : insertOrg db id org = .ok db') :
    db' = { db with orgs := db.orgs.insert id org } :=
  (Except.ok.inj (of_check h)).symm

theorem addOrgMember_ok {role : Role} : addOrgMember db orgID accountID role = .ok db' ↔
      (orgID, accountID) ∉ db.orgMembers ∧ orgID ∈ db.orgs ∧ accountID ∈ db.accounts ∧
        { db with orgMembers := db.orgMembers.insert (orgID, accountID) role } = db' := by
  unfold addOrgMember
  by_cases hm : (orgID, accountID) ∈ db.orgMembers
  · simp [hm]
  · by_cases ho : orgID ∈ db.orgs <;> by_cases ha : accountID ∈ db.accounts <;> simp [hm, ho, ha]

theorem insertOrgInvite_ok {id : String} {invite : OrgInvite} (h : insertOrgInvite db id invite = .ok db') :
    db' = { db with orgInvites := db.orgInvites.insert id invite } :=
  (Except.ok.inj (of_check (of_check h))).symm

theorem insertSession_ok {id : String} {session : Session} (h : insertSession db id session = .ok db') :
    db' = { db with sessions := db.sessions.insert id session } :=
  (Except.ok.inj (of_check (of_check (of_check h)))).symm

theorem addSessionMember_ok {sessionID : String} {role : Role} :
    addSessionMember db orgID sessionID accountID role = .ok db' ↔
      (sessionID, accountID) ∉ db.sessionMembers ∧ orgID ∈ db.orgs ∧ sessionID ∈ db.sessions ∧ accountID ∈ db.accounts ∧
        { db with sessionMembers := db.sessionMembers.insert (sessionID, accountID) ⟨orgID, role⟩ } = db' := by
  unfold addSessionMember
  by_cases hm : (sessionID, accountID) ∈ db.sessionMembers
  · simp [hm]
  · by_cases ho : orgID ∈ db.orgs <;> by_cases hs : sessionID ∈ db.sessions <;>
      by_cases ha : accountID ∈ db.accounts <;> simp [hm, ho, hs, ha]

theorem insertSessionInvite_ok {id : String} {invite : SessionInvite} (h : insertSessionInvite db id invite = .ok db') :
    db' = { db with sessionInvites := db.sessionInvites.insert id invite } :=
  (Except.ok.inj (of_check (of_check h))).symm

theorem markOrgInviteAccepted_frame (db : Db) (id : String) (now : Int) (accountID : String) :
    ∃ invites, markOrgInviteAccepted db id now accountID = { db with orgInvites := invites } := by
  unfold markOrgInviteAccepted
  cases db.orgInvites.lookup id with
  | none => exact ⟨db.orgInvites, rfl⟩
  | some => exact ⟨_, rfl⟩

theorem markSessionInviteAccepted_frame (db : Db) (id : String) (now : Int) (accountID : String) :
    ∃ invites, markSessionInviteAccepted db id now accountID = { db with sessionInvites := invites } := by
  unfold markSessionInviteAccepted
  cases db.sessionInvites.lookup id with
  | none => exact ⟨db.sessionInvites, rfl⟩
  | some => exact ⟨_, rfl⟩

theorem withTx_ok {ε : Type} {wrap : String → ε} {body : Db → Except ε (Db × α × Bool)} :
    withTx env ctx wrap db body = .ok (db', a) ↔ ctx.down .beginTx = none ∧ ctx.down .commit = none ∧
        ∃ failed, body db = .ok (db', a, failed) ∧ (failed && env.postgres) = false := by
  unfold withTx
  cases ctx.down .beginTx with
  | some => simp
  | none =>
    cases body db with
    | error => simp
    | ok out =>
      obtain ⟨_, -, failed⟩ := out
      cases failed <;> cases env.postgres <;> cases ctx.down .commit <;> simp

/-! ## Acquiring the finalize lock -/

section
variable {db db' : Db} {session : Session}

/-- **The three ways to acquire a lock**: none is in the way, an idle one is, or one that is overridden. -/
inductive Acquired (r : AcquireFinalizeLock) (accountID : String) (db : Db) : Option FinalizeLock → Db → Prop where
  | free {db' : Db} : insertFinalizeLock db (newLock r accountID) = .ok db' → Acquired r accountID db none db'
  | stale {db' : Db} {lock : FinalizeLock} : isLockExpired lock.lastActivityAt r.ctx.now = true →
      insertFinalizeLock (releaseFinalizeLockIfStale db lock.id r.ctx.now (r.ctx.now - finalizeLockTTL)).1
        (newLock r accountID) = .ok db' → Acquired r accountID db (some lock) db'
  | overridden {db' : Db} {lock : FinalizeLock} : isLockExpired lock.lastActivityAt r.ctx.now = false →
      insertFinalizeLock (releaseFinalizeLock db lock.id r.ctx.now) (newLock r accountID) = .ok db' →
        Acquired r accountID db (some lock) (supersedeFinalizeLock db' lock.id r.lockID)

theorem takeOver_ok (h : takeOver r existing db = .ok db') :
    existing = none ∧ db' = db ∨ ∃ lock, existing = some lock ∧ (isLockExpired lock.lastActivityAt r.ctx.now = true ∧
          db' = (releaseFinalizeLockIfStale db lock.id r.ctx.now (r.ctx.now - finalizeLockTTL)).1 ∨
        isLockExpired lock.lastActivityAt r.ctx.now = false ∧ db' = releaseFinalizeLock db lock.id r.ctx.now) := by
  unfold takeOver at h
  split at h
  · cases h
    exact .inl ⟨rfl, rfl⟩
  rename_i lock
  refine .inr ⟨lock, rfl, ?_⟩
  split at h
  · rename_i he
    split at h
    · cases h
    rename_i hc
    split at h <;> cases h
    cases (call_ok.1 hc).2
    exact .inl ⟨he, rfl⟩
  · rename_i he
    split at h <;> cases h
    rename_i hc
    cases (call_ok.1 hc).2
    exact .inr ⟨Bool.eq_false_iff.2 he, rfl⟩

theorem markSuperseded_ok (h : markSuperseded r existing db = .ok db') :
    db' = match existing with
      | none => db
      | some lock =>
        if isLockExpired lock.lastActivityAt r.ctx.now then db else supersedeFinalizeLock db lock.id r.lockID := by
  cases existing with
  | none =>
    cases h
    rfl
  | some =>
    simp only [markSuperseded] at h
    split at h
    · rename_i he
      cases h
      exact (if_pos he).symm
    rename_i he
    split at h <;> cases h
    rename_i hc
    cases (call_ok.1 hc).2
    exact (if_neg he).symm

/-- The columns of the session that the transaction writes: the pointer, and the status where it was read as active. -/
def lockSession (db : Db) (r : AcquireFinalizeLock) (accountID : String) (session : Session) : Db :=
  let db' := updateSession db r.orgID r.sessionID (fun s => { s with finalizeLockedBy := some accountID })
  if session.status = "active" then updateSession db' r.orgID r.sessionID (fun s => { s with status := "finalizing" }) else db'

theorem acquireTx_ok (h : acquireTx r accountID session existing db = .ok (db', (), failed)) :
    ∃ db₁, Acquired r accountID db existing db₁ ∧ db' = lockSession db₁ r accountID session := by
  unfold acquireTx at h
  split at h
  · cases h
  rename_i ht
  split at h
  · cases h
  rename_i hi
  split at h
  · cases h
  rename_i db₃ hm
  have hacquired : Acquired r accountID db existing db₃ := by
    have hi := (call_ok.1 hi).2
    have hm := markSuperseded_ok hm
    obtain ⟨rfl, rfl⟩ | ⟨_, rfl, ⟨he, rfl⟩ | ⟨he, rfl⟩⟩ := takeOver_ok ht
    · rw [hm]
      exact .free hi
    · rw [hm]
      simp only [he]
      exact .stale he hi
    · rw [hm]
      simp only [he]
      exact .overridden he hi
  refine ⟨db₃, hacquired, ?_⟩
  split at h
  · cases h
  rename_i hset
  cases (call_ok.1 hset).2
  unfold lockSession
  split at h
  · rename_i ha
    split at h <;> cases h
    rename_i hs
    cases (call_ok.1 hs).2
    rw [if_pos ha]
  · rename_i ha
    cases h
    rw [if_neg ha]

end

/-! ## Requests that are let through -/

/-- A live invite of the caller's: the token is its own, the time has not run out, nobody has accepted it, and it is for the
caller's address. -/
structure Ticket.Live (env : Env) (t : Ticket) (token : String) (now : Int) (email : String) : Prop where
  token : env.hashToken token = t.tokenHash
  unexpired : now ≤ t.expiresAt
  unaccepted : t.acceptedAt = none
  addressed : equalFold env t.email email = true

theorem checkTicket_none {t : Ticket} {token : String} {now : Int} {email : String} :
    checkTicket env t token now email = none ↔ t.Live env token now email := by
  unfold checkTicket
  constructor
  · intro h
    split at h
    · cases h
    split at h
    · cases h
    split at h
    · cases h
    split at h
    · cases h
    · rename_i ht he ha hm
      exact ⟨not_not.1 ht, not_lt.1 he, by simpa using ha, by simpa using hm⟩
  · rintro ⟨ht, he, ha, hm⟩
    simp [ht, ha, hm, he]

theorem requireAccount_mem {acc : Account}
    (h : requireAccount db ctx = some (accountID, acc)) : accountID ∈ db.accounts := by
  unfold requireAccount at h
  obtain ⟨_, -, ha⟩ := Option.bind_eq_some_iff.1 h
  obtain ⟨_, hl, heq⟩ := Option.map_eq_some_iff.1 ha
  cases heq
  exact Finmap.mem_of_lookup_eq_some hl

structure PresentsOrgInvite (env : Env) (db : Db) (r : AcceptOrgInvite) (accountID : String) (invite : OrgInvite) : Prop where
  caller : ∃ acc, requireAccount db r.ctx = some (accountID, acc) ∧ invite.ticket.Live env r.token r.ctx.now acc.email
  stored : db.orgInvites.lookup r.inviteID = some invite

structure PresentsSessionInvite (env : Env) (db : Db) (r : AcceptSessionInvite) (accountID : String)
    (invite : SessionInvite) : Prop where
  caller : ∃ acc, requireAccount db r.ctx = some (accountID, acc) ∧ invite.ticket.Live env r.token r.ctx.now acc.email
  stored : db.sessionInvites.lookup r.inviteID = some invite

def Writes : Call → String → Prop
  | .acquireFinalizeLock _, list => list = "[]"
  | .patchFinalizeLock r, list => ∃ body, r.body = some body ∧ list = marshal body.selectedCommitSHAs
  | _, _ => False

/-- Only finalize locks and rows of sessions change, and each curated list is an allowed one or was there before. -/
structure Touches (allowed : String → Prop) (db db' : Db) : Prop where
  frame : ∃ locks sessions, db' = { db with finalizeLocks := locks, sessions := sessions }
  lists : ∀ l' ∈ db'.finalizeLocks, allowed l'.selectedCommitSHAs ∨
    ∃ l ∈ db.finalizeLocks, l.selectedCommitSHAs = l'.selectedCommitSHAs

/-- **What a call can do**: nothing, or the writes of its handler behind the handler's checks. -/
inductive Effect (env : Env) (db : Db) : Call → Db → Prop where
  | same (c : Call) : Effect env db c db
  | orgCreated {r : CreateOrg} {orgID : String} {db' : Db} (created : createOrgWithSlug env db r = .ok (orgID, db')) :
      Effect env db (.createOrg r) db'
  | orgFounded {r : CreateOrg} {accountID orgID : String} {acc : Account} {db' db'' : Db}
      (caller : requireAccount db r.ctx = some (accountID, acc)) (created : createOrgWithSlug env db r = .ok (orgID, db'))
      (added : addOrgMember db' orgID accountID .creator = .ok db'') : Effect env db (.createOrg r) db''
  | orgInvited {r : CreateOrgInvite} {invite : OrgInvite} {db' : Db} (inserted : insertOrgInvite db r.id invite = .ok db') :
      Effect env db (.createOrgInvite r) db'
  | orgAccepted {r : AcceptOrgInvite} {accountID : String} {invite : OrgInvite} {db' : Db}
      (presents : PresentsOrgInvite env db r accountID invite) (up : r.ctx.down .getOrgInvite = none)
      (committed : withTx env r.ctx id db (acceptOrgTx r accountID) = .ok (db', ())) : Effect env db (.acceptOrgInvite r) db'
  | sessionCreated {r : CreateSession} {accountID : String} {acc : Account} {db' : Db}
      (caller : requireAccount db r.ctx = some (accountID, acc))
      (committed : withTx env r.ctx id db (createSessionTx r accountID) = .ok (db', ())) : Effect env db (.createSession r) db'
  | sessionUndone {r : CreateSession} {accountID : String} {acc : Account} {db' : Db}
      (caller : requireAccount db r.ctx = some (accountID, acc))
      (committed : withTx env r.ctx id db (createSessionTx r accountID) = .ok (db', ())) :
      Effect env db (.createSession r) (deleteSession db' r.orgID r.id)
  | sessionInvited {r : InviteToSession} {invite : SessionInvite} {db' : Db}
      (inserted : insertSessionInvite db r.id invite = .ok db') : Effect env db (.inviteToSession r) db'
  | sessionAccepted {r : AcceptSessionInvite} {accountID : String} {invite : SessionInvite} {db' : Db}
      (presents : PresentsSessionInvite env db r accountID invite) (up : r.ctx.down .getSessionInvite = none)
      (policy : checkInvitePolicy db r.ctx r.orgID accountID = none)
      (committed : withTx env r.ctx id db (acceptSessionTx r accountID) = .ok (db', ())) :
      Effect env db (.acceptSessionInvite r) db'
  | memberRemoved (r : RemoveSessionMember) :
      Effect env db (.removeSessionMember r) (removeSessionMember db r.orgID r.sessionID r.accountID)
  | lockTouched {c : Call} {db' : Db} (touches : Touches (Writes c) db db') : Effect env db c db'

/-! ### Organisations and sessions

A handler is followed check by check: one that fails ends the call with the tables as they are. -/

theorem createOrg_effect (env : Env) (db : Db) (r : CreateOrg) : Effect env db (.createOrg r) (createOrg env db r).1 := by
  unfold createOrg
  split
  · exact .same _
  rename_i hc
  split
  · exact .same _
  rename_i hn
  split
  · exact .orgCreated hn
  · rename_i ha
    exact .orgFounded hc hn (call_ok.1 ha).2

theorem createOrgInvite_effect (env : Env) (db : Db) (r : CreateOrgInvite) :
    Effect env db (.createOrgInvite r) (createOrgInvite env db r).1 := by
  unfold createOrgInvite
  iterate 3
    split
    · exact .same _
  rename_i db' hi
  have he : Effect env db (.createOrgInvite r) db' := .orgInvited (call_ok.1 hi).2
  split <;> exact he

theorem acceptOrgInvite_effect (env : Env) (db : Db) (r : AcceptOrgInvite) :
    Effect env db (.acceptOrgInvite r) (acceptOrgInvite env db r).1 := by
  unfold acceptOrgInvite
  split
  · exact .same _
  rename_i acc hc
  split
  · exact .same _
  · exact .same _
  rename_i hg
  split
  · exact .same _
  rename_i ht
  split
  · exact .same _
  rename_i htx
  obtain ⟨hup, hs⟩ := call_ok.1 hg
  exact .orgAccepted ⟨⟨acc, hc, checkTicket_none.1 ht⟩, found_ok.1 hs⟩ hup htx

theorem createSession_effect (env : Env) (db : Db) (r : CreateSession) :
    Effect env db (.createSession r) (createSession env db r).1 := by
  unfold createSession
  split
  · exact .same _
  rename_i hc
  split
  · exact .same _
  · exact .same _
  split
  · exact .same _
  split
  · exact .same _
  rename_i htx
  split
  · exact .sessionCreated hc htx
  split
  · rename_i hd
    cases (call_ok.1 hd).2
    exact .sessionUndone hc htx
  · exact .sessionCreated hc htx

theorem inviteToSession_effect (env : Env) (db : Db) (r : InviteToSession) :
    Effect env db (.inviteToSession r) (inviteToSession env db r).1 := by
  unfold inviteToSession
  split
  · exact .same _
  iterate 3
    split
    · exact .same _
    · exact .same _
  split
  · exact .same _
  rename_i hi
  exact .sessionInvited (call_ok.1 hi).2

theorem acceptSessionInvite_effect (env : Env) (db : Db) (r : AcceptSessionInvite) :
    Effect env db (.acceptSessionInvite r) (acceptSessionInvite env db r).1 := by
  unfold acceptSessionInvite
  split
  · exact .same _
  rename_i acc hc
  split
  · exact .same _
  · exact .same _
  rename_i hg
  split
  · exact .same _
  rename_i ht
  split
  · exact .same _
  rename_i hp
  split
  · exact .same _
  rename_i db' _ htx
  obtain ⟨hup, hs⟩ := call_ok.1 hg
  have he : Effect env db (.acceptSessionInvite r) db' :=
    .sessionAccepted ⟨⟨acc, hc, checkTicket_none.1 ht⟩, found_ok.1 hs⟩ hup hp htx
  -- the membership stays when the session is not found after the commit
  split <;> exact he

theorem removeMember_effect (env : Env) (db : Db) (r : RemoveSessionMember) :
    Effect env db (.removeSessionMember r) (removeMember db r).1 := by
  unfold removeMember
  split
  · exact .same _
  split
  · exact .same _
  · exact .same _
  iterate 3
    split
    · exact .same _
  split
  · exact .same _
  · exact .same _
  split
  · exact .same _
  rename_i hr
  cases (call_ok.1 hr).2
  exact .memberRemoved r

section
variable {allowed : String → Prop} {db db' db'' : Db}

theorem Touches.refl (allowed : String → Prop) (db : Db) : Touches allowed db db :=
  ⟨⟨db.finalizeLocks, db.sessions, rfl⟩, fun l hl => .inr ⟨l, hl, rfl⟩⟩

theorem Touches.trans (h : Touches allowed db db') (h' : Touches allowed db' db'') : Touches allowed db db'' := by
  obtain ⟨⟨_, _, rfl⟩, hlists⟩ := h
  obtain ⟨⟨locks', sessions', rfl⟩, hlists'⟩ := h'
  refine ⟨⟨locks', sessions', rfl⟩, fun l'' hl'' => ?_⟩
  rcases hlists' l'' hl'' with hn | ⟨l', hl', he'⟩
  · exact .inl hn
  · rcases hlists l' hl' with hn | ⟨l, hl, heq⟩
    · exact .inl (he' ▸ hn)
    · exact .inr ⟨l, hl, heq.trans he'⟩

theorem Touches.updateLock {f : FinalizeLock → FinalizeLock} (db : Db) (id : String)
    (hf : ∀ l, allowed (f l).selectedCommitSHAs ∨ l.selectedCommitSHAs = (f l).selectedCommitSHAs) :
    Touches allowed db (updateLock db id f) := by
  refine ⟨⟨_, db.sessions, rfl⟩, fun _ hl' => ?_⟩
  obtain ⟨l, hl, rfl⟩ := List.mem_map.1 hl'
  by_cases hid : l.id = id
  · rw [if_pos hid]
    exact (hf l).imp_right (fun heq => ⟨l, hl, heq⟩)
  · rw [if_neg hid]
    exact .inr ⟨l, hl, rfl⟩

theorem Touches.release (db : Db) (id : String) (now : Int) : Touches allowed db (releaseFinalizeLock db id now) :=
  Touches.updateLock db id (fun l => .inr (by split <;> rfl))

theorem Touches.updateSession (db : Db) (orgID id : String) (f : Session → Session) :
    Touches allowed db (updateSession db orgID id f) := by
  unfold Portal.updateSession
  split
  · exact .refl allowed db
  · exact ⟨⟨db.finalizeLocks, _, rfl⟩, fun l hl => .inr ⟨l, hl, rfl⟩⟩

theorem Touches.insert {lock : FinalizeLock} (hlock : allowed lock.selectedCommitSHAs)
    (h : insertFinalizeLock db lock = .ok db') : Touches allowed db db' := by
  unfold insertFinalizeLock at h
  split at h
  · cases h
  split at h <;> cases h
  refine ⟨⟨_, db.sessions, rfl⟩, fun l hl => ?_⟩
  rcases List.mem_append.1 hl with hl | hl
  · exact .inr ⟨l, hl, rfl⟩
  · rw [List.mem_singleton.1 hl]
    exact .inl hlock

theorem Acquired.touches (h : Acquired r accountID db existing db') : Touches (· = "[]") db db' := by
  cases h with
  | free hi => exact .insert rfl hi
  | stale _ hi => exact (Touches.updateLock db _ (fun l => .inr (by split <;> rfl))).trans (.insert rfl hi)
  | overridden _ hi =>
    exact .trans (.release db _ _) (.trans (.insert rfl hi) (.updateLock _ _ fun l => .inr rfl))

theorem Acquired.touches_lockSession (h : Acquired r accountID db existing db') (session : Session) :
    Touches (· = "[]") db (lockSession db' r accountID session) := by
  unfold lockSession
  split
  · exact (h.touches.trans (.updateSession db' _ _ _)).trans (.updateSession _ _ _ _)
  · exact h.touches.trans (.updateSession db' _ _ _)

end

/-! ### The finalize lock

What holds of the database as it is and after each write of a handler holds after the handler. -/

theorem membershipReply_some {sessionID : String} {reply : Reply}
    (h : membershipReply db ctx orgID sessionID accountID = some reply) :
    (∃ status error message, reply = .fail status error message) ∨ ∃ text, reply = .err text := by
  unfold membershipReply at h
  split at h
  · cases h
    exact .inr ⟨_, rfl⟩
  · cases h
    exact .inl ⟨_, _, _, rfl⟩
  · cases h
    exact .inl ⟨_, _, _, rfl⟩
  · cases h
    exact .inl ⟨_, _, _, rfl⟩
  · cases h

theorem acquireFinalizeLock_ind {P : Db × Reply → Prop} (refused : ∀ reply, (∀ id, reply ≠ .locked id) → P (db, reply))
    (own : ∀ {accountID acc session lock}, requireAccount db r.ctx = some (accountID, acc) →
      membershipReply db r.ctx r.orgID r.sessionID accountID = none → getSession db r.orgID r.sessionID = .ok session →
      getActiveFinalizeLock db r.sessionID = .ok lock → lock.acquiredBy = accountID → P (db, .locked lock.id))
    (acquired : ∀ {accountID acc session existing db'}, requireAccount db r.ctx = some (accountID, acc) →
      getSession db r.orgID r.sessionID = .ok session →
      (∀ lock, existing = some lock ↔ getActiveFinalizeLock db r.sessionID = .ok lock) →
      (∀ lock, existing = some lock → lock.acquiredBy ≠ accountID) → Acquired r accountID db existing db' →
      P (lockSession db' r accountID session, .locked r.lockID)) : P (acquireFinalizeLock env db r) := by
  unfold acquireFinalizeLock
  split
  · exact refused _ nofun
  rename_i accountID _ hc
  split
  · rename_i hm
    obtain ⟨_, _, _, rfl⟩ | ⟨_, rfl⟩ := membershipReply_some hm <;> exact refused _ nofun
  rename_i hm
  split
  · exact refused _ nofun
  · exact refused _ nofun
  rename_i session hsession
  have hsession := (call_ok.1 hsession).2
  have hacquire : ∀ {existing}, (∀ lock, existing = some lock ↔ getActiveFinalizeLock db r.sessionID = .ok lock) →
      (∀ lock, existing = some lock → lock.acquiredBy ≠ accountID) → P (acquireAs env db r accountID session existing) := by
    intro existing he ho
    unfold acquireAs
    split
    · cases existing <;> exact refused _ nofun
    · exact refused _ nofun
    · exact refused _ nofun
    rename_i htx
    obtain ⟨-, -, _, hb, -⟩ := withTx_ok.1 htx
    obtain ⟨_, ha, rfl⟩ := acquireTx_ok hb
    exact acquired hc hsession he ho ha
  split
  · rename_i hn
    refine hacquire (fun _ => ⟨nofun, fun hlock => ?_⟩) nofun
    rw [hlock, call] at hn
    split at hn <;> cases hn
  · exact refused _ nofun
  rename_i hlock
  have hlock := (call_ok.1 hlock).2
  split
  · rename_i hown
    exact own hc hm hsession hlock hown
  rename_i ho
  split
  · exact refused _ nofun
  · exact hacquire (fun _ => by simp [hlock]) fun _ hl' => by cases hl'; exact ho

theorem patchFinalizeLock_ind {P : Db → Prop} {r : PatchFinalizeLock} (same : P db)
    (expired : ∀ {accountID acc lock}, requireAccount db r.ctx = some (accountID, acc) →
      findLock db r.ctx r.orgID r.sessionID r.lockID = .ok lock → checkHolder lock accountID = none →
      isLockExpired lock.lastActivityAt r.ctx.now = true → P (releaseFinalizeLock db lock.id r.ctx.now))
    (curated : ∀ {lock : FinalizeLock} {body mode}, r.body = some body →
      P (updateFinalizeLockCuration db lock.id body mode r.ctx.now)) : P (patchFinalizeLock db r).1 := by
  unfold patchFinalizeLock
  split
  · exact same
  rename_i hc
  split
  · exact same
  rename_i hb
  split
  · exact same
  split
  · exact same
  rename_i hf
  split
  · exact same
  rename_i hcheck
  split
  · rename_i he
    split
    · exact same
    rename_i hr
    cases (call_ok.1 hr).2
    exact expired hc hf hcheck he
  split
  · exact same
  split
  · exact same
  rename_i hu
  cases (call_ok.1 hu).2
  split <;> exact curated hb

theorem releaseLock_ind {P : Db → Prop} {r : ReleaseFinalizeLock} (same : P db)
    (released : ∀ {lock}, findLock db r.ctx r.orgID r.sessionID r.lockID = .ok lock → lock.releasedAt = none →
      P (clearPointer (releaseFinalizeLock db lock.id r.ctx.now) r lock)) : P (releaseLock db r).1 := by
  unfold releaseLock
  split
  · exact same
  split
  · exact same
  split
  · exact same
  rename_i hf
  split
  · exact same
  split
  · exact same
  rename_i hr
  split
  · exact same
  rename_i hrelease
  cases (call_ok.1 hrelease).2
  exact released hf (by simpa using hr)

theorem clearPointer_touches {allowed : String → Prop} (db : Db) (r : ReleaseFinalizeLock) (lock : FinalizeLock) :
    Touches allowed db (clearPointer db r lock) := by
  unfold clearPointer
  split
  · exact .refl allowed db
  split
  · split
    · exact .refl allowed db
    · rename_i hc
      cases (call_ok.1 hc).2
      exact .updateSession db _ _ _
  · exact .refl allowed db

theorem acquireFinalizeLock_effect (env : Env) (db : Db) (r : AcquireFinalizeLock) :
    Effect env db (.acquireFinalizeLock r) (acquireFinalizeLock env db r).1 :=
  acquireFinalizeLock_ind (P := fun out => Effect env db _ out.1) (fun _ _ => .same _) (fun _ _ _ _ _ => .same _)
    fun _ _ _ _ ha => .lockTouched (ha.touches_lockSession _)

theorem patchFinalizeLock_effect (env : Env) (db : Db) (r : PatchFinalizeLock) :
    Effect env db (.patchFinalizeLock r) (patchFinalizeLock db r).1 :=
  patchFinalizeLock_ind (.same _) (fun _ _ _ _ => .lockTouched (.release db _ _))
    fun hb => .lockTouched (Touches.updateLock db _ (fun _ => .inl ⟨_, hb, rfl⟩))

theorem releaseLock_effect (env : Env) (db : Db) (r : ReleaseFinalizeLock) :
    Effect env db (.releaseFinalizeLock r) (releaseLock db r).1 :=
  releaseLock_ind (.same _) fun _ _ => .lockTouched ((Touches.release db _ _).trans (clearPointer_touches _ r _))

theorem step_effect (env : Env) (db : Db) : ∀ c, Effect env db c (step env db c)
  | .createOrg r => createOrg_effect env db r
  | .createOrgInvite r => createOrgInvite_effect env db r
  | .acceptOrgInvite r => acceptOrgInvite_effect env db r
  | .createSession r => createSession_effect env db r
  | .inviteToSession r => inviteToSession_effect env db r
  | .acceptSessionInvite r => acceptSessionInvite_effect env db r
  | .removeSessionMember r => removeMember_effect env db r
  | .acquireFinalizeLock r => acquireFinalizeLock_effect env db r
  | .patchFinalizeLock r => patchFinalizeLock_effect env db r
  | .releaseFinalizeLock r => releaseLock_effect env db r

/-! ## What is written -/

theorem createOrgWithSlug_ok {r : CreateOrg}
    (h : createOrgWithSlug env db r = .ok (orgID, db')) : ∃ org, db' = { db with orgs := db.orgs.insert orgID org } := by
  unfold createOrgWithSlug at h
  split at h
  · rename_i hi
    cases h
    exact ⟨_, insertOrg_ok (call_ok.1 hi).2⟩
  · split at h <;> cases h
    rename_i hi
    exact ⟨_, insertOrg_ok (call_ok.1 hi).2⟩
  · cases h

theorem acceptOrgTx_ok {r : AcceptOrgInvite} (h : acceptOrgTx r accountID db = .ok (db', (), failed)) :
    r.ctx.down .markAccepted = none ∧ (db'.sessionMembers = db.sessionMembers ∧ db'.finalizeLocks = db.finalizeLocks) ∧
      ((failed = true ∧ db'.orgMembers = db.orgMembers) ∨
        (r.ctx.down .addOrgMember = none ∧ r.ctx.down .getOrg = none ∧ (r.orgID, accountID) ∉ db.orgMembers ∧
          r.orgID ∈ db.orgs ∧ db'.orgMembers = db.orgMembers.insert (r.orgID, accountID) .member)) := by
  unfold acceptOrgTx at h
  obtain ⟨_, hmark⟩ := markOrgInviteAccepted_frame db r.inviteID r.ctx.now accountID
  rw [hmark] at h
  split at h
  · cases h
  rename_i hm
  obtain ⟨hup, hdb⟩ := call_ok.1 hm
  cases hdb
  refine ⟨hup, ?_⟩
  split at h
  · cases h
    exact ⟨⟨rfl, rfl⟩, .inl ⟨rfl, rfl⟩⟩
  · cases h
  rename_i ha
  obtain ⟨hadd, hi⟩ := call_ok.1 ha
  obtain ⟨hmember, ho, -, hdb⟩ := addOrgMember_ok.1 hi
  subst hdb
  split at h <;> cases h
  rename_i hg
  exact ⟨⟨rfl, rfl⟩, .inr ⟨hadd, (call_ok.1 hg).1, hmember, ho, rfl⟩⟩

theorem createSessionTx_ok {r : CreateSession} (h : createSessionTx r accountID db = .ok (db', (), failed)) :
    ∃ sessions, db' = { db with
      sessions := sessions
      sessionMembers := db.sessionMembers.insert (r.id, accountID) ⟨r.orgID, .creator⟩ } := by
  unfold createSessionTx at h
  split at h
  · cases h
  rename_i hi
  have hd₁ := insertSession_ok (call_ok.1 hi).2
  subst hd₁
  split at h
  · cases h
  rename_i ha
  obtain ⟨-, -, -, -, hdb⟩ := addSessionMember_ok.1 (call_ok.1 ha).2
  cases h
  exact ⟨_, hdb.symm⟩

theorem acceptSessionTx_ok {r : AcceptSessionInvite} (h : acceptSessionTx r accountID db = .ok (db', (), failed)) :
    r.ctx.down .markAccepted = none ∧ (db'.orgMembers = db.orgMembers ∧ db'.finalizeLocks = db.finalizeLocks) ∧
      ((failed = true ∧ db'.sessionMembers = db.sessionMembers) ∨
        (r.ctx.down .addSessionMember = none ∧ (r.sessionID, accountID) ∉ db.sessionMembers ∧ r.sessionID ∈ db.sessions ∧
          db'.sessionMembers = db.sessionMembers.insert (r.sessionID, accountID) ⟨r.orgID, .member⟩)) := by
  unfold acceptSessionTx at h
  obtain ⟨_, hmark⟩ := markSessionInviteAccepted_frame db r.inviteID r.ctx.now accountID
  rw [hmark] at h
  split at h
  · cases h
  rename_i hm
  obtain ⟨hup, hdb⟩ := call_ok.1 hm
  cases hdb
  refine ⟨hup, ?_⟩
  split at h
  · cases h
    exact ⟨⟨rfl, rfl⟩, .inl ⟨rfl, rfl⟩⟩
  · cases h
  rename_i ha
  obtain ⟨hadd, hi⟩ := call_ok.1 ha
  obtain ⟨hmember, -, hs, -, hdb⟩ := addSessionMember_ok.1 hi
  subst hdb
  cases h
  exact ⟨⟨rfl, rfl⟩, .inr ⟨hadd, hmember, hs, rfl⟩⟩

theorem removeSessionMember_frame (db : Db) (orgID sessionID accountID : String) :
    removeSessionMember db orgID sessionID accountID = db ∨ removeSessionMember db orgID sessionID accountID =
        { db with sessionMembers := db.sessionMembers.erase (sessionID, accountID) } := by
  unfold removeSessionMember
  split
  · exact .inr rfl
  · exact .inl rfl

theorem deleteSession_locks {id : String} {l : FinalizeLock}
    (h : l ∈ (deleteSession db orgID id).finalizeLocks) : l ∈ db.finalizeLocks := by
  unfold deleteSession at h
  split at h
  · exact h
  · exact (List.mem_filter.1 h).1

theorem Effect.lists {c : Call} (h : Effect env db c db') : ∀ l' ∈ db'.finalizeLocks, Writes c l'.selectedCommitSHAs ∨
      ∃ l ∈ db.finalizeLocks, l.selectedCommitSHAs = l'.selectedCommitSHAs := by
  intro l' hl'
  cases h with
  | same => exact .inr ⟨l', hl', rfl⟩
  | orgCreated created =>
    obtain ⟨_, rfl⟩ := createOrgWithSlug_ok created
    exact .inr ⟨l', hl', rfl⟩
  | orgFounded _ created added =>
    obtain ⟨_, rfl⟩ := createOrgWithSlug_ok created
    obtain ⟨-, -, -, rfl⟩ := addOrgMember_ok.1 added
    exact .inr ⟨l', hl', rfl⟩
  | orgInvited inserted =>
    cases insertOrgInvite_ok inserted
    exact .inr ⟨l', hl', rfl⟩
  | orgAccepted _ _ committed =>
    obtain ⟨-, -, _, htx, -⟩ := withTx_ok.1 committed
    exact .inr ⟨l', (acceptOrgTx_ok htx).2.1.2 ▸ hl', rfl⟩
  | sessionCreated _ committed =>
    obtain ⟨-, -, _, htx, -⟩ := withTx_ok.1 committed
    obtain ⟨_, rfl⟩ := createSessionTx_ok htx
    exact .inr ⟨l', hl', rfl⟩
  | sessionUndone _ committed =>
    obtain ⟨-, -, _, htx, -⟩ := withTx_ok.1 committed
    obtain ⟨_, rfl⟩ := createSessionTx_ok htx
    have hb := deleteSession_locks hl'
    exact .inr ⟨l', hb, rfl⟩
  | sessionInvited inserted =>
    cases insertSessionInvite_ok inserted
    exact .inr ⟨l', hl', rfl⟩
  | sessionAccepted _ _ _ committed =>
    obtain ⟨-, -, _, htx, -⟩ := withTx_ok.1 committed
    exact .inr ⟨l', (acceptSessionTx_ok htx).2.1.2 ▸ hl', rfl⟩
  | memberRemoved r =>
    rcases removeSessionMember_frame db r.orgID r.sessionID r.accountID with h | h <;>
      rw [h] at hl' <;> exact .inr ⟨l', hl', rfl⟩
  | lockTouched touches => exact touches.lists l' hl'

/-! ## Two accounts -/

def demoEnv : Env := ⟨id, id, id, fun _ => none, false⟩

def atMinute (who : String) (minutes : Int) : Ctx := ⟨some who, minutes * 60 * 1000000000, fun _ => none⟩

def demoDb : Db where
  accounts := ((∅ : Table String Account).insert "ada" ⟨"ada@x", "Ada"⟩).insert "eve" ⟨"eve@x", "Eve"⟩
  orgs := ∅
  orgMembers := ∅
  orgInvites := ∅
  sessions := ∅
  sessionMembers := ∅
  sessionInvites := ∅
  finalizeLocks := []

end Jamsesh.Portal
