import Jamsesh.Effects
import Jamsesh.Birth
/-!
# Membership — where the members of organisations and sessions come from

A membership that was not there from the start was brought by one call: the account's own creation, or its acceptance of a
live invite.  The accept handlers find the invite by its id alone and write the membership for the ids in the URL, so this
holds exactly in the runs in which every invite is accepted under its own ids.
-/
namespace Jamsesh.Portal

open Birth Finmap

/-! ## Organisations -/

/-- A row of `org_members`: an organisation and an account. -/
def OrgRow (db : Db) (row : String × String) : Prop := row ∈ db.orgMembers

def FoundsOrg (env : Env) (db : Db) (c : Call) (row : String × String) : Prop :=
  ∃ r acc db', c = .createOrg r ∧ requireAccount db r.ctx = some (row.2, acc) ∧ createOrgWithSlug env db r = .ok (row.1, db')

def AcceptsOrg (env : Env) (db : Db) (c : Call) (row : String × String) : Prop :=
  ∃ r invite, c = .acceptOrgInvite r ∧ PresentsOrgInvite env db r row.2 invite ∧ invite.orgID = row.1

/-- A request that makes its caller a member: a live invite, an organisation in the URL that the caller is not yet a member
of, and a store that answers. -/
structure AdmitsOrg (env : Env) (db : Db) (r : AcceptOrgInvite) (accountID : String) (invite : OrgInvite) : Prop where
  presents : PresentsOrgInvite env db r accountID invite
  org : r.orgID ∈ db.orgs
  absent : (r.orgID, accountID) ∉ db.orgMembers
  up : ∀ site ∈ [StoreCall.getOrgInvite, .beginTx, .markAccepted, .addOrgMember, .getOrg, .commit], r.ctx.down site = none

variable {db : Db} {env : Env} {accountID orgID : String} {seat : Seat}

theorem mem_insert_orgRow {row key : String × String} {role : Role} (ha : row ∉ db.orgMembers)
    (h : row ∈ db.orgMembers.insert key role) : row = key :=
  (mem_insert.1 h).resolve_right ha

theorem deleteSession_orgMembers (db : Db) (orgID id : String) : (deleteSession db orgID id).orgMembers = db.orgMembers := by
  unfold deleteSession
  split <;> rfl

theorem brings_orgRow {c : Call} {row : String × String} (h : Brings (step env) OrgRow db c row) : FoundsOrg env db c row ∨
      ∃ r invite, c = .acceptOrgInvite r ∧ AdmitsOrg env db r row.2 invite ∧ row.1 = r.orgID := by
  obtain ⟨ha, hr⟩ := h
  unfold OrgRow at ha hr
  generalize hdb : step env db c = db' at hr
  have heffect : Effect env db c db' := hdb ▸ step_effect env db c
  cases heffect with
  | same => exact absurd hr ha
  | orgCreated created =>
    obtain ⟨_, rfl⟩ := createOrgWithSlug_ok created
    exact absurd hr ha
  | orgFounded caller created added =>
    obtain ⟨_, rfl⟩ := createOrgWithSlug_ok created
    obtain ⟨-, -, -, rfl⟩ := addOrgMember_ok.1 added
    cases mem_insert_orgRow ha hr
    exact .inl ⟨_, _, _, rfl, caller, created⟩
  | orgInvited inserted =>
    cases insertOrgInvite_ok inserted
    exact absurd hr ha
  | orgAccepted presents up committed =>
    obtain ⟨hb, hc, _, htx, -⟩ := withTx_ok.1 committed
    obtain ⟨hmark, -, ⟨-, hs⟩ | ⟨hadd, hg, hm, ho, hn⟩⟩ := acceptOrgTx_ok htx
    · exact absurd (hs ▸ hr) ha
    · cases mem_insert_orgRow ha (hn ▸ hr)
      exact .inr ⟨_, _, rfl, ⟨presents, ho, hm, by simp [up, hb, hmark, hadd, hg, hc]⟩, rfl⟩
  | sessionCreated _ committed =>
    obtain ⟨-, -, _, htx, -⟩ := withTx_ok.1 committed
    obtain ⟨_, rfl⟩ := createSessionTx_ok htx
    exact absurd hr ha
  | sessionUndone _ committed =>
    obtain ⟨-, -, _, htx, -⟩ := withTx_ok.1 committed
    obtain ⟨_, rfl⟩ := createSessionTx_ok htx
    rw [deleteSession_orgMembers] at hr
    exact absurd hr ha
  | sessionInvited inserted =>
    cases insertSessionInvite_ok inserted
    exact absurd hr ha
  | sessionAccepted _ _ _ committed =>
    obtain ⟨-, -, _, htx, -⟩ := withTx_ok.1 committed
    exact absurd ((acceptSessionTx_ok htx).2.1.1 ▸ hr) ha
  | memberRemoved r =>
    rcases removeSessionMember_frame db r.orgID r.sessionID r.accountID with h | h <;>
      rw [h] at hr <;> exact absurd hr ha
  | lockTouched touches =>
    obtain ⟨_, _, rfl⟩ := touches.frame
    exact absurd hr ha

theorem AdmitsOrg.tx {r : AcceptOrgInvite} {invite : OrgInvite} (h : AdmitsOrg env db r accountID invite) :
    ∃ db', acceptOrgTx r accountID db = .ok (db', (), false) ∧
      db'.orgMembers = db.orgMembers.insert (r.orgID, accountID) .member := by
  obtain ⟨⟨⟨_, hc, -⟩, -⟩, ho, ha, hup⟩ := h
  obtain ⟨invites, hm⟩ := markOrgInviteAccepted_frame db r.inviteID r.ctx.now accountID
  have hmark : call r.ctx.down .markAccepted (.ok (markOrgInviteAccepted db r.inviteID r.ctx.now accountID)) =
      .ok { db with orgInvites := invites } := call_ok.2 ⟨hup _ (by simp), by rw [hm]⟩
  have hn : addOrgMember { db with orgInvites := invites } r.orgID accountID .member =
      .ok { db with orgInvites := invites, orgMembers := db.orgMembers.insert (r.orgID, accountID) .member } :=
    addOrgMember_ok.2 ⟨ha, ho, requireAccount_mem hc, rfl⟩
  obtain ⟨_, ho⟩ := mem_iff.1 ho
  refine ⟨{ db with orgInvites := invites, orgMembers := db.orgMembers.insert (r.orgID, accountID) .member }, ?_, rfl⟩
  unfold acceptOrgTx
  rw [hmark]
  dsimp only
  rw [call_ok.2 ⟨hup .addOrgMember (by simp), hn⟩]
  simp only [getOrgByID]
  rw [call_ok.2 ⟨hup .getOrg (by simp), found_ok.2 ho⟩]

/-- **An admitted caller becomes a member of the organisation in the URL**, whatever organisation the invite is for. -/
theorem AdmitsOrg.brings {r : AcceptOrgInvite} {invite : OrgInvite}
    (h : AdmitsOrg env db r accountID invite) : Brings (step env) OrgRow db (.acceptOrgInvite r) (r.orgID, accountID) := by
  obtain ⟨db', htx, hm⟩ := h.tx
  obtain ⟨⟨⟨_, hcaller, hl⟩, hs⟩, -, ha, hup⟩ := h
  have hg : call r.ctx.down .getOrgInvite (getOrgInviteByID db r.inviteID) = .ok invite :=
    call_ok.2 ⟨hup _ (by simp), found_ok.2 hs⟩
  have hc : withTx env r.ctx id db (acceptOrgTx r accountID) = .ok (db', ()) :=
    withTx_ok.2 ⟨hup _ (by simp), hup _ (by simp), false, htx, rfl⟩
  have hstep : step env db (.acceptOrgInvite r) = db' := by
    simp only [step, handle, acceptOrgInvite, hcaller, hg, checkTicket_none.2 hl, hc]
  refine ⟨ha, ?_⟩
  rw [OrgRow, hstep, hm]
  exact mem_insert.2 (.inl rfl)

/-- Every new membership of every state of a run comes from the account's creation of the organisation, or from its acceptance
of a live invite of its own to it. -/
def OrgProvenance (env : Env) (db : Db) (calls : List Call) : Prop :=
  ∀ path, path <+: calls → ∀ row, OrgRow (run (step env) db path) row → Stays (step env) OrgRow db path row ∨
    ∃ pre c, BornAt (step env) OrgRow db path row pre c ∧
      (FoundsOrg env (run (step env) db pre) c row ∨ AcceptsOrg env (run (step env) db pre) c row)

/-- **The members of an organisation created it or were invited to it, exactly in the runs in which every admitting request
names the organisation the invite is stored with.** -/
theorem org_provenance_iff (env : Env) (db : Db) (calls : List Call) :
    OrgProvenance env db calls ↔ ∀ pre r post, calls = pre ++ .acceptOrgInvite r :: post → ∀ accountID invite,
        AdmitsOrg env (run (step env) db pre) r accountID invite → r.orgID = invite.orgID := by
  unfold OrgProvenance
  rw [provenance_iff (step env) OrgRow (fun db c row => FoundsOrg env db c row ∨ AcceptsOrg env db c row) db calls]
  constructor
  · intro hg pre r post hs _ invite ha
    rcases hg pre _ post hs _ ha.brings with ⟨_, -, -, hr, -⟩ | ⟨_, _, hr, hp, ho⟩
    · cases hr
    cases hr
    -- the id finds one invite
    cases hp.stored.symm.trans ha.presents.stored
    exact ho.symm
  · intro hown pre c post hs _ hb
    rcases brings_orgRow hb with hf | ⟨r, invite, rfl, ha, hrow⟩
    · exact .inl hf
    · exact .inr ⟨r, invite, rfl, ha.presents, by rw [hrow, hown pre r post hs _ _ ha]⟩

def eveInvited : List Call :=
  [.createOrg ⟨atMinute "ada" 0, "acme", "acme", "acme2", "0"⟩,
    .createOrg ⟨atMinute "eve" 0, "evil", "evil", "evil2", "0"⟩,
    .createOrgInvite ⟨atMinute "eve" 0, "evil", "eve@x", "inv", "tok", .sent⟩]

/-- **The account `eve` becomes a member of `acme`** with its invite to `evil`, by accepting it under the id of `acme`. -/
theorem stranger_joins_org :
    ¬ OrgProvenance demoEnv demoDb (eveInvited ++ [.acceptOrgInvite ⟨atMinute "eve" 0, "acme", "inv", "tok"⟩]) := by
  intro h
  have hb : ¬ OrgRow (run (step demoEnv) demoDb eveInvited) ("acme", "eve") := by
    unfold OrgRow
    decide
  have ha : OrgRow (run (step demoEnv) demoDb
      (eveInvited ++ [.acceptOrgInvite ⟨atMinute "eve" 0, "acme", "inv", "tok"⟩])) ("acme", "eve") := by
    unfold OrgRow
    decide
  have hi : ((run (step demoEnv) demoDb eveInvited).orgInvites.lookup "inv").map (·.orgID) = some "evil" := by decide
  rcases h _ (List.prefix_refl _) _ ha with hs | ⟨_, c, hborn, hg⟩
  · exact hb (hs eveInvited (List.prefix_append _ _))
  obtain ⟨rfl, rfl⟩ := hborn.last _ _ hb
  rcases hg with ⟨r, -, -, hr, -⟩ | ⟨r, _, hr, hp, ho⟩
  · cases hr
  · cases hr
    rw [hp.stored, Option.map_some, ho] at hi
    exact absurd hi (by decide)

/-! ## Sessions -/

structure Seat where
  orgID : String
  sessionID : String
  accountID : String

def SessionRow (db : Db) (seat : Seat) : Prop :=
  ∃ role, db.sessionMembers.lookup (seat.sessionID, seat.accountID) = some ⟨seat.orgID, role⟩

def FoundsSession (db : Db) (c : Call) (seat : Seat) : Prop :=
  ∃ r acc, c = .createSession r ∧ requireAccount db r.ctx = some (seat.accountID, acc) ∧
    r.orgID = seat.orgID ∧ r.id = seat.sessionID

def AcceptsSession (env : Env) (db : Db) (c : Call) (seat : Seat) : Prop :=
  ∃ r invite, c = .acceptSessionInvite r ∧ PresentsSessionInvite env db r seat.accountID invite ∧
    invite.orgID = seat.orgID ∧ invite.sessionID = seat.sessionID

/-- A request that makes its caller a member: a live invite, an organisation in the URL whose policy lets the caller in, a
session in the URL without the caller, and a store that answers. -/
structure AdmitsSession (env : Env) (db : Db) (r : AcceptSessionInvite) (accountID : String) (invite : SessionInvite) :
    Prop where
  presents : PresentsSessionInvite env db r accountID invite
  policy : checkInvitePolicy db r.ctx r.orgID accountID = none
  session : r.sessionID ∈ db.sessions
  absent : (r.sessionID, accountID) ∉ db.sessionMembers
  up : ∀ site ∈ [StoreCall.getSessionInvite, .beginTx, .markAccepted, .addSessionMember, .commit], r.ctx.down site = none

theorem checkInvitePolicy_org {ctx : Ctx} (h : checkInvitePolicy db ctx orgID accountID = none) : orgID ∈ db.orgs := by
  unfold checkInvitePolicy at h
  split at h
  · cases h
  · rename_i hg
    exact mem_of_lookup_eq_some (found_ok.1 (call_ok.1 hg).2)

theorem sessionRow_insert {db' : Db} {sessionID : String} {role : Role}
    (hdb : db'.sessionMembers = db.sessionMembers.insert (sessionID, accountID) ⟨orgID, role⟩) (h : SessionRow db' seat) :
    seat = ⟨orgID, sessionID, accountID⟩ ∨ SessionRow db seat := by
  obtain ⟨role', hr⟩ := h
  rw [hdb] at hr
  by_cases hk : (seat.sessionID, seat.accountID) = (sessionID, accountID)
  · left
    rw [hk, lookup_insert] at hr
    cases seat
    cases hk
    cases hr
    rfl
  · right
    rw [lookup_insert_of_ne _ hk] at hr
    exact ⟨role', hr⟩

theorem sessionRow_deleteSession {id : String} (h : SessionRow (deleteSession db orgID id) seat) : SessionRow db seat := by
  unfold deleteSession at h
  split at h
  · exact h
  · obtain ⟨role, hr⟩ := h
    exact ⟨role, ((Table.lookup_keep _ _ _ _).1 hr).1⟩

theorem sessionRow_remove {sessionID : String}
    (h : SessionRow (removeSessionMember db orgID sessionID accountID) seat) : SessionRow db seat := by
  rcases removeSessionMember_frame db orgID sessionID accountID with hdb | hdb <;> rw [hdb] at h
  · exact h
  obtain ⟨role, hr⟩ := h
  by_cases hk : (seat.sessionID, seat.accountID) = (sessionID, accountID)
  · rw [hk, lookup_erase] at hr
    cases hr
  · rw [lookup_erase_ne hk] at hr
    exact ⟨role, hr⟩

theorem brings_sessionRow {c : Call} (h : Brings (step env) SessionRow db c seat) :
    FoundsSession db c seat ∨ ∃ r invite, c = .acceptSessionInvite r ∧ AdmitsSession env db r seat.accountID invite ∧
      seat.orgID = r.orgID ∧ seat.sessionID = r.sessionID := by
  obtain ⟨ha, hr⟩ := h
  generalize hdb : step env db c = db' at hr
  have heffect : Effect env db c db' := hdb ▸ step_effect env db c
  clear hdb
  cases heffect with
  | same => exact absurd hr ha
  | orgCreated created =>
    obtain ⟨_, rfl⟩ := createOrgWithSlug_ok created
    exact absurd hr ha
  | orgFounded _ created added =>
    obtain ⟨_, rfl⟩ := createOrgWithSlug_ok created
    obtain ⟨-, -, -, rfl⟩ := addOrgMember_ok.1 added
    exact absurd hr ha
  | orgInvited inserted =>
    cases insertOrgInvite_ok inserted
    exact absurd hr ha
  | orgAccepted _ _ committed =>
    obtain ⟨-, -, _, htx, -⟩ := withTx_ok.1 committed
    unfold SessionRow at hr
    rw [(acceptOrgTx_ok htx).2.1.1] at hr
    exact absurd hr ha
  | sessionCreated caller committed =>
    obtain ⟨-, -, _, htx, -⟩ := withTx_ok.1 committed
    obtain ⟨_, rfl⟩ := createSessionTx_ok htx
    cases (sessionRow_insert rfl hr).resolve_right ha
    exact .inl ⟨_, _, rfl, caller, rfl, rfl⟩
  | sessionUndone caller committed =>
    obtain ⟨-, -, _, htx, -⟩ := withTx_ok.1 committed
    obtain ⟨_, rfl⟩ := createSessionTx_ok htx
    cases (sessionRow_insert rfl (sessionRow_deleteSession hr)).resolve_right ha
    exact .inl ⟨_, _, rfl, caller, rfl, rfl⟩
  | sessionInvited inserted =>
    cases insertSessionInvite_ok inserted
    exact absurd hr ha
  | sessionAccepted presents up policy committed =>
    obtain ⟨hb, hc, _, htx, -⟩ := withTx_ok.1 committed
    obtain ⟨hmark, -, ⟨-, hsame⟩ | ⟨hadd, hm, hs, hn⟩⟩ := acceptSessionTx_ok htx
    · unfold SessionRow at hr
      rw [hsame] at hr
      exact absurd hr ha
    · cases (sessionRow_insert hn hr).resolve_right ha
      exact .inr ⟨_, _, rfl, ⟨presents, policy, hs, hm, by simp [up, hb, hmark, hadd, hc]⟩, rfl, rfl⟩
  | memberRemoved => exact absurd (sessionRow_remove hr) ha
  | lockTouched touches =>
    obtain ⟨_, _, rfl⟩ := touches.frame
    exact absurd hr ha

theorem AdmitsSession.tx {r : AcceptSessionInvite} {invite : SessionInvite} (h : AdmitsSession env db r accountID invite) :
    ∃ db', acceptSessionTx r accountID db = .ok (db', (), false) ∧
      db'.sessionMembers = db.sessionMembers.insert (r.sessionID, accountID) ⟨r.orgID, .member⟩ := by
  obtain ⟨⟨⟨_, hc, -⟩, -⟩, hp, hs, ha, hup⟩ := h
  obtain ⟨invites, hm⟩ := markSessionInviteAccepted_frame db r.inviteID r.ctx.now accountID
  have hmark : call r.ctx.down .markAccepted (.ok (markSessionInviteAccepted db r.inviteID r.ctx.now accountID)) =
      .ok { db with sessionInvites := invites } := call_ok.2 ⟨hup _ (by simp), by rw [hm]⟩
  have hn : addSessionMember { db with sessionInvites := invites } r.orgID r.sessionID accountID .member = .ok { db with
      sessionInvites := invites
      sessionMembers := db.sessionMembers.insert (r.sessionID, accountID) ⟨r.orgID, .member⟩ } :=
    addSessionMember_ok.2 ⟨ha, checkInvitePolicy_org hp, hs, requireAccount_mem hc, rfl⟩
  refine ⟨{ db with
      sessionInvites := invites
      sessionMembers := db.sessionMembers.insert (r.sessionID, accountID) ⟨r.orgID, .member⟩ }, ?_, rfl⟩
  unfold acceptSessionTx
  rw [hmark]
  dsimp only
  rw [call_ok.2 ⟨hup .addSessionMember (by simp), hn⟩]

/-- **An admitted caller becomes a member of the session in the URL, under the organisation in the URL**, whatever session the
invite is for. -/
theorem AdmitsSession.brings {r : AcceptSessionInvite} {invite : SessionInvite}
    (h : AdmitsSession env db r accountID invite) :
    Brings (step env) SessionRow db (.acceptSessionInvite r) ⟨r.orgID, r.sessionID, accountID⟩ := by
  obtain ⟨db', htx, hm⟩ := h.tx
  obtain ⟨⟨⟨_, hcaller, hl⟩, hs⟩, hp, -, ha, hup⟩ := h
  have hg : call r.ctx.down .getSessionInvite (getSessionInviteByID db r.inviteID) = .ok invite :=
    call_ok.2 ⟨hup _ (by simp), found_ok.2 hs⟩
  have hc : withTx env r.ctx id db (acceptSessionTx r accountID) = .ok (db', ()) :=
    withTx_ok.2 ⟨hup _ (by simp), hup _ (by simp), false, htx, rfl⟩
  have hstep : step env db (.acceptSessionInvite r) = db' := by
    simp only [step, handle, acceptSessionInvite, hcaller, hg, checkTicket_none.2 hl, hp, hc]
    split <;> rfl
  constructor
  · rintro ⟨_, hr⟩
    exact ha (mem_of_lookup_eq_some hr)
  · rw [hstep]
    exact ⟨.member, by rw [hm, lookup_insert]⟩

/-- Every new membership of every state of a run comes from the account's creation of the session in the organisation, or from
its acceptance of a live invite of its own to it. -/
def SessionProvenance (env : Env) (db : Db) (calls : List Call) : Prop :=
  ∀ path, path <+: calls → ∀ seat, SessionRow (run (step env) db path) seat → Stays (step env) SessionRow db path seat ∨
    ∃ pre c, BornAt (step env) SessionRow db path seat pre c ∧
      (FoundsSession (run (step env) db pre) c seat ∨ AcceptsSession env (run (step env) db pre) c seat)

/-- **The members of a session created it or were invited to it, exactly in the runs in which every admitting request names
the organisation and the session the invite is stored with.** -/
theorem session_provenance_iff (env : Env) (db : Db) (calls : List Call) :
    SessionProvenance env db calls ↔ ∀ pre r post, calls = pre ++ .acceptSessionInvite r :: post → ∀ accountID invite,
        AdmitsSession env (run (step env) db pre) r accountID invite →
          r.orgID = invite.orgID ∧ r.sessionID = invite.sessionID := by
  unfold SessionProvenance
  rw [provenance_iff (step env) SessionRow (fun db c seat => FoundsSession db c seat ∨ AcceptsSession env db c seat) db calls]
  constructor
  · intro hg pre r post hsplit _ _ ha
    rcases hg pre _ post hsplit _ ha.brings with ⟨_, -, hr, -⟩ | ⟨_, _, hr, hp, horg, hs⟩
    · cases hr
    · cases hr
      cases hp.stored.symm.trans ha.presents.stored
      exact ⟨horg.symm, hs.symm⟩
  · intro hown pre c post hsplit _ hb
    rcases brings_sessionRow hb with hf | ⟨r, invite, rfl, ha, horg, hs⟩
    · exact .inl hf
    · obtain ⟨ho, ho'⟩ := hown pre r post hsplit _ _ ha
      exact .inr ⟨r, invite, rfl, ha.presents, by rw [horg, ho], by rw [hs, ho']⟩

def eveInvitedToSession : List Call :=
  [.createOrg ⟨atMinute "ada" 0, "acme", "acme", "acme2", "0"⟩,
    .createSession ⟨atMinute "ada" 0, "acme", "plans", "", "", "sync", "plans", none⟩,
    .createOrg ⟨atMinute "eve" 0, "evil", "evil", "evil2", "0"⟩,
    .createSession ⟨atMinute "eve" 0, "evil", "bait", "", "", "sync", "bait", none⟩,
    .inviteToSession ⟨atMinute "eve" 0, "evil", "bait", "eve@x", "inv", "tok", .sent⟩]

/-- **The account `eve` becomes a member of the session `plans` of `acme`** with its invite to a session of `evil`, whose
policy is the one that is checked. -/
theorem stranger_joins_session : ¬ SessionProvenance demoEnv demoDb
    (eveInvitedToSession ++ [.acceptSessionInvite ⟨atMinute "eve" 0, "evil", "plans", "inv", "tok"⟩]) := by
  intro h
  have hb : ("plans", "eve") ∉ (run (step demoEnv) demoDb eveInvitedToSession).sessionMembers := by decide
  have ha : ¬ SessionRow (run (step demoEnv) demoDb eveInvitedToSession) ⟨"evil", "plans", "eve"⟩ := by
    rintro ⟨_, hrow⟩
    exact hb (mem_of_lookup_eq_some hrow)
  have hafter : SessionRow (run (step demoEnv) demoDb
      (eveInvitedToSession ++ [.acceptSessionInvite ⟨atMinute "eve" 0, "evil", "plans", "inv", "tok"⟩]))
      ⟨"evil", "plans", "eve"⟩ := ⟨.member, by decide⟩
  have hi : ((run (step demoEnv) demoDb eveInvitedToSession).sessionInvites.lookup "inv").map (·.sessionID) =
      some "bait" := by decide
  rcases h _ (List.prefix_refl _) _ hafter with hstay | ⟨_, c, hborn, hg⟩
  · exact ha (hstay eveInvitedToSession (List.prefix_append _ _))
  obtain ⟨rfl, rfl⟩ := hborn.last _ _ ha
  rcases hg with ⟨r, -, hr, -⟩ | ⟨r, _, hr, hp, -, hs⟩
  · cases hr
  · cases hr
    rw [hp.stored, Option.map_some, hs] at hi
    exact absurd hi (by decide)

/-! ## Members who accept once more -/

/-- **A member accepts a live invite exactly when** the database is not Postgres, whose transaction the refused insertion spoils,
and, in an organisation that wants its own members in its sessions, is one of these. -/
theorem member_accepts_iff (env : Env) (db : Db) (accountID : String) :
    (∀ (r : AcceptOrgInvite) (invite : OrgInvite), PresentsOrgInvite env db r accountID invite → (∀ site, r.ctx.down site = none) →
        (r.orgID, accountID) ∈ db.orgMembers →
          ((acceptOrgInvite env db r).2 = .ok 200 ∧ (acceptOrgInvite env db r).1.orgMembers = db.orgMembers ∧
            ((acceptOrgInvite env db r).1.orgInvites.lookup r.inviteID).bind (·.ticket.acceptedAt) = some r.ctx.now ↔
              env.postgres = false)) ∧
      ∀ (r : AcceptSessionInvite) (invite : SessionInvite) (org : Org) (session : Session),
        PresentsSessionInvite env db r accountID invite → (∀ site, r.ctx.down site = none) →
          db.orgs.lookup r.orgID = some org → getSession db r.orgID r.sessionID = .ok session →
            (r.sessionID, accountID) ∈ db.sessionMembers → ((acceptSessionInvite env db r).2 = .ok 200 ∧
                (acceptSessionInvite env db r).1.sessionMembers = db.sessionMembers ∧
                ((acceptSessionInvite env db r).1.sessionInvites.lookup r.inviteID).bind (·.ticket.acceptedAt) = some r.ctx.now ↔
                  env.postgres = false ∧ (org.sessionInvitePolicy = .membersOnly → (r.orgID, accountID) ∈ db.orgMembers)) := by
  refine ⟨fun r _ hp hup hm => ?_, fun r _ org session hp hup ho hs hm => ?_⟩
  · obtain ⟨_, hc, hl⟩ := hp.caller
    simp only [acceptOrgInvite, hc, call, hup, getOrgInviteByID, hp.stored, found, checkTicket_none.2 hl, withTx,
      acceptOrgTx, addOrgMember, markOrgInviteAccepted, hm, if_true, Bool.true_and]
    cases env.postgres <;> simp [Ticket.accept, hl.unaccepted]
  · obtain ⟨_, hc, hl⟩ := hp.caller
    have hpolicy : checkInvitePolicy db r.ctx r.orgID accountID = none ↔
        (org.sessionInvitePolicy = .membersOnly → (r.orgID, accountID) ∈ db.orgMembers) := by
      simp only [checkInvitePolicy, getOrgByID, getOrgMember, call, hup, found, ho]
      cases hr : db.orgMembers.lookup (r.orgID, accountID) <;> simp [mem_iff, hr]
    -- the session is there behind the transaction, too
    have ha : ∀ invites, getSession { db with sessionInvites := invites } r.orgID r.sessionID = .ok session :=
      fun _ => hs
    rw [← hpolicy]
    simp only [acceptSessionInvite, hc, call, hup, getSessionInviteByID, hp.stored, found, checkTicket_none.2 hl,
      withTx, acceptSessionTx, addSessionMember, markSessionInviteAccepted, hm, if_true, Bool.true_and]
    cases checkInvitePolicy db r.ctx r.orgID accountID with
    | none => cases env.postgres <;> simp [Ticket.accept, hl.unaccepted, ha]
    | some => simp [hp.stored, hl.unaccepted]

def eveInvitedAgain : List Call :=
  eveInvitedToSession ++ [.createOrgInvite ⟨atMinute "eve" 0, "evil", "eve@x", "again", "tok", .sent⟩]

/-- With SQLite the creator of an organisation and a session accepts an invite to each. -/
theorem member_accepts_iff_sqlite :
    let db := run (step demoEnv) demoDb eveInvitedAgain
    let org := acceptOrgInvite demoEnv db ⟨atMinute "eve" 0, "evil", "again", "tok"⟩
    let session := acceptSessionInvite demoEnv db ⟨atMinute "eve" 0, "evil", "bait", "inv", "tok"⟩
    (org.2 = .ok 200 ∧ org.1.orgMembers = db.orgMembers ∧
        (org.1.orgInvites.lookup "again").bind (·.ticket.acceptedAt) = some 0) ∧
      session.2 = .ok 200 ∧ session.1.sessionMembers = db.sessionMembers ∧
        (session.1.sessionInvites.lookup "inv").bind (·.ticket.acceptedAt) = some 0 := by
  intro db org session
  obtain ⟨horg, hsession⟩ := member_accepts_iff demoEnv db "eve"
  refine ⟨(horg ⟨atMinute "eve" 0, "evil", "again", "tok"⟩ _ ⟨⟨_, rfl, ?_⟩, rfl⟩ (fun _ => rfl) (by decide)).2 rfl,
    (hsession ⟨atMinute "eve" 0, "evil", "bait", "inv", "tok"⟩ _ _ _ ⟨⟨_, rfl, ?_⟩, rfl⟩ (fun _ => rfl) rfl rfl (by decide)).2
      ⟨rfl, fun _ => by decide⟩⟩
  · exact ⟨rfl, by decide, rfl, by decide⟩
  · exact ⟨rfl, by decide, rfl, by decide⟩

/-- **On Postgres the creator of an organisation cannot accept an invite to it**: the invite stays open. -/
theorem member_cannot_accept :
    let db := run (step { demoEnv with postgres := true }) demoDb
      [.createOrg ⟨atMinute "ada" 0, "acme", "acme", "acme2", "0"⟩,
        .createOrgInvite ⟨atMinute "ada" 0, "acme", "ada@x", "inv", "tok", .sent⟩]
    let out := acceptOrgInvite { demoEnv with postgres := true } db ⟨atMinute "ada" 0, "acme", "inv", "tok"⟩
    out.2 ≠ .ok 200 ∧ (out.1.orgInvites.lookup "inv").bind (·.ticket.acceptedAt) = none := by
  decide

end Jamsesh.Portal
