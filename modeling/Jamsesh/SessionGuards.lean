import Jamsesh.LockPointer
import Jamsesh.SessionFlow
/-!
# SessionGuards — what accounts outside a session can do to it (`sessions/handler.go`, `sessions/refmodes.go`, `finalize`)

Seven of the eight endpoints that change a session ask for a member and turn everyone else away before the first write;
`FinalizeSession` asks for an account only.  An account outside the session leaves its row, its locks and its log alone exactly
when it makes no such request (`outsider_iff`).
-/
namespace Jamsesh.Portal

/-! ## Events and ref modes -/

structure SessionEvent where
  orgID : String
  sessionID : String
  type : String
  payload : List (String × String)
deriving DecidableEq

/-- The tables with the modes of refs, by session and ref, and the event log. -/
structure World where
  db : Db
  refModes : Table (String × String) String
  events : List SessionEvent

def finalizingEvent (orgID sessionID : String) : SessionEvent :=
  ⟨orgID, sessionID, "session.finalizing", [("session_id", sessionID), ("org_id", orgID)]⟩

def Phase.emits : Phase → Phase → List SessionEvent
  | .finalizeWrite r, .done (.ok _) => [finalizingEvent r.orgID r.sessionID]
  | .abandonReason r, .done (.ok _) =>
    [⟨r.orgID, r.sessionID, "session.ended", [("session_id", r.sessionID), ("org_id", r.orgID), ("end_reason", "abandoned")]⟩]
  | .acquireTx r _ session _, .done (.ok _) =>
    if session.status = "active" then [finalizingEvent r.orgID r.sessionID] else []
  | .shipLock r _, .done (.ok _) | .shipRelease r _ _, .done (.ok _) | .shipClear r, .done (.ok _) =>
    [⟨r.orgID, r.sessionID, "session.ended", [("reason", "shipped")]⟩]
  | _, _ => []

/-- A request of `UpsertRefMode`: the body is a ref and a mode; `modeDown` and `upsertDown` are failures of its last two
calls. -/
structure UpsertRefMode where
  ctx : Ctx
  orgID : String
  sessionID : String
  body : Option (String × String)
  modeDown : Bool
  upsertDown : Option String

/-- **`UpsertRefMode`**; `emits` says whether the log takes the event, which the handler does not look at. -/
def upsertRefMode (emits : Bool) (w : World) (r : UpsertRefMode) : World × Reply :=
  match r.body with
  | none => (w, .fail 400 "request.invalid" "request body is required")
  | some (ref, mode) =>
    match requireAccount w.db r.ctx with
    | none => (w, invalidToken)
    | some (accountID, _) =>
      match call r.ctx.down .getSessionMember (getSessionMember w.db r.orgID r.sessionID accountID) with
      | .error .notFound => (w, forbidden "not a member of this session")
      | .error e => (w, .err ("sessions: ref-modes: get session member: " ++ e.text))
      | .ok _ =>
        match call r.ctx.down .getSession (getSession w.db r.orgID r.sessionID) with
        | .error .notFound => (w, sessionNotFound)
        | .error e => (w, .err ("sessions: ref-modes: get session: " ++ e.text))
        | .ok _ =>
          let oldMode := if r.modeDown then "" else (w.refModes.lookup (r.sessionID, ref)).getD ""
          match r.upsertDown with
          | some text => (w, .err ("sessions: ref-modes: upsert: " ++ text))
          | none =>
            if mode ∉ ["sync", "isolated"] then (w, .err "sessions: ref-modes: upsert: check constraint violation")
            else
              let event : SessionEvent :=
                ⟨r.orgID, r.sessionID, "mode.changed", [("ref", ref), ("old_mode", oldMode), ("new_mode", mode)]⟩
              ({ w with
                  refModes := w.refModes.insert (r.sessionID, ref) mode
                  events := w.events ++ (if emits then [event] else []) }, .ok 204)

/-! ## Requests -/

inductive Endpoint where
  | session (op : SessionOp)
  | refMode (r : UpsertRefMode)

def SessionOp.ctx : SessionOp → Ctx
  | finalizeSession r | abandonSession r | patchSession r | acquire r | patchLock r | release r | markShipped r => r.ctx

def SessionOp.sessionID : SessionOp → String
  | finalizeSession r | abandonSession r | patchSession r | acquire r | patchLock r | release r | markShipped r => r.sessionID

def Endpoint.ctx : Endpoint → Ctx
  | session op => op.ctx
  | refMode r => r.ctx

def Endpoint.sessionID : Endpoint → String
  | session op => op.sessionID
  | refMode r => r.sessionID

def World.alone (env : Env) (unmarshal : String → Option (List String)) (emits : Bool) : Nat → World → Phase → World
  | 0, w, _ => w
  | n + 1, w, p =>
    match p.next env unmarshal w.db with
    | none => w
    | some (db, p') =>
      World.alone env unmarshal emits n
        { w with db := db, events := w.events ++ (if emits then p.emits p' else []) } p'

def Endpoint.after (env : Env) (unmarshal : String → Option (List String)) (emits : Bool) (n : Nat) (w : World) :
    Endpoint → World
  | session op => w.alone env unmarshal emits n (.start op)
  | refMode r => if n = 0 then w else (upsertRefMode emits w r).1

variable {db : Db} {sessionID : String} {r : SessionRequest}

section
variable {env : Env} {unmarshal : String → Option (List String)} {emits : Bool} {w : World}
variable {accountID : String} {acc : Account}

@[simp] theorem World.alone_done (n : Nat) (reply : Reply) : w.alone env unmarshal emits n (.done reply) = w := by
  cases n <;> rfl

theorem World.alone_db (n : Nat) (w : World) (p : Phase) :
    (w.alone env unmarshal emits n p).db = (Portal.alone env unmarshal n w.db p).1 := by
  induction n generalizing w p with
  | zero => rfl
  | succ n ih =>
    unfold World.alone Portal.alone
    cases p.next env unmarshal w.db with
    | none => rfl
    | some => exact ih _ _

theorem World.alone_read {n : Nat} {p p' : Phase} (hn : p.next env unmarshal w.db = some (w.db, p'))
    (he : p.emits p' = []) : w.alone env unmarshal emits (n + 1) p = w.alone env unmarshal emits n p' := by
  rw [World.alone, hn]
  simp only [he, ite_self, List.append_nil]

theorem World.alone_of_enter {op : SessionOp} {reply : Reply} (h : op.enter w.db = .done reply) (n : Nat) :
    w.alone env unmarshal emits n (.start op) = w := by
  cases n with
  | zero => rfl
  | succ =>
    have hn : (Phase.start op).next env unmarshal w.db = some (w.db, .done reply) := by rw [← h]; rfl
    rw [World.alone_read hn rfl, World.alone_done]

/-! ## The checks -/

theorem getSessionMember_of_none (hn : db.sessionMembers.lookup (sessionID, accountID) = none)
    (down : StoreCall → Option String) (orgID : String) :
    ∃ e, call down .getSessionMember (getSessionMember db orgID sessionID accountID) = .error e := by
  rw [getSessionMember, hn]
  unfold call
  cases down .getSessionMember with
  | none | some => exact ⟨_, rfl⟩

theorem requireCreator_of_none {ctx : Ctx} (ha : requireAccount db ctx = some (accountID, acc))
    (hn : db.sessionMembers.lookup (sessionID, accountID) = none) (orgID message : String) :
    ∃ reply, requireCreator db ctx orgID sessionID message = some reply := by
  obtain ⟨e, he⟩ := getSessionMember_of_none hn ctx.down orgID
  rw [requireCreator, ha]
  simp only [he]
  cases e <;> exact ⟨_, rfl⟩

theorem requireMember_of_none {ctx : Ctx} (ha : requireAccount db ctx = some (accountID, acc))
    (hn : db.sessionMembers.lookup (sessionID, accountID) = none) (orgID : String) :
    ∃ reply, requireMember db ctx orgID sessionID = .error reply := by
  obtain ⟨e, he⟩ := getSessionMember_of_none hn ctx.down orgID
  have hr : ∃ reply, membershipReply db ctx orgID sessionID accountID = some reply := by
    unfold membershipReply checkSessionMembership
    cases call ctx.down .getOrgMember (getOrgMember db orgID accountID) with
    | error e' => cases e' <;> exact ⟨_, rfl⟩
    | ok =>
      simp only [he]
      cases e with
      | notFound =>
        cases call ctx.down .checkSession (getSession db orgID sessionID) with
        | error e' => cases e' <;> exact ⟨_, rfl⟩
        | ok => exact ⟨_, rfl⟩
      | uniqueViolation | other => exact ⟨_, rfl⟩
  obtain ⟨reply, hr⟩ := hr
  exact ⟨reply, by rw [requireMember, ha]; simp only [hr]⟩

theorem enter_of_outside {op : SessionOp} (hop : ∀ r, op ≠ .finalizeSession r)
    (ha : requireAccount w.db op.ctx = some (accountID, acc))
    (hn : w.db.sessionMembers.lookup (op.sessionID, accountID) = none) : ∃ reply, op.enter w.db = .done reply := by
  have hc := requireCreator_of_none ha hn
  have hm := requireMember_of_none ha hn
  cases op with
  | finalizeSession r => exact absurd rfl (hop r)
  | abandonSession r =>
    obtain ⟨reply, h⟩ := hc r.orgID "only the session creator can abandon the session"
    dsimp only [SessionOp.ctx, SessionOp.sessionID] at h
    exact ⟨reply, by simp only [SessionOp.enter, h]⟩
  | patchSession r =>
    obtain ⟨reply, h⟩ := hc r.orgID "only the session creator can patch the session"
    dsimp only [SessionOp.ctx, SessionOp.sessionID] at h
    exact ⟨reply, by simp only [SessionOp.enter, h]⟩
  | acquire r | release r | markShipped r =>
    obtain ⟨reply, h⟩ := hm r.orgID
    dsimp only [SessionOp.ctx, SessionOp.sessionID] at h
    exact ⟨reply, by simp only [SessionOp.enter, h]⟩
  | patchLock r =>
    obtain ⟨reply, h⟩ := hm r.orgID
    dsimp only [SessionOp.ctx, SessionOp.sessionID] at h
    cases hb : r.body with
    | none => exact ⟨_, by simp only [SessionOp.enter, hb]; rfl⟩
    | some => exact ⟨reply, by simp only [SessionOp.enter, hb, h]⟩

theorem upsertRefMode_of_outside {r : UpsertRefMode} (ha : requireAccount w.db r.ctx = some (accountID, acc))
    (hn : w.db.sessionMembers.lookup (r.sessionID, accountID) = none) : (upsertRefMode emits w r).1 = w := by
  obtain ⟨e, he⟩ := getSessionMember_of_none hn r.ctx.down r.orgID
  unfold upsertRefMode
  cases r.body with
  | none => rfl
  | some =>
    simp only [ha, he]
    cases e <;> rfl

/-! ## Sessions left alone -/

/-- **The session's row, its locks and its events are the same.** -/
structure LeftAlone (sessionID : String) (w w' : World) : Prop where
  row : w'.db.sessions.lookup sessionID = w.db.sessions.lookup sessionID
  locks : w'.db.finalizeLocks.filter (fun l => l.sessionID = sessionID) =
    w.db.finalizeLocks.filter (fun l => l.sessionID = sessionID)
  events : w'.events.filter (fun e => e.sessionID = sessionID) = w.events.filter (fun e => e.sessionID = sessionID)

theorem LeftAlone.refl (sessionID : String) (w : World) : LeftAlone sessionID w w := ⟨rfl, rfl, rfl⟩

/-- **A request to finalize** a session of that organisation that is neither finalizing nor over, with a store that answers. -/
def FinalizesLive (w : World) : Endpoint → Prop
  | .session (.finalizeSession r) =>
    ∃ s, call r.ctx.down .getSession (getSession w.db r.orgID r.sessionID) = .ok s ∧
      s.status ∉ ["finalizing", "ended", "archived"] ∧ r.ctx.down .updateSessionStatus = none
  | _ => False

theorem finalize_after (ha : requireAccount w.db r.ctx = some (accountID, acc)) (n : Nat) :
    w.alone env unmarshal emits (n + 2) (.start (.finalizeSession r)) =
      match call r.ctx.down .getSession (getSession w.db r.orgID r.sessionID) with
      | .error _ => w
      | .ok s =>
        if s.status ∈ ["finalizing", "ended", "archived"] then w
        else w.alone env unmarshal emits n (.finalizeWrite r) := by
  have he : SessionOp.enter w.db (.finalizeSession r) = .finalizeRead r := by simp [SessionOp.enter, ha]
  have hs : (Phase.start (.finalizeSession r)).next env unmarshal w.db = some (w.db, .finalizeRead r) := by
    rw [← he]; rfl
  rw [World.alone_read hs rfl]
  cases hr : call r.ctx.down .getSession (getSession w.db r.orgID r.sessionID) with
  | error e =>
    have hn : ∃ reply, (Phase.finalizeRead r).next env unmarshal w.db = some (w.db, .done reply) := by
      simp only [Phase.next, readSession, hr]
      cases e <;> exact ⟨_, rfl⟩
    obtain ⟨_, hn⟩ := hn
    rw [World.alone_read hn rfl, World.alone_done]
  | ok s =>
    have hn : (Phase.finalizeRead r).next env unmarshal w.db = some (w.db,
        if s.status = "finalizing" then .done (.ok 200)
        else if s.status = "ended" ∨ s.status = "archived" then .done alreadyEnded
        else .finalizeWrite r) := by
      simp only [Phase.next, readSession, hr]
    rw [World.alone_read hn rfl]
    simp only
    by_cases hf : s.status = "finalizing"
    · simp [hf]
    · by_cases ho : s.status = "ended" ∨ s.status = "archived"
      · simp [hf, ho]
      · simp [hf, ho]

theorem finalizeWrite_after (n : Nat) : (w.alone env unmarshal emits (n + 1) (.finalizeWrite r)) =
      match r.ctx.down .updateSessionStatus with
      | some _ => w
      | none =>
        { w with
          db := updateSession w.db r.orgID r.sessionID (fun s => { s with status := "finalizing" })
          events := w.events ++ (if emits then [finalizingEvent r.orgID r.sessionID] else []) } := by
  rw [World.alone]
  simp only [Phase.next, write, call]
  cases r.ctx.down .updateSessionStatus with
  | some | none => simp [Phase.emits]

theorem finalize_changes (ha : requireAccount w.db r.ctx = some (accountID, acc))
    (hlive : FinalizesLive w (.session (.finalizeSession r))) :
    ¬ LeftAlone r.sessionID w (w.alone env unmarshal emits 3 (.start (.finalizeSession r))) := by
  obtain ⟨s, hr, hs, hup⟩ := hlive
  have hg := (call_ok.1 hr).2
  have hl := (getSession_ok.1 hg).1
  intro h
  have hrow := h.row
  rw [finalize_after ha 1, hr] at hrow
  simp only [if_neg hs] at hrow
  rw [finalizeWrite_after 0, hup] at hrow
  simp only [updateSession_of_ok hg, Finmap.lookup_insert, hl] at hrow
  have hsame : s.status = "finalizing" := by rw [← Option.some.inj hrow]
  exact hs (by simp [hsame])

theorem finalize_leaves (ha : requireAccount w.db r.ctx = some (accountID, acc))
    (hl : ¬ FinalizesLive w (.session (.finalizeSession r))) (n : Nat) :
    w.alone env unmarshal emits n (.start (.finalizeSession r)) = w := by
  -- the entry and the read change nothing by themselves
  rcases n with _ | _ | n
  · rfl
  · simp [World.alone, Phase.next, Phase.emits]
  rw [finalize_after ha n]
  split
  · rfl
  rename_i s hr
  split
  · rfl
  rename_i hs
  cases n with
  | zero => rfl
  | succ n =>
    rw [finalizeWrite_after n]
    cases hup : r.ctx.down .updateSessionStatus with
    | some => rfl
    | none => exact absurd ⟨s, hr, hs, hup⟩ hl

/-- **Outsiders leave a session alone exactly when** they do not finalize a live one. -/
theorem outsider_iff (env : Env) (unmarshal : String → Option (List String)) (emits : Bool) (w : World) (e : Endpoint)
    {accountID : String} {acc : Account} (hauth : requireAccount w.db e.ctx = some (accountID, acc))
    (hnot : w.db.sessionMembers.lookup (e.sessionID, accountID) = none) :
    (∀ n, LeftAlone e.sessionID w (e.after env unmarshal emits n w)) ↔ ¬ FinalizesLive w e := by
  cases e with
  | refMode =>
    refine iff_of_true (fun n => ?_) (fun h => h)
    rw [Endpoint.after, upsertRefMode_of_outside hauth hnot, ite_self]
    exact .refl _ w
  | session op =>
    by_cases hop : ∃ r, op = .finalizeSession r
    · obtain ⟨r, rfl⟩ := hop
      refine ⟨fun ha hl => finalize_changes hauth hl (ha 3), fun hl n => ?_⟩
      rw [Endpoint.after, finalize_leaves hauth hl]
      exact .refl _ w
    · rw [not_exists] at hop
      obtain ⟨_, hr⟩ := enter_of_outside hop hauth hnot
      refine iff_of_true (fun n => ?_) (fun hl => ?_)
      · rw [Endpoint.after, World.alone_of_enter hr]
        exact .refl _ w
      · unfold FinalizesLive at hl
        split at hl
        · rename_i r heq
          cases heq
          exact hop r rfl
        · exact hl

end

def visitedWorld : World where
  db := { shipDb with accounts := shipDb.accounts.insert "eve" ⟨"eve@x", "Eve"⟩ }
  refModes := ∅
  events := []

theorem outsider_iff_lock :
    requireAccount visitedWorld.db (atMinute "eve" 0) = some ("eve", ⟨"eve@x", "Eve"⟩) ∧
      visitedWorld.db.sessionMembers.lookup ("plans", "eve") = none ∧
      ((∀ n, LeftAlone "plans" visitedWorld (Endpoint.after demoEnv (fun _ => none) true n visitedWorld
          (.session (.acquire ⟨atMinute "eve" 0, "acme", "plans", true, "mine"⟩)))) ↔
        ¬ FinalizesLive visitedWorld (.session (.acquire ⟨atMinute "eve" 0, "acme", "plans", true, "mine"⟩))) :=
  ⟨rfl, rfl, outsider_iff demoEnv (fun _ => none) true visitedWorld
    (.session (.acquire ⟨atMinute "eve" 0, "acme", "plans", true, "mine"⟩)) rfl rfl⟩

/-- **Any account can put a session into finalizing**: the row changes, and the log has an event. -/
theorem outsider_finalizes :
    requireAccount visitedWorld.db (atMinute "eve" 0) = some ("eve", ⟨"eve@x", "Eve"⟩) ∧
      visitedWorld.db.sessionMembers.lookup ("plans", "eve") = none ∧
      ((visitedWorld.alone demoEnv (fun _ => none) true 3
          (.start (.finalizeSession ⟨atMinute "eve" 0, "acme", "plans"⟩))).db.sessions.lookup "plans").map (·.status) =
        some "finalizing" ∧
      (visitedWorld.db.sessions.lookup "plans").map (·.status) = some "active" ∧
      (visitedWorld.alone demoEnv (fun _ => none) true 3
          (.start (.finalizeSession ⟨atMinute "eve" 0, "acme", "plans"⟩))).events = [finalizingEvent "acme" "plans"] :=
  ⟨rfl, rfl, by decide, by decide, by decide⟩

end Jamsesh.Portal
