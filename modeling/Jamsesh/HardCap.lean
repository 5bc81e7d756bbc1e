import Jamsesh.Destruction
import Jamsesh.LockPointer
import Jamsesh.SessionRuns
/-!
# HardCap — playground sessions past their hard cap (`playground/worker.go`, `sessions/handler.go`, `finalize/lock_acquire.go`)

A session past its hard cap is destroyed when a sweep finds it.  The sweep asks for the status `active`, and the handlers of
`SessionFlow` take that status away; so it is destroyed exactly where none of them has (`capped_swept_iff`).  The columns that
they write are in the tables of `Portal`, the times in those of `Destruction`.
-/
namespace Jamsesh.Playground

open Machine
open Portal (Db FlowState FlowAct Env getSession)

def reservedOrgID : String := "org_playground"

def World.withStatuses (w : World) (db : Db) : World :=
  { w with sessions := w.sessions.filterMap fun r =>
      (getSession db reservedOrgID r.id).toOption.map fun s => { r with status := s.status } }

section
variable {env : Env} {unmarshal : String → Option (List String)} {s s' : FlowState} {as : List FlowAct}

theorem session_stays {orgID sessionID : String} (hc : s.calls = [])
    (hr : exec (FlowState.step env unmarshal) s as = some s')
    (hsession : ∃ row, getSession s.db orgID sessionID = .ok row) : ∃ row, getSession s'.db orgID sessionID = .ok row := by
  have hs : s.Sound := fun q hq => by
    rw [hc] at hq
    cases hq
  have hb : s'.Sound ∧ ∃ row, getSession s'.db orgID sessionID = .ok row := by
    refine always (I := fun s' => s'.Sound ∧ ∃ row, getSession s'.db orgID sessionID = .ok row) ?_
      ⟨hs, hsession⟩ hr
    rintro _ a _ ⟨hs, hsession⟩ hstep
    refine ⟨hs.step hstep, ?_⟩
    obtain ⟨-, rfl, rfl⟩ | ⟨i, p, _, _, rfl, hp, hm, rfl⟩ := Portal.step_cases hstep
    · exact hsession
    · exact (hm.stays (hs p (List.mem_of_getElem? hp))).sessions orgID sessionID hsession
  exact hb.2

end

section
variable {w : World} {db : Db} {r : Session} {row : Portal.Session} {t : Tick}

theorem mem_withStatuses (hr : r ∈ w.sessions) (hdb : getSession db reservedOrgID r.id = .ok row) :
    { r with status := row.status } ∈ (w.withStatuses db).sessions :=
  List.mem_filterMap.2 ⟨r, hr, by rw [hdb]; rfl⟩

theorem status_of_mem {x : Session} (hx : x ∈ (w.withStatuses db).sessions) (hid : x.id = r.id)
    (hdb : getSession db reservedOrgID r.id = .ok row) : x.status = row.status := by
  obtain ⟨y, -, hy⟩ := List.mem_filterMap.1 hx
  obtain ⟨z, hz, rfl⟩ := Option.map_eq_some_iff.1 hy
  rw [show y.id = r.id from hid, hdb] at hz
  cases hz
  rfl

theorem sweep_of_capped (hr : r ∈ w.sessions) (hdb : getSession db reservedOrgID r.id = .ok row)
    (hc : r.hardCapAt.any (· ≤ t.now) = true) (hf : t.FailureFree) :
    Destroyed (w.withStatuses db) r.id ((w.withStatuses db).sweep t) ↔ row.status = "active" := by
  have hm := mem_withStatuses hr hdb
  constructor
  · intro hd
    by_contra hs
    have hn : ∀ x ∈ (w.withStatuses db).sessions, x.id = r.id → x.expired t.now = false := fun x hx hid => by
      simp [Session.expired, status_of_mem hx hid hdb, hs]
    exact hd.row _ ((sweep_spares hn).row _ hm rfl) rfl
  · intro hs
    have he : Session.expired { r with status := row.status } t.now = true := by
      simp [Session.expired, hs, hc]
    exact sweep_destroys (r := { r with status := row.status }) hf (.inl (pending_of_row hm)) he

end

/-- **Whatever the calls on a playground session**, once its hard cap has passed, the next failure-free sweep destroys it
exactly when they have left it active. -/
theorem capped_swept_iff {env : Env} {unmarshal : String → Option (List String)} {s s' : FlowState} {as : List FlowAct}
    {w : World} {r : Session} {t : Tick} (hcalls : s.calls = []) (hsession : ∃ row, getSession s.db reservedOrgID r.id = .ok row)
    (hrun : exec (FlowState.step env unmarshal) s as = some s') (hrow : r ∈ w.sessions)
    (hcap : r.hardCapAt.any (· ≤ t.now) = true) (hfree : t.FailureFree) :
    ∃ row, getSession s'.db reservedOrgID r.id = .ok row ∧
      (Destroyed (w.withStatuses s'.db) r.id ((w.withStatuses s'.db).sweep t) ↔ row.status = "active") := by
  obtain ⟨row, hdb⟩ := session_stays hcalls hrun hsession
  exact ⟨row, hdb, sweep_of_capped hrow hdb hcap hfree⟩

def playgroundFlow : FlowState where
  db := { Portal.shipDb with
    accounts := (∅ : Portal.Table String Portal.Account).insert "anon_1" ⟨"", "calm-otter"⟩,
    sessions := (∅ : Portal.Table String Portal.Session).insert "demo"
      ⟨reservedOrgID, "demo", "", "", "sync", "active", none, none, none⟩,
    sessionMembers := (∅ : Portal.Table (String × String) Portal.SessionMember).insert ("demo", "anon_1")
      ⟨reservedOrgID, .creator⟩ }
  calls := []
  endWrites := []

def memberCall (op : Portal.SessionRequest → Portal.SessionOp) (turns : Nat) : List FlowAct :=
  .start (op ⟨Portal.atMinute "anon_1" 0, reservedOrgID, "demo"⟩) :: List.replicate turns (.go 0)

def patchedCall : List FlowAct := memberCall (fun r => .patchSession ⟨r.ctx, r.orgID, r.sessionID, "new goal", "", ""⟩) 4

theorem capped_swept_iff_patched :
    ∃ s', exec (FlowState.step Portal.demoEnv (fun _ => none)) playgroundFlow patchedCall = some s' ∧
      Destroyed (oneSession.world.withStatuses s'.db) "demo" ((oneSession.world.withStatuses s'.db).sweep (tickWith 60 [])) := by
  have hr : exec (FlowState.step Portal.demoEnv (fun _ => none)) playgroundFlow patchedCall = some _ := rfl
  obtain ⟨row, hrow, hi⟩ := capped_swept_iff (w := oneSession.world) (r := expiredSession) rfl ⟨_, rfl⟩ hr
    (List.mem_singleton_self _) rfl (tickWith_failureFree 60)
  cases hrow
  exact ⟨_, hr, hi.2 rfl⟩

/-- **A playground session that its member finalizes** is there after the cap and the sweep. -/
theorem finalized_not_swept :
    (tickWith 60 []).FailureFree ∧ ∃ s', exec (FlowState.step Portal.demoEnv (fun _ => none)) playgroundFlow
        (memberCall .finalizeSession 3) = some s' ∧
      ((oneSession.world.withStatuses s'.db).sweep (tickWith 60 [])).sessions =
        [⟨"demo", "finalizing", 0, some 50, some 20⟩] :=
  ⟨tickWith_failureFree 60, _, rfl, by decide⟩

end Jamsesh.Playground
