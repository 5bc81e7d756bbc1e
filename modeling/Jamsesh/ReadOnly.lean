import Jamsesh.DraftRuns
import Jamsesh.Fork
import Jamsesh.Landed
import Jamsesh.SessionEnd
/-!
# ReadOnly — the refs of a session that has ended

Pushes, forks and the auto-merger move refs, and none looks at the session's status, so an ended session is read-only only as
long as nobody asks (`Closed`).  The writers are cut at their writes to the repository and the handlers that end sessions at
their statements, in any interleaving.
-/
namespace Jamsesh.Site

open Automerger Git Githttp Machine Mcpendpoint Portal

/-! ## The writers of refs -/

structure Place where
  env : Env
  unmarshal : String → Option (List String)
  lib : Prereceive.Lib
  limits : Prereceive.Limits
  orgID : String
  sessionID : String

inductive Job where
  | pushing (updates : List Prereceive.RefUpdate)
  | seeding (updates : List Prereceive.RefUpdate)
  | forking (calls : ForkCalls) (f : Fork)
  | merging (a : Answers) (e : Arrived) (p : Prepared) (result : MergeResult)
  | done

def Job.writes : Job → Bool
  | pushing _ => true
  | seeding _ => true
  | forking _ _ => true
  | merging _ _ _ result => result.kind ≠ .hardConflict
  | done => false

structure State where
  flow : FlowState
  desk : Desk
  jobs : List Job

inductive Act where
  | session (a : FlowAct)
  | push (push : Push) (baseSHA : Option String)
  /-- git adds the objects of the push and moves those of its refs that it accepts -/
  | receive (i : Nat) (commits : List Commit) (trees : Hash → Option Tree) (accepts : Prereceive.RefUpdate → Bool) (exited : Bool)
  | seed (i : Nat) (faults : Faults)
  | fork (caller : Option String) (input : ForkInput) (calls : ForkCalls)
  | setFork (i : Nat)
  | arrive (a : Answers) (payload : Option CommitArrived)
  | apply (i : Nat)

section
variable (w : Place)

def pushOf (db : Db) (push : Push) (baseSHA : Option String) : Push :=
  { push with session := ((getSession db w.orgID w.sessionID).map
      (fun row => ((⟨w.sessionID, w.orgID, row.writableScope⟩ : Prereceive.Session), baseSHA))).mapError StoreErr.text }

/-- The handler up to the subprocess, behind `requireSessionMember`. -/
def startPush (db : Db) (push : Push) (baseSHA : Option String) : Job :=
  match getSessionMember db w.orgID w.sessionID push.accountID with
  | .error _ => .done
  | .ok _ =>
    match (pushOf w db push baseSHA).accept w.lib w.limits with
    | .error _ => .done
    | .ok (updates, _, _) => .pushing updates

def plainOpen (disk : Repo) (orgID : String) : Except String Repo :=
  if orgID = w.orgID then .ok disk else .error "repository does not exist"

def startFork (db : Db) (disk : Repo) (caller : Option String) (input : ForkInput) (calls : ForkCalls) : Job :=
  match checkFork calls db (plainOpen w disk) caller { input with sessionID := w.sessionID } with
  | .error _ => .done
  | .ok f => .forking calls f

def arrived (payload : Option CommitArrived) : Arrived := ⟨w.orgID, w.sessionID, payload⟩

def answersOf (db : Db) (a : Answers) : Answers :=
  { a with session := (getSession db w.orgID w.sessionID).toOption.map (·.defaultMode) }

/-- `processEvent` up to the result of the merge. -/
def startMerge (a : Answers) (e : Arrived) (s : Desk) : Desk × Job :=
  match prepare a e s.disk with
  | .error _ => (s, .done)
  | .ok p =>
    let s₁ := { s with disk := storeTrees s.disk a.trees }
    match merge a.world s.disk p.source p.draft p.ancestor a.order with
    | .error _ => (s₁, .done)
    | .ok result => (s₁, .merging a e p result)

def storeObjects (disk : Repo) (commits : List Commit) (trees : Hash → Option Tree) : Repo :=
  commits.foldl store (storeTrees disk trees)

def State.add (s : State) (j : Job) : State := { s with jobs := s.jobs ++ [j] }

def State.step (s : State) : Act → Option State
  | .session a => (s.flow.step w.env w.unmarshal a).map (fun flow => { s with flow := flow })
  | .push push baseSHA => some (s.add (startPush w s.flow.db push baseSHA))
  | .receive i commits trees accepts exited =>
    match s.jobs[i]? with
    | some (.pushing updates) =>
      some { s with
        desk := { s.desk with disk := Server.land (updates.filter accepts) (storeObjects s.desk.disk commits trees) }
        jobs := s.jobs.set i (if exited then .seeding updates else .done) }
    | _ => none
  | .seed i faults =>
    match s.jobs[i]? with
    | some (.seeding updates) =>
      some { s with
        desk := { s.desk with disk := Server.seed faults w.sessionID updates s.desk.disk }
        jobs := s.jobs.set i .done }
    | _ => none
  | .fork caller input calls => some (s.add (startFork w s.flow.db s.desk.disk caller input calls))
  | .setFork i =>
    match s.jobs[i]? with
    | some (.forking calls f) =>
      some { s with desk := { s.desk with disk := Mcpendpoint.setFork calls f s.desk.disk }, jobs := s.jobs.set i .done }
    | _ => none
  | .arrive a payload =>
    let out := startMerge (answersOf w s.flow.db a) (arrived w payload) s.desk
    some (State.add { s with desk := out.1 } out.2)
  | .apply i =>
    match s.jobs[i]? with
    | some (.merging a e p result) => some { s with desk := (Automerger.apply a e p result s.desk).1, jobs := s.jobs.set i .done }
    | _ => none

theorem processEvent_alone (a : Answers) (e : Arrived) (s : Desk) :
    (processEvent a e s).1 = match startMerge a e s with
      | (s₁, .merging a e p result) => (Automerger.apply a e p result s₁).1
      | (s₁, _) => s₁ := by
  unfold processEvent startMerge
  cases prepare a e s.disk with
  | error => rfl
  | ok p =>
    dsimp only
    cases merge a.world s.disk p.source p.draft p.ancestor a.order with
    | error | ok => rfl

theorem fork_alone (db : Db) (disk : Repo) (caller : Option String) (input : ForkInput) (calls : ForkCalls)
    (hsession : input.sessionID = w.sessionID) :
    (Mcpendpoint.fork calls db (plainOpen w disk) caller input disk).1 =
      match startFork w db disk caller input calls with
      | .forking calls f => Mcpendpoint.setFork calls f disk
      | _ => disk := by
  have hi : { input with sessionID := w.sessionID } = input := by rw [← hsession]
  unfold Mcpendpoint.fork startFork
  rw [hi]
  cases checkFork calls db (plainOpen w disk) caller input with
  | error | ok => rfl

end

/-! ## The condition -/

instance (db : Db) (sessionID : String) : Decidable (Ended db sessionID) :=
  decidable_of_iff ((db.sessions.lookup sessionID).map (·.status) = some "ended") Option.map_eq_some_iff

def PushRefused (w : Place) (db : Db) (push : Push) : Prop :=
  ∀ m commands repo row, getSessionMember db w.orgID w.sessionID push.accountID = .ok m →
    readCommandList push.body = .ok commands → push.validationRepo commands.pack = .ok repo →
      getSession db w.orgID w.sessionID = .ok row →
        Prereceive.validate w.lib w.limits ⟨repo, ⟨w.sessionID, w.orgID, row.writableScope⟩, push.accountID, commands.updates,
          push.body.length, push.currentBytes⟩ ≠ .ok []

def MergeRefused (a : Answers) (e : Arrived) (disk : Repo) : Prop :=
  ∀ p result, prepare a e disk = .ok p → merge a.world disk p.source p.draft p.ancestor a.order = .ok result →
    result.kind = .hardConflict

/-- **The session is closed to writers**: it ends alone and while nobody is about to move a ref, and what comes later is refused
for another reason. -/
def Closed (w : Place) (s : State) : Act → Prop
  | .session a => EndsAlone s.flow a ∧
      ∀ i, a = .go i → ∀ p, s.flow.calls[i]? = some p → p.ending = some w.sessionID → ∀ j ∈ s.jobs, j.writes = false
  | .push push _ => Ended s.flow.db w.sessionID → PushRefused w s.flow.db push
  | .fork caller input calls => Ended s.flow.db w.sessionID → ∀ accountID orgID repo,
      ¬ Passes calls s.flow.db (plainOpen w s.desk.disk) caller { input with sessionID := w.sessionID } accountID orgID repo
  | .arrive a payload => Ended s.flow.db w.sessionID → MergeRefused (answersOf w s.flow.db a) (arrived w payload) s.desk.disk
  | _ => True

/-! ## What a step does -/

section
variable {w : Place} {s s' : State} {a : Act}

theorem startPush_writes {db : Db} {push : Push} {baseSHA : Option String} (h : PushRefused w db push) :
    (startPush w db push baseSHA).writes = false := by
  unfold startPush
  split
  · rfl
  rename_i m hm
  split
  · rfl
  rename_i row _ ha
  unfold Push.accept at ha
  split at ha
  · cases ha
  rename_i commands hc
  split at ha
  · cases ha
  rename_i repo hr
  unfold pushOf at hc hr ha
  cases hrow : getSession db w.orgID w.sessionID with
  | error =>
    rw [hrow] at ha
    cases ha
  | ok row =>
    rw [hrow] at ha
    dsimp only [Except.map, Except.mapError] at ha
    split at ha
    · cases ha
    · cases ha
    · rename_i hv
      exact absurd hv (h m commands repo row hm hc hr hrow)
    · cases ha

theorem startPush_of_valid {db : Db} {push : Push} {baseSHA : Option String} {m : SessionMember} {commands : CommandList}
    {repo : Repo} {row : Session} (hm : getSessionMember db w.orgID w.sessionID push.accountID = .ok m)
    (hc : readCommandList push.body = .ok commands) (hr : push.validationRepo commands.pack = .ok repo)
    (hrow : getSession db w.orgID w.sessionID = .ok row)
    (hv : Prereceive.validate w.lib w.limits ⟨repo, ⟨w.sessionID, w.orgID, row.writableScope⟩, push.accountID,
      commands.updates, push.body.length, push.currentBytes⟩ = .ok []) :
    startPush w db push baseSHA = .pushing commands.updates := by
  have ha : (pushOf w db push baseSHA).accept w.lib w.limits =
      .ok (commands.updates, ⟨w.sessionID, w.orgID, row.writableScope⟩, baseSHA) := by
    simp only [Push.accept, pushOf, hc, hr, hrow, Except.map, Except.mapError, hv]
  rw [startPush, hm]
  dsimp only
  rw [ha]

theorem startFork_writes {db : Db} {disk : Repo} {caller : Option String} {input : ForkInput} {calls : ForkCalls}
    (h : ∀ accountID orgID repo,
      ¬ Passes calls db (plainOpen w disk) caller { input with sessionID := w.sessionID } accountID orgID repo) :
    (startFork w db disk caller input calls).writes = false := by
  unfold startFork
  split
  · rfl
  · rename_i hf
    obtain ⟨accountID, orgID, repo, hp⟩ := checkFork_ok hf
    exact absurd hp (h accountID orgID repo)

theorem startMerge_references (a : Answers) (e : Arrived) (s : Desk) :
    (startMerge a e s).1.disk.references = s.disk.references := by
  unfold startMerge
  split
  · rfl
  · dsimp only
    split <;> rfl

theorem startMerge_writes {a : Answers} {e : Arrived} {s : Desk} (h : MergeRefused a e s.disk) :
    (startMerge a e s).2.writes = false := by
  unfold startMerge
  split
  · rfl
  rename_i p hp
  dsimp only
  split
  · rfl
  · rename_i result hr
    simp [Job.writes, h p result hp hr]

theorem apply_references {a : Answers} {e : Arrived} {p : Prepared} {result : MergeResult} {s : Desk}
    (h : (Job.merging a e p result).writes = false) : (Automerger.apply a e p result s).1.disk.references = s.disk.references := by
  have hk : result.kind = .hardConflict := by simpa [Job.writes] using h
  rw [Automerger.apply, if_pos hk, applyConflict_disk]

/-- **What a step does**: a statement of the session handlers, a writer that comes, or a writer that goes on; refs are moved by
those that have a write before them. -/
theorem step_cases (h : s.step w a = some s') :
    (∃ act flow, a = .session act ∧ s.flow.step w.env w.unmarshal act = some flow ∧ s' = { s with flow := flow }) ∨
      (∃ desk j, s' = ⟨s.flow, desk, s.jobs ++ [j]⟩ ∧ desk.disk.references = s.desk.disk.references ∧
        (Closed w s a → Ended s.flow.db w.sessionID → j.writes = false)) ∨
      ∃ desk i j j', s' = ⟨s.flow, desk, s.jobs.set i j'⟩ ∧ s.jobs[i]? = some j ∧
        (j.writes = false → j'.writes = false ∧ desk.disk.references = s.desk.disk.references) := by
  cases a with
  | session act =>
    obtain ⟨flow, hf, rfl⟩ := Option.map_eq_some_iff.1 h
    exact .inl ⟨act, flow, rfl, hf, rfl⟩
  | push =>
    cases h
    exact .inr (.inl ⟨s.desk, _, rfl, rfl, fun hc he => startPush_writes (hc he)⟩)
  | receive i | seed i =>
    simp only [State.step] at h
    split at h <;> cases h
    rename_i hj
    exact .inr (.inr ⟨_, i, _, _, rfl, hj, fun hw => by cases hw⟩)
  | fork =>
    cases h
    exact .inr (.inl ⟨s.desk, _, rfl, rfl, fun hc he => startFork_writes (hc he)⟩)
  | setFork i =>
    simp only [State.step] at h
    split at h <;> cases h
    rename_i hj
    exact .inr (.inr ⟨_, i, _, _, rfl, hj, fun hw => by cases hw⟩)
  | arrive =>
    cases h
    exact .inr (.inl ⟨_, _, rfl, startMerge_references _ _ _, fun hc he => startMerge_writes (hc he)⟩)
  | apply i =>
    simp only [State.step] at h
    split at h <;> cases h
    rename_i hj
    exact .inr (.inr ⟨_, i, _, _, rfl, hj, fun hw => ⟨rfl, apply_references hw⟩⟩)

/-- **Nobody has a ref to move once the session has ended.** -/
structure Shut (w : Place) (s : State) : Prop where
  ends : EndedOnce s.flow
  idle : Ended s.flow.db w.sessionID → ∀ j ∈ s.jobs, j.writes = false

theorem Shut.step (h : Shut w s) (ha : Closed w s a) (hs : s.step w a = some s') : Shut w s' := by
  obtain ⟨_, flow, rfl, hf, rfl⟩ | ⟨-, j, rfl, -, hj⟩ | ⟨_, i, j, _, rfl, hjob, hj⟩ := step_cases hs
  · refine ⟨h.ends.step ha.1 hf, fun he => ?_⟩
    by_cases hb : Ended s.flow.db w.sessionID
    · exact h.idle hb
    -- the statement has just ended the session
    obtain ⟨_, rfl, rfl⟩ | ⟨i, p, _, _, rfl, hp, hm, rfl⟩ := Portal.step_cases hf
    · exact absurd he hb
    · exact ha.2 i rfl p hp (hm.ending_of_ended hb he).1
  · refine ⟨h.ends, fun he k hk => ?_⟩
    rcases List.mem_append.1 hk with hk | hk
    · exact h.idle he k hk
    · rw [List.mem_singleton.1 hk]
      exact hj ha he
  · refine ⟨h.ends, fun he k hk => ?_⟩
    rcases List.mem_or_eq_of_mem_set hk with hk | rfl
    · exact h.idle he k hk
    · exact (hj (h.idle he j (List.mem_of_getElem? hjob))).1

theorem Shut.references (h : Shut w s) (he : Ended s.flow.db w.sessionID) (hs : s.step w a = some s') :
    Ended s'.flow.db w.sessionID ∧ s'.desk.disk.references = s.desk.disk.references := by
  obtain ⟨_, _, rfl, hf, rfl⟩ | ⟨_, j, rfl, hr, -⟩ | ⟨_, i, j, _, rfl, hjob, hj⟩ := step_cases hs
  · exact ⟨h.ends.stays he hf, rfl⟩
  · exact ⟨he, hr⟩
  · exact ⟨he, (hj (h.idle he j (List.mem_of_getElem? hjob))).2⟩

end

/-- **Where the session is closed to writers, no step after its end changes a ref**, and nobody has one before them. -/
theorem ended_read_only (w : Place) (s₀ s₁ s₂ : State) (as₁ as₂ : List Act) (hcalls : s₀.flow.calls = [])
    (hwrites : s₀.flow.endWrites = []) (hjobs : s₀.jobs = []) (hok₁ : Along (State.step w) (Closed w) s₀ as₁)
    (hrun₁ : exec (State.step w) s₀ as₁ = some s₁) (hok₂ : Along (State.step w) (Closed w) s₁ as₂)
    (hrun₂ : exec (State.step w) s₁ as₂ = some s₂) (hended : Ended s₁.flow.db w.sessionID) :
    s₂.desk.disk.references = s₁.desk.disk.references ∧ ∀ j ∈ s₂.jobs, j.writes = false := by
  have hstart : Shut w s₀ := ⟨EndedOnce.start hcalls hwrites, fun _ j hj => absurd (hjobs ▸ hj) List.not_mem_nil⟩
  have h₁ : Shut w s₁ := invariant (fun _ _ _ h ha hs => h.step ha hs) hstart hok₁ hrun₁
  have h₂ : Shut w s₂ ∧ Ended s₂.flow.db w.sessionID ∧ s₂.desk.disk.references = s₁.desk.disk.references := by
    refine invariant
      (I := fun s => Shut w s ∧ Ended s.flow.db w.sessionID ∧ s.desk.disk.references = s₁.desk.disk.references)
      (fun s a _ h ha hs => ?_) ⟨h₁, hended, rfl⟩ hok₂ hrun₂
    obtain ⟨hshut, hended, hr⟩ := h
    obtain ⟨he', hr'⟩ := hshut.references hended hs
    exact ⟨hshut.step ha hs, he', hr'.trans hr⟩
  exact ⟨h₂.2.2, h₂.1.idle h₂.2.1⟩

/-! ### A session that is abandoned -/

def plans : Place := ⟨demoEnv, fun _ => none, Prereceive.silentLib, ⟨0, 0⟩, "acme", "plans"⟩

def plansRepo (pushed : Bool) : Repo :=
  { racedRepo pushed with tree := fun _ => some Tree.empty, references := .ok [⟨draftRefName "plans", .hash (.ofByte 1)⟩] }

def openState : State := ⟨⟨shipDb, [], []⟩, ⟨plansRepo false, [], []⟩, []⟩

def abandon : List Act :=
  [.session (.start (.abandonSession ⟨atMinute "ada" 1, "acme", "plans"⟩)), .session (.go 0), .session (.go 0),
    .session (.go 0), .session (.go 0)]

def forkCalls : ForkCalls := ⟨none, fun _ => none, none, none⟩

def forkTo (name sha : String) : Act := .fork (some "ada") ⟨"plans", sha, some name, none⟩ forkCalls

def closedRun : List Act := forkTo "spike" "0202020202020202020202020202020202020202" :: .setFork 0 :: abandon

def abandonedState : State := (exec (State.step plans) openState closedRun).getD openState

def refusedRun : List Act := [forkTo "late" "0707070707070707070707070707070707070707"]

theorem ended_read_only_refusedRun :
    ∃ s₂, exec (State.step plans) abandonedState refusedRun = some s₂ ∧ Ended abandonedState.flow.db "plans" ∧
      s₂.desk.disk.references = abandonedState.desk.disk.references ∧ ∀ j ∈ s₂.jobs, j.writes = false := by
  have hr₁ : exec (State.step plans) openState closedRun = some abandonedState := rfl
  have hr₂ : exec (State.step plans) abandonedState refusedRun = some _ := rfl
  have he : Ended abandonedState.flow.db "plans" := by decide
  refine ⟨_, hr₂, he, ?_⟩
  refine ended_read_only plans openState abandonedState _ closedRun refusedRun rfl rfl rfl ?_ hr₁ ?_ hr₂ he
  · have hl : ¬ Ended openState.flow.db "plans" := by decide
    refine .cons_of_step (fun he => absurd he hl) rfl (.cons_of_step trivial rfl ?_)
    refine .cons_of_step ⟨by decide, fun i hi => by cases hi⟩ rfl ?_
    have hidle : ∀ j ∈ [Job.done], j.writes = false := by decide
    refine .cons_of_step ⟨by decide, fun _ _ _ _ _ => hidle⟩ rfl (.cons_of_step ⟨by decide, fun _ _ _ _ _ => hidle⟩ rfl ?_)
    exact .cons_of_step ⟨by decide, fun _ _ _ _ _ => hidle⟩ rfl (.cons_of_step ⟨by decide, fun _ _ _ _ _ => hidle⟩ rfl trivial)
  · refine .cons_of_step (fun _ _ _ _ hp => ?_) rfl trivial
    have hc := hp.commit
    have ho := hp.opens
    unfold plainOpen at ho
    split at ho <;> cases ho
    exact absurd hc (by decide)

def arriveLate : Act := .arrive (mergedOver ⟨.ofByte 1, [], .zero, Prereceive.goodMessage, "", ""⟩ (.ofByte 9))
  (some ⟨"0202020202020202020202020202020202020202", "refs/heads/jam/plans/ada/main", "work", "ada"⟩)

def lateUpdate : Prereceive.RefUpdate := ⟨"refs/heads/jam/plans/bob/b", "", "0303030303030303030303030303030303030303"⟩

def lateCommand : Text :=
  ("0000000000000000000000000000000000000000 0303030303030303030303030303030303030303 refs/heads/jam/plans/bob/b").toList

def latePush : Push where
  body := "0070".toList ++ lateCommand ++ "0000".toList
  accountID := "bob"
  session := .error ""
  currentBytes := 0
  validationRepo := fun _ => .ok (plansRepo true)
  git := .exited (.ok (plansRepo true))
  faults := ⟨none, none, fun _ => none, none⟩

theorem latePush_commands : readCommandList latePush.body = .ok ⟨[lateUpdate], [], []⟩ := by
  have ht : lateCommand = _ := String.toList_ofList
  have hb : latePush.body = "0070".toList ++ lateCommand ++ "0000".toList := rfl
  have hp : readPacket latePush.body = .ok (some lateCommand, "0000".toList) := by
    rw [hb, ht]
    decide +kernel
  have hc : parseCommand lateCommand = .ok (lateUpdate, []) := by
    rw [ht]
    decide +kernel
  have hf : readPacket "0000".toList = .ok (none, []) := by decide
  rw [readCommandList_command hp hc, readCommandList_flush hf]
  rfl

theorem latePush_accepted : startPush plans abandonedState.flow.db latePush none = .pushing [lateUpdate] := by
  have hm : getSessionMember abandonedState.flow.db "acme" "plans" "bob" = .ok ⟨"acme", .member⟩ := by decide
  have hv : Prereceive.validate Prereceive.silentLib ⟨0, 0⟩
      ⟨plansRepo true, ⟨"plans", "acme", ""⟩, "bob", [lateUpdate], latePush.body.length, 0⟩ = .ok [] := by decide
  exact startPush_of_valid hm latePush_commands rfl rfl hv

def lateFork : List Act := [forkTo "late" "0101010101010101010101010101010101010101", .setFork 1]

/-- **Refs of an abandoned session move**: a fork, an event and a push go through. -/
theorem abandoned_refs_move : Ended abandonedState.flow.db "plans" ∧
    (∃ s, exec (State.step plans) abandonedState lateFork = some s ∧
      abandonedState.desk.disk.reference "refs/heads/jam/plans/ada/late" = .error .referenceNotFound ∧
        s.desk.disk.reference "refs/heads/jam/plans/ada/late" = .ok (.ofByte 1)) ∧
      (∃ s, exec (State.step plans) abandonedState [arriveLate, .apply 1] = some s ∧
        abandonedState.desk.disk.reference (draftRefName "plans") = .ok (.ofByte 1) ∧
          s.desk.disk.reference (draftRefName "plans") = .ok (.ofByte 9)) ∧
        ∃ s, exec (State.step plans) abandonedState
            [.push latePush none, .receive 1 (plansRepo true).commits (fun _ => none) (fun _ => true) true] = some s ∧
          abandonedState.desk.disk.reference "refs/heads/jam/plans/bob/b" = .error .referenceNotFound ∧
            s.desk.disk.reference "refs/heads/jam/plans/bob/b" = .ok (.ofByte 3) := by
  refine ⟨by decide, ⟨_, rfl, by decide, by decide⟩, ⟨_, rfl, by decide, by decide⟩, ?_⟩
  have hp : State.step plans abandonedState (.push latePush none) = some (abandonedState.add (.pushing [lateUpdate])) := by
    rw [State.step, latePush_accepted]
  refine ⟨_, exec_cons.2 ⟨_, hp, rfl⟩, by decide, by decide⟩

end Jamsesh.Site
