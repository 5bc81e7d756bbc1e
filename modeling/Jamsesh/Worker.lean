import Jamsesh.Addressing
import Jamsesh.HeldCommits
/-!
# Worker — what the auto-merger does with an arrived commit (`automerger/worker.go`, `automerger/outcomes.go`)

`processEvent` reads the session, the mode of the ref, the arrived commit and the tip of the draft, merges the two over a merge
base, and applies the result: a merge commit on the draft, or a row for the conflict.  Each call that can fail has a site in
`down`; what the calls answer otherwise is in `Answers`.  The event it gets is the row's text already decoded, and times are left
out.
-/
namespace Jamsesh.Automerger

open Git Githttp

/-! ## Rows and events -/

inductive ConflictStatus where
  | open_ | resolved
deriving DecidableEq

structure ConflictEvent where
  id : String
  orgID : String
  sessionID : String
  sourceCommit : Hash
  draftTip : Hash
  ancestor : Hash
  conflicts : List Conflict
  addressedTo : List String
  status : ConflictStatus
  resolvingCommitSHA : Option Hash
deriving DecidableEq

inductive Notice where
  | mergeSucceeded (source merge : Hash)
  | conflictResolved (eventID : String) (merge : Hash)
  | conflictDetected (event : ConflictEvent)
deriving DecidableEq

/-- What the auto-merger writes to: the repository on disk, the rows of conflicts and the log. -/
structure Desk where
  disk : Repo
  conflictEvents : List ConflictEvent
  log : List Notice

structure Arrived where
  orgID : String
  sessionID : String
  payload : Option CommitArrived

/-! ## Answers -/

inductive WorkSite where
  | session | refMode | openRepo | source | draftRef | draftCommit | mergeBase | sourceAgain | mergedTree | storeCommit
  | setReference | getConflict | markResolved | insertConflict | refetch
deriving DecidableEq

/-- How an attempt to emit ends: an error that may pass is tried again.  The row may be there in spite of an error. -/
inductive EmitAnswer where
  | ok
  | transient (written : Bool)
  | lasting (written : Bool)
deriving DecidableEq

structure Answers where
  down : WorkSite → Option String
  session : Option String
  refMode : Option String
  mergeBase : List Commit
  world : World
  order : List Path
  trees : Hash → Option Tree
  mergeID : Hash
  emit : List EmitAnswer
  emitResolved : List EmitAnswer
  newID : String

inductive Handled where
  | badPayload | noSession | modeFailed | isolated | noRepo | noSource | noDraftRef | noDraftCommit | noMergeBase
  | mergeFailed (text : String)
  | applied (result : MergeResult) (failure : Option String)

/-! ## Preparing the merge -/

def refModeForSession (a : Answers) (defaultMode : String) : Except Handled String :=
  match a.down .refMode with
  | some _ => .error .modeFailed
  | none => .ok (a.refMode.getD defaultMode)

structure Prepared where
  ref : String
  source : Commit
  draftTip : Hash
  draft : Commit
  ancestor : Commit

def readObject {α : Type} (a : Answers) (site : WorkSite) (failure : Handled) (found : Option α) : Except Handled α :=
  match a.down site, found with
  | none, some x => .ok x
  | _, _ => .error failure

/-- `processEvent` up to the merge. -/
def prepare (a : Answers) (e : Arrived) (disk : Repo) : Except Handled Prepared := do
  let payload ← e.payload.elim (.error .badPayload) .ok
  let defaultMode ← readObject a .session .noSession a.session
  let mode ← refModeForSession a defaultMode
  if mode = "isolated" then .error .isolated
  else do
    let _ ← readObject a .openRepo .noRepo (some ())
    let source ← readObject a .source .noSource (disk.commitObject (newHash payload.sha))
    let draftTip ← readObject a .draftRef .noDraftRef (disk.reference (draftRefName e.sessionID)).toOption
    let draft ← readObject a .draftCommit .noDraftCommit (disk.commitObject draftTip)
    -- the first of the best common ancestors
    let ancestor ← readObject a .mergeBase .noMergeBase a.mergeBase.head?
    return ⟨payload.ref, source, draftTip, draft, ancestor⟩

/-! ## Applying the result -/

def emitMaxRetries : Nat := 3

/-- `emitWithRetry`: how often the notice went into the log, and whether an attempt succeeded. -/
def emitWithRetry : Nat → List EmitAnswer → Nat × Bool
  | 0, _ => (0, false)
  | _ + 1, [] => (0, false)
  | _ + 1, .ok :: _ => (1, true)
  | n + 1, .transient written :: answers =>
    let rest := emitWithRetry n answers
    ((if written then 1 else 0) + rest.1, rest.2)
  | _ + 1, .lasting written :: _ => (if written then 1 else 0, false)

def errEmitAfterSideEffect : String := "automerger: side effect committed but event emit failed"

def Desk.announce (s : Desk) (notice : Notice) (answers : List EmitAnswer) : Desk × Option String :=
  let sent := emitWithRetry emitMaxRetries answers
  ({ s with log := s.log ++ List.replicate sent.1 notice }, if sent.2 then none else some errEmitAfterSideEffect)

/-- `Storer.SetEncodedObject` of a commit: an object that is there stays. -/
def store (repo : Repo) (c : Commit) : Repo :=
  if h : c.hash ∉ repo.commits.map (·.hash) ∧ c.hash ≠ .zero then
    { repo with
      commits := c :: repo.commits
      nodup := List.nodup_cons.2 ⟨h.1, repo.nodup⟩
      nonzero := fun hzero => (List.mem_cons.1 hzero).elim (fun hc => h.2 hc.symm) repo.nonzero }
  else repo

def storeTrees (repo : Repo) (trees : Hash → Option Tree) : Repo := { repo with tree := fun h => (repo.tree h).or (trees h) }

def mergeCommit (a : Answers) (p : Prepared) (result : MergeResult) : Commit where
  hash := a.mergeID
  parents := [p.draftTip, p.source.hash]
  treeHash := result.mergedTreeSHA.getD .zero
  message := composeMergeMessage p.source p.ref (if result.kind = .safeAutoResolve then result.heuristic else none)
  authorName := p.source.authorName
  authorEmail := p.source.authorEmail

def markConflictEventResolved (events : List ConflictEvent) (id sessionID : String) (merge : Hash) : List ConflictEvent :=
  events.map (fun ev => if ev.id = id ∧ ev.sessionID = sessionID ∧ ev.status = .open_ then
    { ev with status := .resolved, resolvingCommitSHA := some merge } else ev)

/-- `tryResolveConflict`; of its errors only a failed emit comes back out of `applySuccess`. -/
def tryResolveConflict (a : Answers) (sessionID eventID : String) (s : Desk) : Desk × Option String :=
  match a.down .getConflict, s.conflictEvents.find? (fun ev => ev.id = eventID) with
  | some _, _ => (s, none)
  | none, none => (s, none)
  | none, some ev =>
    if ev.sessionID ≠ sessionID ∨ ev.status ≠ .open_ then (s, none)
    else match a.down .markResolved with
      | some _ => (s, none)
      | none => Desk.announce { s with conflictEvents := markConflictEventResolved s.conflictEvents eventID sessionID a.mergeID }
          (.conflictResolved eventID a.mergeID) a.emitResolved

/-- The steps of `applySuccess` behind the draft ref. -/
def announceSuccess (a : Answers) (e : Arrived) (p : Prepared) (s : Desk) : Desk × Option String :=
  match s.announce (.mergeSucceeded p.source.hash a.mergeID) a.emit with
  | (s', some text) => (s', some text)
  | (s', none) =>
    let eventID := (Trailers.lookup p.source.message.toList "Resolves-Conflict".toList).getD []
    if eventID ≠ [] then tryResolveConflict a e.sessionID (String.ofList eventID) s' else (s', none)

def applySuccess (a : Answers) (e : Arrived) (p : Prepared) (result : MergeResult) (s : Desk) : Desk × Option String :=
  match a.down .sourceAgain with
  | some text => (s, some ("automerger apply: get source commit: " ++ text))
  | none =>
    match a.down .mergedTree, s.disk.tree (result.mergedTreeSHA.getD .zero) with
    | some text, _ => (s, some ("automerger apply: get merged tree: " ++ text))
    | none, none => (s, some ("automerger apply: get merged tree: " ++ GitErr.objectNotFound.text))
    | none, some _ =>
      match a.down .storeCommit with
      | some text => (s, some ("automerger apply: store merge commit: " ++ text))
      | none =>
        let disk := store s.disk (mergeCommit a p result)
        match a.down .setReference with
        | some text => ({ s with disk := disk }, some ("automerger apply: advance draft ref: " ++ text))
        | none => announceSuccess a e p { s with disk := Server.setReference disk (draftRefName e.sessionID) a.mergeID }

/-- After an error the owner of the ref alone, and without one whatever was found. -/
def conflictAddressees (a : Answers) (p : Prepared) (result : MergeResult) (disk : Repo) : List String :=
  match computeAddressedTo a.world disk p.draftTip result.conflicts p.ref with
  | (addressedTo, none) => addressedTo
  | (addressedTo, some _) => if parseSourceRefOwner p.ref ≠ "" then [parseSourceRefOwner p.ref] else addressedTo

def applyConflict (a : Answers) (e : Arrived) (p : Prepared) (result : MergeResult) (s : Desk) : Desk × Option String :=
  let event : ConflictEvent := ⟨a.newID, e.orgID, e.sessionID, p.source.hash, p.draftTip, p.ancestor.hash, result.conflicts,
    conflictAddressees a p result s.disk, .open_, none⟩
  match a.down .insertConflict with
  | some text => (s, some ("automerger apply: insert conflict event: " ++ text))
  | none =>
    match Desk.announce { s with conflictEvents := s.conflictEvents ++ [event] } (.conflictDetected event) a.emit with
    | (s', some text) => (s', some text)
    | (s', none) => (s', (a.down .refetch).map ("automerger apply: re-fetch conflict event: " ++ ·))

def apply (a : Answers) (e : Arrived) (p : Prepared) (result : MergeResult) (s : Desk) : Desk × Option String :=
  if result.kind = .hardConflict then applyConflict a e p result s else applySuccess a e p result s

/-! ## The worker -/

def processEvent (a : Answers) (e : Arrived) (s : Desk) : Desk × Handled :=
  match prepare a e s.disk with
  | .error reason => (s, reason)
  | .ok p =>
    let s₁ := { s with disk := storeTrees s.disk a.trees }
    match merge a.world s.disk p.source p.draft p.ancestor a.order with
    | .error text => (s₁, .mergeFailed text)
    | .ok result =>
      let out := apply a e p result s₁
      (out.1, .applied result out.2)

end Jamsesh.Automerger
