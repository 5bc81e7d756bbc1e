import Jamsesh.PktLine
/-!
# ReceivePack — a push and what follows it (`githttp/receive_pack.go`, `postreceive/emitter.go`)

The handler reads the command list, validates the push, and hands the body to `git receive-pack`, which decides each ref on
its own and exits with 0.  The steps that follow go by the command list (`Action`).  What the subprocess leaves, its exit and
the repository on disk, is an input.
-/
namespace Jamsesh.Githttp

open Git Prereceive

/-! ## Events -/

structure CommitArrived where
  sha : String
  ref : String
  summary : String
  authorID : String
deriving DecidableEq

def commitSummary (message : String) : String :=
  String.ofList (Text.trimSpace (Text.beforeNewline message.toList))

def commitAuthorID (message authorEmail : String) : String :=
  match Trailers.lookup message.toList "Jam-Author".toList with
  | some v => if Text.trimSpace v ≠ [] then String.ofList v else authorEmail
  | none => authorEmail

def CommitArrived.of (u : RefUpdate) (c : Commit) : CommitArrived :=
  ⟨c.hash.string, u.ref, commitSummary c.message, commitAuthorID c.message c.authorEmail⟩

structure Faults where
  setReference : Option String
  setBaseSHA : Option String
  emitBatch : RefUpdate → Option String
  sync : Option String

inductive Action where
  | seedDraft (u : RefUpdate)
  | stampBase (u : RefUpdate)
  | emit (u : RefUpdate) (events : List CommitArrived)
deriving DecidableEq

def Action.update : Action → RefUpdate
  | seedDraft u => u
  | stampBase u => u
  | emit u _ => u

def maxCommitsPerUpdate : Nat := 1000

def isNoop (u : RefUpdate) (baseSHA : String) : Bool :=
  (u.oldSHA ≠ "" ∧ u.oldSHA = u.newSHA) ∨ (baseSHA ≠ "" ∧ baseSHA = u.newSHA)

def stops (u : RefUpdate) (baseSHA : String) : List Hash :=
  (if u.oldSHA ≠ "" then [newHash u.oldSHA] else []) ++
    (if baseSHA ≠ "" ∧ baseSHA ≠ u.newSHA then [newHash baseSHA] else [])

/-- The commits of the walk before the first stop, newest first; the cap is for a walk without stops. -/
def newCommits (repo : Repo) (stops : List Hash) (items : List (Except Hash Hash)) : Except GitErr (List Commit) :=
  repo.collect (fun h => decide (h ∈ stops)) (if stops = [] then items.take maxCommitsPerUpdate else items)

def emitCommits (faults : Faults) (u : RefUpdate) (newestFirst : List Commit) : Except String (List CommitArrived) :=
  if newestFirst.isEmpty then .ok []
  else match faults.emitBatch u with
    | some text => .error text
    | none => .ok (newestFirst.reverse.map (CommitArrived.of u))

def emitForUpdate (faults : Faults) (repo : Repo) (u : RefUpdate) (baseSHA : String) :
    Except String (List CommitArrived) :=
  if isNoop u baseSHA then .ok []
  else match repo.log (newHash u.newSHA) with
    | .error e => .error ("postreceive: log from " ++ u.newSHA ++ ": " ++ e.text)
    | .ok items =>
      match newCommits repo (stops u baseSHA) items with
      | .error e => .error ("postreceive: walk commits for " ++ u.ref ++ ": " ++ e.text)
      | .ok newestFirst => emitCommits faults u newestFirst

/-- `EmitForUpdates`: the batches that were emitted, and the error that ended it. -/
def emitForUpdates (faults : Faults) (repo : Repo) (baseSHA : String) : List RefUpdate → List Action × Option String
  | [] => ([], faults.sync)
  | u :: us =>
    match emitForUpdate faults repo u baseSHA with
    | .error e => ([], some e)
    | .ok events =>
      let rest := emitForUpdates faults repo baseSHA us
      ((if events.isEmpty then [] else [.emit u events]) ++ rest.1, rest.2)

/-! ## The steps after the subprocess -/

def baseRefName (sessionID : String) : String := "refs/heads/jam/" ++ sessionID ++ "/base"

def draftRefName (sessionID : String) : String := "refs/heads/jam/" ++ sessionID ++ "/draft"

/-- `findBaseRefUpdate`, which does not look at the old id. -/
def findBaseRefUpdate (sessionID : String) (updates : List RefUpdate) : Option RefUpdate :=
  updates.find? (fun u => u.ref = baseRefName sessionID ∧ (u.ref.toList.drop refPrefix.length).count '/' = 1)

def seedDraft (faults : Faults) (sessionID : String) (disk : Repo) (updates : List RefUpdate) : List Action :=
  match updates.find? (fun u => u.ref = baseRefName sessionID ∧ u.oldSHA = "") with
  | none => []
  | some u =>
    match disk.reference (draftRefName sessionID) with
    | .ok _ => []
    | .error _ => if faults.setReference.isSome then [] else [.seedDraft u]

def stampBase (faults : Faults) (sessionID : String) (updates : List RefUpdate) : List Action :=
  match findBaseRefUpdate sessionID updates with
  | none => []
  | some u => if faults.setBaseSHA.isSome then [] else [.stampBase u]

/-- The base the events are counted from: this push's, or the one in the session's row. -/
def effectiveBase (sessionID : String) (stored : Option String) (updates : List RefUpdate) : String :=
  match findBaseRefUpdate sessionID updates with
  | some u => u.newSHA
  | none => stored.getD ""

def postReceive (faults : Faults) (sessionID : String) (stored : Option String) (disk : Repo) (updates : List RefUpdate) :
    List Action × Option String :=
  let emitted := emitForUpdates faults disk (effectiveBase sessionID stored updates) updates
  (seedDraft faults sessionID disk updates ++ stampBase faults sessionID updates ++ emitted.1, emitted.2)

/-! ## The handler -/

inductive Subprocess where
  | truncated (text : String)
  | failed (text : String) (reportStatus : Bool)
  | unfed (text : String)
  | exited (disk : Except String Repo)

inductive Response where
  | badRequest (text : String)
  | internal (text : String)
  | rejected (rejections : List Rejection)
  | report

structure Push where
  body : Text
  accountID : String
  session : Except String (Session × Option String)
  currentBytes : Int
  /-- `buildValidationRepo`: the pack's objects over those on disk, with the refs on disk. -/
  validationRepo : Text → Except String Repo
  git : Subprocess
  faults : Faults

/-- The handler up to the subprocess: a push that passes goes on with its updates. -/
def Push.accept (lib : Lib) (limits : Limits) (push : Push) :
    Except Response (List RefUpdate × Session × Option String) :=
  match readCommandList push.body with
  | .error _ => .error (.badRequest "malformed push request")
  | .ok commands =>
    match push.validationRepo commands.pack with
    | .error e => .error (.internal e)
    | .ok repo =>
      match push.session with
      | .error e => .error (.internal e)
      | .ok (session, baseSHA) =>
        match validate lib limits
            ⟨repo, session, push.accountID, commands.updates, push.body.length, push.currentBytes⟩ with
        | .error (.error e) => .error (.internal e)
        | .error (.panic _) => .error (.internal "slice bounds out of range")
        | .ok [] => .ok (commands.updates, session, baseSHA)
        | .ok rejections => .error (.rejected rejections)

def receivePack (lib : Lib) (limits : Limits) (push : Push) : List Action × Response :=
  match push.accept lib limits with
  | .error response => ([], response)
  | .ok (updates, session, baseSHA) =>
    match push.git with
    | .truncated e => ([], .internal e)
    | .failed e reportStatus => ([], if reportStatus then .report else .internal e)
    | .unfed e => ([], .internal e)
    | .exited (.error e) => ([], .internal e)
    | .exited (.ok disk) =>
      match postReceive push.faults session.id baseSHA disk updates with
      | (actions, some e) => (actions, .internal e)
      | (actions, none) => (actions, .report)

end Jamsesh.Githttp
