import Jamsesh.HeldCommits
import Jamsesh.Portal
/-!
# Fork — the fork tool (`mcpendpoint/tools.go`)

A member lets a branch of their own name a commit of the session's repository.  The tool checks the caller, the branch and the
commit (`checkFork`), and then writes the reference, whatever it was before, the mode of the ref and an event.
-/
namespace Jamsesh.Mcpendpoint

open Git Portal

structure ForkInput where
  sessionID : String
  targetCommitSHA : String
  targetRef : Option String
  mode : Option String
deriving DecidableEq

structure ForkCalls where
  memberships : Option String
  validate : String → Option String
  setReference : Option String
  upsertRefMode : Option String

inductive ForkErr where
  | unauthenticated
  | memberships (text : String)
  | notMember (sessionID : String)
  | emptySuffix
  | dotDot (suffix : String)
  | characters (suffix : String)
  | refName (name text : String)
  | openRepo (text : String)
  | noCommit (sha : String)
  | setRef (text : String)
  | refMode (text : String)
deriving DecidableEq

/-- `findOrg`: the organisation of the caller's membership, of a session that is there. -/
def findOrg (calls : ForkCalls) (db : Db) (accountID sessionID : String) : Except ForkErr String :=
  match calls.memberships with
  | some text => .error (.memberships text)
  | none =>
    match db.sessionMembers.lookup (sessionID, accountID), db.sessions.lookup sessionID with
    | some m, some _ => .ok m.orgID
    | _, _ => .error (.notMember sessionID)

def wordChar (c : Char) : Bool := c.isAlphanum || c = '_'

/-- `refSuffixPattern` -/
def matchesSuffixPattern : Text → Bool
  | [] => false
  | c :: cs => wordChar c && cs.all (fun d => wordChar d || d = '.' || d = '-')

def validateForkTargetRef (suffix : Text) : Option ForkErr :=
  if suffix = [] then some .emptySuffix
  else if Text.contains suffix "..".toList then some (.dotDot (String.ofList suffix))
  else if !matchesSuffixPattern suffix then some (.characters (String.ofList suffix))
  else none

/-- The branch: the caller's name for it, or one from the id.  The source cuts the id by bytes; where that differs the name has a
character that the pattern refuses. -/
def branchSuffix (input : ForkInput) : Text :=
  match input.targetRef with
  | none => "fork-".toList ++ input.targetCommitSHA.toList.take 7
  | some ref =>
    if ref = "" then "fork-".toList ++ input.targetCommitSHA.toList.take 7
    else
      let heads := "refs/heads/".toList
      if Text.hasPrefix ref.toList heads then ref.toList.drop heads.length else ref.toList

def forkRefName (sessionID accountID : String) (suffix : Text) : String :=
  "refs/heads/jam/" ++ sessionID ++ "/" ++ accountID ++ "/" ++ String.ofList suffix

structure Fork where
  ref : String
  target : Hash
  mode : String
deriving DecidableEq

/-- The tool up to its first write; `plainOpen` opens the session's repository under an organisation. -/
def checkFork (calls : ForkCalls) (db : Db) (plainOpen : String → Except String Repo) (caller : Option String)
    (input : ForkInput) : Except ForkErr Fork := do
  let accountID ← caller.elim (.error .unauthenticated) .ok
  let orgID ← findOrg calls db accountID input.sessionID
  match validateForkTargetRef (branchSuffix input) with
  | some e => .error e
  | none =>
    let name := forkRefName input.sessionID accountID (branchSuffix input)
    match calls.validate name with
    | some text => .error (.refName name text)
    | none => do
      let repo ← (plainOpen orgID).mapError .openRepo
      match repo.commitObject (newHash input.targetCommitSHA) with
      | none => .error (.noCommit input.targetCommitSHA)
      | some _ =>
        let mode := input.mode.getD ""
        .ok ⟨name, newHash input.targetCommitSHA, if mode = "" then "sync" else mode⟩

def setFork (calls : ForkCalls) (f : Fork) (disk : Repo) : Repo :=
  match calls.setReference with
  | some _ => disk
  | none => Server.setReference disk f.ref f.target

def fork (calls : ForkCalls) (db : Db) (plainOpen : String → Except String Repo) (caller : Option String) (input : ForkInput)
    (disk : Repo) : Repo × Except ForkErr Fork :=
  match checkFork calls db plainOpen caller input with
  | .error e => (disk, .error e)
  | .ok f =>
    (setFork calls f disk, match calls.setReference, calls.upsertRefMode with
      | some text, _ => .error (.setRef text)
      | none, some text => .error (.refMode text)
      | none, none => .ok f)

/-- **A fork that passes**: a member, a branch that the checks let through and a commit that is there. -/
structure Passes (calls : ForkCalls) (db : Db) (plainOpen : String → Except String Repo) (caller : Option String)
    (input : ForkInput) (accountID orgID : String) (repo : Repo) : Prop where
  caller : caller = some accountID
  member : findOrg calls db accountID input.sessionID = .ok orgID
  suffix : validateForkTargetRef (branchSuffix input) = none
  name : calls.validate (forkRefName input.sessionID accountID (branchSuffix input)) = none
  opens : plainOpen orgID = .ok repo
  commit : (repo.commitObject (newHash input.targetCommitSHA)).isSome

theorem checkFork_ok {calls : ForkCalls} {db : Db} {plainOpen : String → Except String Repo} {caller : Option String}
    {input : ForkInput} {f : Fork} (h : checkFork calls db plainOpen caller input = .ok f) :
    ∃ accountID orgID repo, Passes calls db plainOpen caller input accountID orgID repo := by
  unfold checkFork at h
  cases caller with
  | none => cases h
  | some accountID =>
    cases horg : findOrg calls db accountID input.sessionID with
    | error =>
      simp only [Option.elim, bind, Except.bind, horg] at h
      cases h
    | ok orgID =>
      simp only [Option.elim, bind, Except.bind, horg] at h
      split at h
      · cases h
      rename_i hs
      split at h
      · cases h
      rename_i hn
      cases ho : plainOpen orgID with
      | error =>
        rw [ho] at h
        cases h
      | ok repo =>
        rw [ho] at h
        dsimp only [Except.mapError] at h
        split at h
        · cases h
        · rename_i hc
          exact ⟨accountID, orgID, repo, rfl, horg, hs, hn, ho, by rw [hc]; rfl⟩

end Jamsesh.Mcpendpoint
