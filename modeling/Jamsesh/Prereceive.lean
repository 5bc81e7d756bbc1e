import Jamsesh.Git
import Jamsesh.Trailers
/-!
# Prereceive — the push policy (`internal/portal/prereceive`)

`validate` runs every check on every update of a push and collects the rejections.  What comes from libraries is a `Lib`: the
tree diff of go-git, the glob matcher and the JSON reader.  A slice out of range is a Go panic, so the functions that cut an id
to twelve characters are `Except Panic`.
-/
namespace Jamsesh.Prereceive

open Git Trailers

structure Lib where
  /-- `object.DiffTreeWithOptions` with the default options; no parent is the empty tree. -/
  diffTree : DiffTree
  validatePattern : String → Bool
  globMatch : String → Path → Option Bool
  unmarshal : String → Except String (List String)

/-! ## Rejections -/

inductive Code where
  | scopeViolation | refNamespaceViolation | missingTrailer | sizeLimit | forcePushRejected | playgroundSizeExceeded
deriving DecidableEq

inductive Detail where
  | str (s : String)
  | strs (l : List String)
  | int (n : Int)
deriving DecidableEq

structure Rejection where
  code : Code
  message : String
  details : List (String × Detail)
deriving DecidableEq

inductive Panic where
  | sliceOutOfRange
deriving DecidableEq

/-- `s[:12]` -/
def short (s : String) : Except Panic String :=
  if s.length < 12 then .error .sliceOutOfRange else .ok (String.ofList (s.toList.take 12))

/-- Go's `%v` of a list of strings. -/
def showList (l : List String) : String := "[" ++ " ".intercalate l ++ "]"

structure RefUpdate where
  ref : String
  oldSHA : String
  newSHA : String
deriving DecidableEq

/-! ## The writable scope -/

structure ScopeMatcher where
  patterns : List String
deriving DecidableEq

def normalizeText : Text → Text
  | '*' :: '*' :: rest =>
    match rest with
    | [] => ['*', '*']
    | c :: _ => '*' :: '*' :: ((if c ≠ '/' then ['/', '*'] else []) ++ normalizeText rest)
  | c :: rest => c :: normalizeText rest
  | [] => []

def normalizeForDoublestar (p : String) : String :=
  if !Text.contains p.toList ['*', '*'] then p else String.ofList (normalizeText p.toList)

def compileScope (lib : Lib) : List String → Except String (List String)
  | [] => .ok []
  | p :: ps =>
    let n := normalizeForDoublestar p
    if !lib.validatePattern n then .error ("prereceive: invalid scope glob " ++ quote p ++ ": bad pattern syntax")
    else (compileScope lib ps).map (n :: ·)

/-- `ScopeMatcher.Match`: some pattern matches without an error. -/
def ScopeMatcher.matchPath (lib : Lib) (scope : ScopeMatcher) (p : Path) : Bool :=
  scope.patterns.any (fun pat => lib.globMatch pat p = some true)

def parseWritableScope (lib : Lib) (raw : String) : Except String (List String) :=
  if raw = "" then .ok []
  else match lib.unmarshal raw with
    | .error e => .error ("invalid JSON in writable_scope " ++ quote raw ++ ": " ++ e)
    | .ok globs => .ok globs

/-! ## Commits -/

def requiredTrailers : List String := ["Jam-Session", "Jam-Turn", "Jam-Author"]

/-- The tree a commit is compared with: its first parent's, or the empty one when there is none to read. -/
def parentTree (repo : Repo) (c : Commit) : Option Tree :=
  match c.parents with
  | [] => none
  | p :: _ => (repo.commitObject p).bind repo.treeOf

def changeViolations (lib : Lib) (scope : ScopeMatcher) (ch : Change) : List String :=
  (if ch.fromName ≠ "" ∧ !scope.matchPath lib ch.fromName then [ch.fromName] else []) ++
    (if ch.toName ≠ "" ∧ ch.toName ≠ ch.fromName ∧ !scope.matchPath lib ch.toName then [ch.toName] else [])

def scopeViolations (lib : Lib) (repo : Repo) (c : Commit) (scope : ScopeMatcher) : List String :=
  match repo.treeOf c with
  | none => ["<error: could not read commit tree>"]
  | some tree =>
    match lib.diffTree (parentTree repo c) tree with
    | .error _ => ["<error: could not diff trees>"]
    | .ok changes => changes.flatMap (changeViolations lib scope)

def missingTrailerRejection (c : Commit) (missing : List String) : Rejection where
  code := .missingTrailer
  message := "commit " ++ String.ofList (c.hash.text.take 12) ++ " is missing required trailers: " ++ showList missing
  details := [("commit", .str c.hash.string), ("missing", .strs missing)]

def scopeRejection (c : Commit) (violations : List String) : Rejection where
  code := .scopeViolation
  message := "commit " ++ String.ofList (c.hash.text.take 12) ++ " modifies paths outside the writable scope: " ++
    showList violations
  details := [("commit", .str c.hash.string), ("paths", .strs violations)]

def validateCommit (lib : Lib) (repo : Repo) (c : Commit) (scope : ScopeMatcher) : List Rejection :=
  let missing := checkRequiredTrailers c.message.toList requiredTrailers
  let trailerPart := if missing.length > 0 then [missingTrailerRejection c missing] else []
  -- a scope without patterns switches the check off
  let scopePart :=
    if scope.patterns.length > 0 then
      let violations := scopeViolations lib repo c scope
      if violations.length > 0 then [scopeRejection c violations] else []
    else []
  trailerPart ++ scopePart

def isStop (update : RefUpdate) (h : Hash) : Bool := update.oldSHA ≠ "" ∧ h = newHash update.oldSHA

def walkAndValidate (lib : Lib) (repo : Repo) (update : RefUpdate) (scope : ScopeMatcher) : List Rejection :=
  match repo.log (newHash update.newSHA) with
  | .error e =>
    [⟨.scopeViolation, "could not walk commits: " ++ e.text,
      [("ref", .str update.ref), ("new_sha", .str update.newSHA)]⟩]
  | .ok items =>
    match repo.collect (isStop update) items with
    | .error e => [⟨.scopeViolation, "commit iteration error: " ++ e.text, [("ref", .str update.ref)]⟩]
    | .ok commits => commits.flatMap (fun c => validateCommit lib repo c scope)

/-! ## Refs -/

def lower (c : Char) : Char := if 'A' ≤ c ∧ c ≤ 'Z' then Char.ofNat (c.toNat + 32) else c

def refSegmentSafe (s : Text) : Bool :=
  !Text.contains s "..".toList && !Text.contains (s.map lower) "%2e%2e".toList &&
    !Text.contains (s.map lower) "%252e".toList

def repoIsEmpty (repo : Repo) : Except GitErr Bool :=
  repo.references.map (fun refs => refs.all (fun r => match r.target with | .symbolic _ => true | .hash _ => false))

def refPrefix : Text := "refs/heads/jam/".toList

/-- `checkRefNamespace`: allowed, and whether the ref is the base ref. -/
def checkRefNamespace (repo : Repo) (sessionID accountKey ref : String) : Bool × Bool :=
  if !Text.hasPrefix ref.toList refPrefix then (false, false)
  else
    match Text.splitAtMost '/' 2 (ref.toList.drop refPrefix.length) with
    | refSession :: owner :: more =>
      if refSession ≠ sessionID.toList then (false, false)
      else if owner = "base".toList ∧ more = [] then
        match repoIsEmpty repo with
        | .ok true => (true, true)
        | _ => (false, true)
      else
        match more with
        | [] => (false, false)
        | branch :: _ =>
          if owner ≠ accountKey.toList then (false, false)
          else if branch = [] ∨ !refSegmentSafe branch then (false, false)
          else (true, false)
    | _ => (false, false)

def unresolvedRejection (update : RefUpdate) (which sha key : String) (e : GitErr) : Except Panic Rejection := do
  let cut ← short sha
  return ⟨.forcePushRejected,
    "ref " ++ quote update.ref ++ ": could not resolve " ++ which ++ " commit " ++ cut ++ ": " ++ e.text,
    [("ref", .str update.ref), (key, .str sha)]⟩

def updateDetails (update : RefUpdate) : List (String × Detail) :=
  [("ref", .str update.ref), ("old_sha", .str update.oldSHA), ("new_sha", .str update.newSHA)]

/-- `checkForcePush`: `none` when the old commit is an ancestor of the new one. -/
def checkForcePush (repo : Repo) (update : RefUpdate) (isBase : Bool) : Except Panic (Option Rejection) :=
  let oldHash := newHash update.oldSHA
  let newHash := newHash update.newSHA
  match repo.commitObject oldHash with
  | none => (unresolvedRejection update "old" update.oldSHA "old_sha" .objectNotFound).map some
  | some _ =>
    match repo.commitObject newHash with
    | none => (unresolvedRejection update "new" update.newSHA "new_sha" .objectNotFound).map some
    | some _ =>
      match repo.isAncestor oldHash newHash with
      | .error e =>
        .ok (some ⟨.forcePushRejected, "ref " ++ quote update.ref ++ ": ancestry check failed: " ++ e.text,
          updateDetails update⟩)
      | .ok true => .ok none
      | .ok false => do
        -- the message is built before the base ref replaces it, so both ids are cut either way
        let old ← short update.oldSHA
        let new ← short update.newSHA
        let msg := if isBase then "force-push to shared base ref " ++ quote update.ref ++ " is not allowed"
          else "force-push to ref " ++ quote update.ref ++ " rejected: " ++ old ++ " is not an ancestor of " ++ new
        return some ⟨.forcePushRejected, msg, updateDetails update⟩

def validateRef (repo : Repo) (sessionID accountKey : String) (update : RefUpdate) : Except Panic (List Rejection) :=
  match checkRefNamespace repo sessionID accountKey update.ref with
  | (false, _) =>
    .ok [⟨.refNamespaceViolation,
      "ref " ++ quote update.ref ++ " is outside your writable namespace (expected refs/heads/jam/" ++ sessionID ++ "/" ++
        accountKey ++ "/<branch>)",
      [("ref", .str update.ref), ("session_id", .str sessionID), ("account_id", .str accountKey)]⟩]
  | (true, isBase) =>
    if update.oldSHA ≠ "" then (checkForcePush repo update isBase).map Option.toList else .ok []

/-! ## Sizes -/

def checkPackSize (packBytes maxBytes : Int) : Option Rejection :=
  if maxBytes ≤ 0 then none
  else if packBytes > maxBytes then
    some ⟨.sizeLimit, "push pack is too large: " ++ toString packBytes ++ " bytes exceeds the " ++ toString maxBytes ++
      "-byte limit", [("pack_bytes", .int packBytes), ("max_bytes", .int maxBytes)]⟩
  else none

def reservedPlaygroundOrgID : String := "org_playground"

structure Session where
  id : String
  orgID : String
  writableScope : String
deriving DecidableEq

structure Limits where
  maxPackBytes : Int
  playgroundMaxContentBytes : Int
deriving DecidableEq

def int64 (n : Int) : Int := n.bmod (2 ^ 64)

/-- `CheckPlaygroundCaps`; `currentBytes` is what the walk over the repository directory summed up. -/
def checkPlaygroundCaps (limits : Limits) (session : Session) (packBytes currentBytes : Int) : Option Rejection :=
  if session.orgID ≠ reservedPlaygroundOrgID then none
  else if limits.playgroundMaxContentBytes ≤ 0 then none
  else if int64 (currentBytes + packBytes) > limits.playgroundMaxContentBytes then
    some ⟨.playgroundSizeExceeded,
      "playground session content limit exceeded: this push would exceed the " ++
        "maximum allowed repo size for a playground session",
      [("current_bytes", .int currentBytes), ("pack_bytes", .int packBytes),
        ("total_bytes", .int (int64 (currentBytes + packBytes))), ("max_bytes", .int limits.playgroundMaxContentBytes),
        ("session_id", .str session.id)]⟩
  else none

/-! ## The whole push -/

structure ValidateInput where
  repo : Repo
  session : Session
  accountID : String
  updates : List RefUpdate
  packBytes : Int
  currentBytes : Int

inductive Fault where
  | error (text : String)
  | panic (p : Panic)
deriving DecidableEq

def isBaseRefFirstPush (sessionID : String) (u : RefUpdate) : Bool :=
  u.oldSHA = "" ∧ u.ref = "refs/heads/jam/" ++ sessionID ++ "/base"

def validateUpdate (lib : Lib) (input : ValidateInput) (scope : ScopeMatcher) (u : RefUpdate) :
    Except Panic (List Rejection) := do
  let refPart ← validateRef input.repo input.session.id input.accountID u
  if isBaseRefFirstPush input.session.id u then return refPart
  return refPart ++ walkAndValidate lib input.repo u scope

def validateUpdates (lib : Lib) (input : ValidateInput) (scope : ScopeMatcher) :
    List RefUpdate → Except Panic (List Rejection)
  | [] => .ok []
  | u :: us => do
    let here ← validateUpdate lib input scope u
    let there ← validateUpdates lib input scope us
    return here ++ there

def sessionScope (lib : Lib) (session : Session) : Except String ScopeMatcher :=
  match parseWritableScope lib session.writableScope with
  | .error e => .error ("prereceive: parse writable_scope: " ++ e)
  | .ok globs =>
    match compileScope lib globs with
    | .error e => .error ("prereceive: compile scope: " ++ e)
    | .ok patterns => .ok ⟨patterns⟩

/-- `Validator.Validate`: the rejections of the push; it is accepted when there are none. -/
def validate (lib : Lib) (limits : Limits) (input : ValidateInput) : Except Fault (List Rejection) :=
  match sessionScope lib input.session with
  | .error e => .error (.error e)
  | .ok scope =>
    match validateUpdates lib input scope input.updates with
    | .error p => .error (.panic p)
    | .ok perRef =>
      .ok ((checkPackSize input.packBytes limits.maxPackBytes).toList ++ perRef ++
        (checkPlaygroundCaps limits input.session input.packBytes input.currentBytes).toList)

end Jamsesh.Prereceive
