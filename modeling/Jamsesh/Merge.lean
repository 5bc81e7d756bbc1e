import Jamsesh.Git
import Jamsesh.Heuristics
import Jamsesh.KeyedFold
import Mathlib.Data.Finset.Sort
import Mathlib.Data.String.Basic
/-!
# Merge — the three-way merge of the auto-merger (`automerger/merge.go`)

The merge flattens the base tree, turns the two base-relative diffs into maps from path to side change, and settles the
changed paths one by one in that map, in any order.  Reads and writes of objects and the subprocesses are a `World`, whose
answers may depend on the path, so any pattern of failures is one `World`.
-/
namespace Jamsesh.Automerger

open Git

inductive Role where
  | base | ours | theirs
deriving DecidableEq

inductive WriteSite where
  | merged | conflict | resolved
deriving DecidableEq

structure DirEntry where
  name : String
  hash : Hash
  mode : FileMode
deriving DecidableEq

structure World where
  diffTree : DiffTree
  hasBlob : Hash → Bool
  readBlob : Path → Role → Hash → Except GitErr Text
  writeBlob : Path → WriteSite → Text → Except GitErr Hash
  /-- `Storer.SetEncodedObject` of a directory, in the merge's first or second attempt to write trees. -/
  writeTree : Bool → Path → List DirEntry → Except GitErr Hash
  mergeFile : Path → Text → Text → Text → Except String (Text × Int)
  diff : Diff

/-! ## Results -/

inductive ResultKind where
  | cleanMerge | safeAutoResolve | hardConflict
deriving DecidableEq

structure Conflict where
  file : Path
  ranges : List LineRange
deriving DecidableEq

structure MergeResult where
  kind : ResultKind
  mergedTreeSHA : Option Hash
  heuristic : Option Heuristic
  conflicts : List Conflict
  mergedEntries : FlatTree

/-! ## Side changes -/

structure File where
  name : String
  hash : Hash
  mode : FileMode
deriving DecidableEq

structure SideChange where
  fromHash : Hash
  toHash : Hash
  fromPath : Path
  toPath : Path
  mode : FileMode
  deleted : Bool
  added : Bool
deriving DecidableEq

/-- One side of `Change.Files`: `none` for a side that is not a file. -/
def changeFile (hasBlob : Hash → Bool) (e : ChangeEntry) : Except GitErr (Option File) :=
  if !e.entry.mode.isFile then .ok none
  else if hasBlob e.entry.hash then .ok (some ⟨e.entryName, e.entry.hash, e.entry.mode⟩)
  else .error .objectNotFound

/-- `Change.Files`: both sides are missing as soon as one that is there is not a file. -/
def changeFiles (hasBlob : Hash → Bool) (ch : Change) : Except GitErr (Option File × Option File) :=
  match ch.toEntry, ch.fromEntry with
  | none, none => .error ⟨"malformed change: empty from and to"⟩
  | some t, none => do
    let tgt ← changeFile hasBlob t
    return (none, tgt)
  | none, some f => do
    let src ← changeFile hasBlob f
    return (src, none)
  | some t, some f => do
    match ← changeFile hasBlob t with
    | none => return (none, none)
    | some tgt =>
      match ← changeFile hasBlob f with
      | none => return (none, none)
      | some src => return (some src, some tgt)

def effectivePath (sc : SideChange) : Path := if sc.toPath ≠ "" then sc.toPath else sc.fromPath

def sideChange (src tgt : Option File) : SideChange where
  fromHash := (src.map (·.hash)).getD .zero
  toHash := (tgt.map (·.hash)).getD .zero
  fromPath := (src.map (·.name)).getD ""
  toPath := (tgt.map (·.name)).getD ""
  mode := ((tgt.or src).map (·.mode)).getD .empty
  deleted := tgt.isNone
  added := src.isNone

abbrev SideChanges := Finmap (fun _ : Path => SideChange)

/-- The loop of `buildSideChanges`: a later change under the same path replaces an earlier one. -/
def buildSideChanges (hasBlob : Hash → Bool) (side : String) :
    List Change → SideChanges → Except String SideChanges
  | [], out => .ok out
  | ch :: chs, out =>
    match changeFiles hasBlob ch with
    | .error e => .error ("automerger: " ++ side ++ " change files: " ++ e.text)
    | .ok (src, tgt) =>
      let sc := sideChange src tgt
      buildSideChanges hasBlob side chs (out.insert (effectivePath sc) sc)

/-- `flattenTreeInto`: a submodule has no tree to descend into. -/
def flattenTreeInto : Node → String → FlatTree → Except String FlatTree
  | .nil, _, out => .ok out
  | .file name entry rest, pre, out =>
    if entry.mode = .submodule then .error ("flattenTree sub-tree " ++ joinPath pre name ++ ": directory not found")
    else flattenTreeInto rest pre (out.insert (joinPath pre name) entry)
  | .dir name sub rest, pre, out => do
    let out' ← flattenTreeInto sub (joinPath pre name) out
    flattenTreeInto rest pre out'

def flattenTree (t : Tree) : Except String FlatTree := flattenTreeInto t.root "" ∅

structure MergeDiff where
  ourChanges : SideChanges
  theirChanges : SideChanges
  mergedEntries : FlatTree

def MergeDiff.pathSet (diff : MergeDiff) : Finset Path := diff.ourChanges.keys ∪ diff.theirChanges.keys

def wrapErr (ctx : String) {α : Type} : Except GitErr α → Except String α
  | .ok a => .ok a
  | .error e => .error (ctx ++ e.text)

def requireTree (ctx : String) (t : Option Tree) : Except String Tree :=
  match t with
  | some t => .ok t
  | none => .error (ctx ++ GitErr.objectNotFound.text)

/-- `computeMergeDiff` from the three trees on. -/
def diffTrees (world : World) (base ours theirs : Tree) : Except String MergeDiff := do
  let baseToOurs ← wrapErr "automerger: diff base→ours: " (world.diffTree (some base) ours)
  let baseToTheirs ← wrapErr "automerger: diff base→theirs: " (world.diffTree (some base) theirs)
  let ourChanges ← buildSideChanges world.hasBlob "ours" baseToOurs ∅
  let theirChanges ← buildSideChanges world.hasBlob "theirs" baseToTheirs ∅
  match flattenTree base with
  | .error e => .error ("automerger: flatten base tree: " ++ e)
  | .ok mergedEntries => .ok ⟨ourChanges, theirChanges, mergedEntries⟩

def computeMergeDiff (world : World) (repo : Repo) (ancestor draftTip source : Commit) : Except String MergeDiff := do
  let base ← requireTree "automerger: ancestor tree: " (repo.treeOf ancestor)
  let ours ← requireTree "automerger: draftTip tree: " (repo.treeOf draftTip)
  let theirs ← requireTree "automerger: source tree: " (repo.treeOf source)
  diffTrees world base ours theirs

/-! ## Settling the paths -/

structure ConflictedFile where
  path : Path
  base : Text
  ours : Text
  theirs : Text
  mode : FileMode
  ranges : List LineRange
deriving DecidableEq

structure MergeState where
  mergedEntries : FlatTree
  hardConflicts : List Conflict
  conflictedFiles : List ConflictedFile

/-- `blobContent`: the zero id reads as an empty file. -/
def blobContent (world : World) (p : Path) (role : Role) (h : Hash) : Except GitErr Text :=
  if h = .zero then .ok [] else world.readBlob p role h

def SideChange.entry (sc : SideChange) : Option TreeEntry := if sc.deleted then none else some ⟨sc.toHash, sc.mode⟩

/-- `state.mergedEntries[path] = entry`, or its deletion. -/
def MergeState.setEntry (st : MergeState) (p : Path) (e : Option TreeEntry) : MergeState :=
  { st with mergedEntries := KeyedFold.Map.set st.mergedEntries p e }

structure Versions where
  base : Text
  ours : Text
  theirs : Text

/-- The three reads of `runThreeWayMerge`. -/
def readVersions (world : World) (path : Path) (baseHash oursHash theirsHash : Hash) : Except String Versions := do
  let base ← wrapErr ("automerger: read base blob " ++ path ++ ": ") (blobContent world path .base baseHash)
  let ours ← wrapErr ("automerger: read ours blob " ++ path ++ ": ") (blobContent world path .ours oursHash)
  let theirs ← wrapErr ("automerger: read theirs blob " ++ path ++ ": ") (blobContent world path .theirs theirsHash)
  return ⟨base, ours, theirs⟩

/-- The hash of `mergedEntries[path]`, zero for a path that is not there. -/
def entryHash (e : Option TreeEntry) : Hash := (e.map (·.hash)).getD .zero

/-- The write at the end of `runThreeWayMerge`, of merged content or of conflict markers. -/
def writeMerged (world : World) (path : Path) (site : WriteSite) (content : Text) : Except String Hash :=
  match site with
  | .conflict => wrapErr ("automerger: write conflict blob " ++ path ++ ": ") (world.writeBlob path .conflict content)
  | _ => wrapErr ("automerger: write merged blob " ++ path ++ ": ") (world.writeBlob path .merged content)

def runThreeWayMerge (world : World) (st : MergeState) (path : Path) (ourCh theirCh : SideChange) :
    Except String MergeState :=
  -- the base blob is read out of the map that is being merged into
  match readVersions world path (entryHash (st.mergedEntries.lookup path)) ourCh.toHash theirCh.toHash with
  | .error e => .error e
  | .ok v =>
    match world.mergeFile path v.base v.ours v.theirs with
    | .error e => .error ("automerger: merge-file " ++ path ++ ": " ++ e)
    | .ok (merged, numConflicts) =>
      if numConflicts = 0 then
        (writeMerged world path .merged merged).map (fun h => st.setEntry path (some ⟨h, ourCh.mode⟩))
      else
        let cf : ConflictedFile := ⟨path, v.base, v.ours, v.theirs, ourCh.mode, parseConflictRanges merged⟩
        (writeMerged world path .conflict merged).map (fun h =>
          { st.setEntry path (some ⟨h, ourCh.mode⟩) with conflictedFiles := st.conflictedFiles ++ [cf] })

def mergeBothModifiedPath (world : World) (st : MergeState) (path : Path) (ourCh theirCh : SideChange) :
    Except String MergeState :=
  if ourCh.deleted && theirCh.deleted then .ok (st.setEntry path none)
  else if ourCh.deleted || theirCh.deleted then .ok { st with hardConflicts := st.hardConflicts ++ [⟨path, []⟩] }
  else if ourCh.toHash = theirCh.toHash then .ok (st.setEntry path (some ⟨ourCh.toHash, ourCh.mode⟩))
  else runThreeWayMerge world st path ourCh theirCh

/-- One round of the loop of `applyChangesPerPath`. -/
def applyPath (world : World) (diff : MergeDiff) (st : MergeState) (path : Path) : Except String MergeState :=
  match diff.ourChanges.lookup path, diff.theirChanges.lookup path with
  | none, some theirCh => .ok (st.setEntry path theirCh.entry)
  | some ourCh, none => .ok (st.setEntry path ourCh.entry)
  | some ourCh, some theirCh => mergeBothModifiedPath world st path ourCh theirCh
  | none, none => .ok st

def applyPaths (world : World) (diff : MergeDiff) : List Path → MergeState → Except String MergeState
  | [], st => .ok st
  | p :: ps, st => do
    let st' ← applyPath world diff st p
    applyPaths world diff ps st'

def applyChangesPerPath (world : World) (diff : MergeDiff) (order : List Path) : Except String MergeState :=
  applyPaths world diff order ⟨diff.mergedEntries, [], []⟩

/-! ## Writing the tree -/

def segments (p : Path) : List Text := Text.split '/' p.toList

def joinSegments (segs : List Text) : Path := String.ofList (['/'].intercalate segs)

def dirOf (p : Path) : Path := joinSegments (segments p).dropLast

def baseOf (p : Path) : String := String.ofList ((segments p).getLastD [])

def dirsAbove (p : Path) : List Path := ((segments p).inits.drop 1).dropLast.map joinSegments

def depth (p : Path) : Nat := p.toList.count '/'

def dirLe (a b : Path) : Bool := if depth a ≠ depth b then depth b < depth a else b ≤ a

def sortName (e : DirEntry) : String := if e.mode = .dir then e.name ++ "/" else e.name

/-- `Tree.Encode` accepts entries in git's order only. -/
def encodable : List DirEntry → Bool
  | a :: b :: es => decide (sortName a ≤ sortName b) && encodable (b :: es)
  | _ => true

def addChild (children : Path → List DirEntry) (dir : Path) (e : DirEntry) : Path → List DirEntry :=
  fun d => if d = dir then children d ++ [e] else children d

/-- The loop over the directories, children before parents; the last one is the root. -/
def buildDirs (world : World) (attempt : Bool) : List Path → (Path → List DirEntry) → Hash → Except String Hash
  | [], _, root => .ok root
  | dir :: dirs, children, _ => do
    let entries := (children dir).mergeSort (fun a b => a.name ≤ b.name)
    if !encodable entries then .error ("buildTree encode " ++ quote dir ++ ": entries in tree are not sorted")
    else
      let h ← wrapErr ("buildTree store " ++ quote dir ++ ": ") (world.writeTree attempt dir entries)
      let children' := if dir ≠ "" then addChild children (dirOf dir) ⟨baseOf dir, h, .dir⟩ else children
      buildDirs world attempt dirs children' h

/-- `buildTree`.  As the children of a directory are sorted, Go's map order and `sort.Slice`, which is not stable, can show only
between a file and a directory of one name. -/
def buildTree (world : World) (attempt : Bool) (entries : FlatTree) : Except String Hash :=
  let paths := entries.keys.sort (· ≤ ·)
  let files := paths.filterMap (fun p => (entries.lookup p).map (fun e => (dirOf p, DirEntry.mk (baseOf p) e.hash e.mode)))
  let dirs := ("" :: paths.flatMap dirsAbove).dedup.mergeSort dirLe
  buildDirs world attempt dirs (files.foldl (fun c f => addChild c f.1 f.2) (fun _ => [])) .zero

/-! ## Conflicts -/

structure ResolveState where
  state : MergeState
  worst : Option Heuristic
  allResolved : Bool

/-- Whether `h` outranks the worst label so far. -/
def outranks (h : Heuristic) (worst : Option Heuristic) : Bool :=
  heuristicPriority h > (worst.map heuristicPriority).getD (-1)

def worse (worst : Option Heuristic) (h : Heuristic) : Option Heuristic := if outranks h worst then some h else worst

/-- The loop of `resolveConflicts`; `false` when a failed write ended it. -/
def resolveLoop (world : World) : List ConflictedFile → ResolveState → ResolveState × Bool
  | [], acc => (acc, true)
  | cf :: cfs, acc =>
    match tryAutoResolve world.diff cf.base cf.ours cf.theirs with
    | none =>
      let st := { acc.state with hardConflicts := acc.state.hardConflicts ++ [⟨cf.path, cf.ranges⟩] }
      resolveLoop world cfs ⟨st, acc.worst, false⟩
    | some (resolved, heuristic) =>
      match world.writeBlob cf.path .resolved resolved with
      | .error _ => (⟨acc.state, worse acc.worst heuristic, acc.allResolved⟩, false)
      | .ok h =>
        resolveLoop world cfs
          ⟨acc.state.setEntry cf.path (some ⟨h, cf.mode⟩), worse acc.worst heuristic, acc.allResolved⟩

/-- `resolveConflicts`: the result when every file was resolved and its tree written, and the state either way.  An error
comes back as "not resolved". -/
def resolveConflicts (world : World) (st : MergeState) : Option MergeResult × MergeState :=
  match resolveLoop world st.conflictedFiles ⟨st, none, true⟩ with
  | (acc, false) => (none, acc.state)
  | (acc, true) =>
    if !acc.allResolved then (none, acc.state)
    else match buildTree world false acc.state.mergedEntries with
      | .error _ => (none, acc.state)
      | .ok h => (some ⟨.safeAutoResolve, some h, acc.worst, [], acc.state.mergedEntries⟩, acc.state)

/-- The end of `Merge`: hard conflicts if there are any, else the tree. -/
def finish (world : World) (st : MergeState) : Except String MergeResult :=
  if st.hardConflicts.length > 0 then .ok ⟨.hardConflict, none, none, st.hardConflicts, st.mergedEntries⟩
  else match buildTree world true st.mergedEntries with
    | .error e => .error ("automerger: build merged tree: " ++ e)
    | .ok h => .ok ⟨.cleanMerge, some h, none, [], st.mergedEntries⟩

/-- `Merge` from the settled paths on. -/
def conclude (world : World) (st : MergeState) : Except String MergeResult :=
  if st.conflictedFiles.length > 0 then
    if st.hardConflicts.length = 0 then
      match resolveConflicts world st with
      | (some result, _) => .ok result
      | (none, st') => finish world st'
    else
      finish world { st with
        hardConflicts := st.hardConflicts ++ st.conflictedFiles.map (fun cf => ⟨cf.path, cf.ranges⟩) }
  else finish world st

/-- `Merge` when it does not short-circuit. -/
def mergeDiff (world : World) (diff : MergeDiff) (order : List Path) : Except String MergeResult := do
  let st ← applyChangesPerPath world diff order
  conclude world st

def tryShortCircuit (repo : Repo) (source draftTip ancestor : Commit) : Option (Except String MergeResult) :=
  let ff := fun (ctx : String) (c : Commit) =>
    (requireTree ctx (repo.treeOf c)).map (fun t => MergeResult.mk .cleanMerge (some c.treeHash) none [] t.flat)
  if source.hash = ancestor.hash then some (ff "automerger: draftTip tree: " draftTip)
  else if draftTip.hash = ancestor.hash then some (ff "automerger: source tree: " source)
  else none

/-- `Merge`; `order` is the order in which the run iterates the changed paths. -/
def merge (world : World) (repo : Repo) (source draftTip ancestor : Commit) (order : List Path) :
    Except String MergeResult :=
  match tryShortCircuit repo source draftTip ancestor with
  | some r => r
  | none => do
    let diff ← computeMergeDiff world repo ancestor draftTip source
    mergeDiff world diff order

/-- **An iteration order of the changed paths**: each of them once. -/
structure MergeDiff.Order (diff : MergeDiff) (order : List Path) : Prop where
  nodup : order.Nodup
  mem : ∀ p, p ∈ order ↔ p ∈ diff.pathSet

end Jamsesh.Automerger
