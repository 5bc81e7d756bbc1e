import Jamsesh.Manifests
/-!
# Sync — a push mirrored to object storage (`objectstore/sync.go`)

`SyncPushPath` loads the manifest, uploads the loose objects and packs it finds, reads the refs, and saves a manifest that
lists the packs and the refs; packs that are no longer listed are deleted by a goroutine that goes on after the call returned.
-/
namespace Jamsesh.Objectstore

open GoString Prog

structure MapOrder (A : Type) where
  iterate : List A → List A
  perm : ∀ l, (iterate l).Perm l

def objectsDir : FilePath := [ofString "objects"]

def packDir : FilePath := [ofString "objects", ofString "pack"]

def refsDir : FilePath := [ofString "refs"]

def packedRefsPath : FilePath := [ofString "packed-refs"]

def slashed (p : FilePath) : GoString := (ofString "/").intercalate p

/-! ## Loose objects -/

def looseKey (sessionID name obj : GoString) : GoString :=
  ofString "sessions/" ++ sessionID ++ ofString "/objects/" ++ name ++ ofString "/" ++ obj

/-- Whether an entry of `objects/` is a directory of loose objects. -/
def isFanout (e : GoString × Bool) : Bool :=
  e.2 && e.1 ≠ ofString "info" && e.1 ≠ ofString "pack" && !hasPrefix e.1 (ofString "tmp_") && len e.1 = 2

def uploadObject (sessionID : GoString) (fencingToken : Int) (name : GoString) (obj : GoString × Bool) : Act Unit := do
  if obj.2 then return ()
  else
    match ← onDisk (.readFile (objectsDir ++ [name, obj.1])) with
    | .error e =>
      -- packed or deleted since the listing
      if e.kind = .notExist then return ()
      else throw (e.wrap (ofString "read object " ++ name ++ ofString "/" ++ obj.1))
    | .ok data =>
      match ← onStore (.putIdempotent (looseKey sessionID name obj.1) (.bytes data) fencingToken) with
      | .error e =>
        if e.kind = .alreadyExists then return ()
        else throw (e.wrap (ofString "upload object " ++ name ++ ofString "/" ++ obj.1))
      | .ok () => return ()

def uploadFanout (sessionID : GoString) (fencingToken : Int) (fanoutDir : GoString × Bool) : Act Unit := do
  if isFanout fanoutDir then
    match ← onDisk (.readDir (objectsDir ++ [fanoutDir.1])) with
    | .error e => throw (e.wrap (ofString "read fanout dir " ++ fanoutDir.1))
    | .ok objs => forEach (uploadObject sessionID fencingToken fanoutDir.1) objs
  else return ()

def uploadLooseObjects (sessionID : GoString) (fencingToken : Int) : Act Unit := do
  match ← onDisk (.readDir objectsDir) with
  | .error e => if e.kind = .notExist then return () else throw (e.wrap (ofString "read objects dir"))
  | .ok entries => forEach (uploadFanout sessionID fencingToken) entries

/-! ## Packs -/

def packKey (sessionID sha : GoString) : GoString :=
  ofString "sessions/" ++ sessionID ++ ofString "/packs/" ++ sha ++ ofString ".pack"

def idxKey (sessionID sha : GoString) : GoString :=
  ofString "sessions/" ++ sessionID ++ ofString "/packs/" ++ sha ++ ofString ".idx"

def packEntry (sessionID sha : GoString) : PackEntry := ⟨packKey sessionID sha, idxKey sessionID sha, sha⟩

structure LocalPack where
  sha : GoString
  packFn : GoString
  idxFn : GoString
deriving DecidableEq

def setLocal (sha : GoString) (f : LocalPack → LocalPack) : List LocalPack → List LocalPack
  | [] => [f ⟨sha, [], []⟩]
  | lp :: lps => if lp.sha = sha then f lp :: lps else lp :: setLocal sha f lps

def packSHA (fn suffix : GoString) : GoString :=
  trimPrefix (trimSuffix fn suffix) (ofString "pack-")

def addLocal (packs : List LocalPack) (e : GoString × Bool) : List LocalPack :=
  if e.2 then packs
  else if hasPrefix e.1 (ofString "pack-") && hasSuffix e.1 (ofString ".pack") then
    setLocal (packSHA e.1 (ofString ".pack")) (fun lp => { lp with packFn := e.1 }) packs
  else if hasPrefix e.1 (ofString "pack-") && hasSuffix e.1 (ofString ".idx") then
    setLocal (packSHA e.1 (ofString ".idx")) (fun lp => { lp with idxFn := e.1 }) packs
  else packs

def localPacks (entries : List (GoString × Bool)) : List LocalPack := entries.foldl addLocal []

/-- Upload one file of a pack; `false` when it has gone since the listing. -/
def uploadPackFile (fencingToken : Int) (reading uploading fn key : GoString) : Act Bool := do
  if fn = [] then return true
  else
    match ← onDisk (.readFile (packDir ++ [fn])) with
    | .error e => if e.kind = .notExist then return false else throw (e.wrap (reading ++ fn))
    | .ok data =>
      match ← onStore (.putIdempotent key (.bytes data) fencingToken) with
      | .error e => if e.kind = .alreadyExists then return true else throw (e.wrap uploading)
      | .ok () => return true

def uploadPack (sessionID : GoString) (fencingToken : Int) (manifestSHAs : List GoString) (lp : LocalPack) : Act Unit := do
  if lp.sha ∈ manifestSHAs then return ()
  else
    let there ← uploadPackFile fencingToken (ofString "read pack file ") (ofString "upload pack " ++ lp.sha) lp.packFn
      (packKey sessionID lp.sha)
    if there then
      let _ ← uploadPackFile fencingToken (ofString "read idx file ") (ofString "upload idx " ++ lp.sha) lp.idxFn
        (idxKey sessionID lp.sha)
      return ()
    else return ()

/-- `uploadNewPacks`: every pack that has a file in the directory is listed. -/
def uploadNewPacks (order : MapOrder LocalPack) (sessionID : GoString) (fencingToken : Int) (oldPacks : List PackEntry) :
    Act (List PackEntry) := do
  match ← onDisk (.readDir packDir) with
  | .error e => if e.kind = .notExist then return oldPacks else throw (e.wrap (ofString "read pack dir"))
  | .ok entries =>
    forEach (uploadPack sessionID fencingToken (oldPacks.map (·.sha))) (order.iterate (localPacks entries))
    return (order.iterate (localPacks entries)).map (fun lp => packEntry sessionID lp.sha)

/-! ## Refs -/

def readRefs : List FilePath → Refs → Act Refs
  | [], refs => return refs
  | p :: ps, refs => do
    match ← onDisk (.readFile p) with
    | .error e =>
      if e.kind = .notExist then readRefs ps refs else throw (e.wrap (ofString "read ref " ++ slashed p))
    | .ok data => readRefs ps (refs.insert (slashed p) (trimSpace data))

def readLocalRefs : Act Refs := do
  match ← onDisk (.walk refsDir) with
  | .error e => if e.kind = .notExist then return ∅ else throw (e.wrap (ofString "walk refs"))
  | .ok paths => withErr (Err.wrap (ofString "walk refs")) (readRefs paths ∅)

def readPackedRefs : Act GoString := do
  match ← onDisk (.readFile packedRefsPath) with
  | .error e => if e.kind = .notExist then return [] else throw (e.wrap (ofString "read packed-refs"))
  | .ok data => return data

/-! ## The sync -/

def removedPackKeys (oldPacks newPacks : List PackEntry) : List GoString :=
  oldPacks.flatMap (fun p => if p.sha ∈ newPacks.map (·.sha) then [] else [p.packKey, p.idxKey])

def Err.ofSave (e : Err) : Err :=
  if e.kind = .fenced ∨ e.kind = .precondition then e else e.wrap (ofString "save manifest")

/-- `doSyncAt`: the keys it hands to the deleting goroutine. -/
def doSyncAt (order : MapOrder LocalPack) (sessionID : GoString) (fencingToken : Int) (oldManifest : Manifest)
    (oldEtag : Option Nat) : Act (List GoString) := do
  withErr (Err.wrap (ofString "upload loose objects")) (uploadLooseObjects sessionID fencingToken)
  let newPacks ← withErr (Err.wrap (ofString "upload packs"))
    (uploadNewPacks order sessionID fencingToken oldManifest.packs)
  let newRefs ← withErr (Err.wrap (ofString "read refs")) readLocalRefs
  let packedRefs ← withErr (Err.wrap (ofString "read packed-refs")) readPackedRefs
  let _ ← withErr Err.ofSave (save ⟨1, sessionID, newPacks, newRefs, packedRefs, fencingToken⟩ oldEtag)
  return removedPackKeys oldManifest.packs newPacks

def syncPushPath (order : MapOrder LocalPack) (sessionID : GoString) (fencingToken : Int) : Act (List GoString) :=
  withErr (Err.wrap (ofString "syncpush " ++ sessionID)) (do
    let old ← withErr (Err.wrap (ofString "load manifest")) (load sessionID)
    doSyncAt order sessionID fencingToken old.1 old.2)

def lazyDeletePacks (keys : List GoString) : Act Unit := forEach (fun key => do
  let _ ← onStore (.delete key)
  return ()) keys

/-- **A sync and the goroutine it leaves**, which goes on where the call returned. -/
def syncAndDelete (order : MapOrder LocalPack) (sessionID : GoString) (fencingToken : Int) : Act Unit := do
  let keys ← syncPushPath order sessionID fencingToken
  lazyDeletePacks keys

end Jamsesh.Objectstore
