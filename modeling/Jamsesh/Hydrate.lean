import Jamsesh.Sync
/-!
# Hydrate — a repository filled from object storage (`objectstore/hydrate.go`)

`Hydrate` loads the manifest, makes an empty repository where there is none, downloads the listed packs and every loose object
of the session, and writes the refs and `packed-refs`, each file next to its place and renamed.  The order of the downloads is
a parameter.
-/
namespace Jamsesh.Objectstore

open GoString Prog

def isAlreadyExistsErr (e : Err) : Bool := contains e.text (ofString "already exists")

/-- The bytes of a stored object, given what `json.Marshal` writes. -/
def Content.text (marshal : Manifest → GoString) : Content → GoString
  | .bytes b => b
  | .json m => marshal m

/-! ## Paths -/

/-- `filepath.Join` with a path that has slashes. -/
def joinPath (base : FilePath) (rel : GoString) : FilePath :=
  (rel.splitOn (.rune '/')).foldl (fun p c =>
    if c = [] ∨ c = ofString "." then p else if c = ofString ".." then p.dropLast else p ++ [c]) base

def tmpPath (p : FilePath) : FilePath := p.dropLast ++ [p.getLast?.getD [] ++ ofString ".tmp"]

def writeAtomic (path : FilePath) (data : GoString) : Act Unit := do
  match ← onDisk (.mkdirAll path.dropLast) with
  | .error e => throw (e.wrap (ofString "writeAtomic mkdir"))
  | .ok () =>
    match ← onDisk (.writeFile (tmpPath path) data) with
    | .error e =>
      let _ ← onDisk (.remove (tmpPath path))
      throw (e.wrap (ofString "writeAtomic write"))
    | .ok () =>
      match ← onDisk (.rename (tmpPath path) path) with
      | .error e =>
        let _ ← onDisk (.remove (tmpPath path))
        throw (e.wrap (ofString "writeAtomic rename"))
      | .ok () => return ()

/-! ## Downloads -/

structure Download where
  key : GoString
  path : FilePath
  getting : GoString
  writing : GoString
deriving DecidableEq

def download (marshal : Manifest → GoString) (d : Download) : Act Unit := do
  match ← onStore (.get d.key) with
  | .error e => throw (e.wrap d.getting)
  | .ok (data, _, _) => withErr (Err.wrap d.writing) (writeAtomic d.path (data.text marshal))

def packDownloads (p : PackEntry) : List Download :=
  [⟨p.packKey, packDir ++ [ofString "pack-" ++ p.sha ++ ofString ".pack"], ofString "get pack " ++ p.sha,
      ofString "write pack " ++ p.sha⟩,
    ⟨p.idxKey, packDir ++ [ofString "pack-" ++ p.sha ++ ofString ".idx"], ofString "get idx " ++ p.sha,
      ofString "write idx " ++ p.sha⟩]

def downloadPacks (marshal : Manifest → GoString) (order : MapOrder Download) (packs : List PackEntry) : Act Unit := do
  if packs = [] then return ()
  else
    match ← onDisk (.mkdirAll packDir) with
    | .error e => throw (e.wrap (ofString "mkdir pack dir"))
    | .ok () => forEach (download marshal) (order.iterate (packs.flatMap packDownloads))

def isLooseKey (rel : GoString) : Bool :=
  !(hasPrefix rel (ofString "pack/") || hasPrefix rel (ofString "pack\\")) &&
    !(len rel < 4 || !byteIs rel 2 '/')

def looseDownload (objectsPrefix key : GoString) : Download :=
  ⟨key, joinPath objectsDir (trimPrefix key objectsPrefix), ofString "get object " ++ key,
    ofString "write object " ++ trimPrefix key objectsPrefix⟩

def downloadLooseObjects (marshal : Manifest → GoString) (order : MapOrder Download) (objectsPrefix : GoString) : Act Unit := do
  match ← onStore (.list objectsPrefix) with
  | .error e => throw (e.wrap (ofString "list loose objects"))
  | .ok keys =>
    forEach (download marshal) (order.iterate
      ((keys.filter (fun key => isLooseKey (trimPrefix key objectsPrefix))).map (looseDownload objectsPrefix)))

/-! ## Hydrate -/

def createRepo (context : GoString) : Act Unit := do
  match ← onDisk .createRepo with
  | .error e => if isAlreadyExistsErr e then return () else throw (e.wrap context)
  | .ok () => return ()

def writeRefs (order : MapOrder (Σ _ : GoString, GoString)) (refs : Refs) : Act Unit :=
  forEach (fun ref => withErr (Err.wrap (ofString "write ref " ++ ref.1))
    (writeAtomic (joinPath [] ref.1) (ref.2 ++ ofString "\n"))) (order.iterate refs.entries)

def writePackedRefs (packedRefs : GoString) : Act Unit :=
  if packedRefs = [] then return ()
  else withErr (Err.wrap (ofString "write packed-refs")) (writeAtomic packedRefsPath packedRefs)

structure HydrateOrders where
  downloads : MapOrder Download
  refs : MapOrder (Σ _ : GoString, GoString)

/-- `Hydrate`, up to the `git fsck` whose outcome is only logged. -/
def hydrate (marshal : Manifest → GoString) (orders : HydrateOrders) (sessionID : GoString) : Act Unit :=
  withErr (Err.wrap (ofString "hydrate " ++ sessionID)) (do
    let manifest ← withErr (Err.wrap (ofString "load manifest")) (load sessionID)
    if manifest.2 = none then createRepo (ofString "create repo (fresh session)")
    else
      match ← onDisk .repoExists with
      | .error e => throw (e.wrap (ofString "check repo exists"))
      | .ok there =>
        if there then pure () else createRepo (ofString "create repo")
        withErr (Err.wrap (ofString "download packs")) (downloadPacks marshal orders.downloads manifest.1.packs)
        withErr (Err.wrap (ofString "download loose objects"))
          (downloadLooseObjects marshal orders.downloads (ofString "sessions/" ++ sessionID ++ ofString "/objects/"))
        writeRefs orders.refs manifest.1.refs
        writePackedRefs manifest.1.packedRefs)

end Jamsesh.Objectstore
