import Jamsesh.Backend
/-!
# Manifests — the manifest of a session (`objectstore/manifest.go`)

`Load` reads the manifest and refuses one it cannot trust; `Save` reads it again, compares the fencing tokens, and writes.  The
check and the write are two calls.
-/
namespace Jamsesh.Objectstore

open GoString (ofString)
open Prog (Trace Triple)

def errFenced : Err :=
  ⟨.fenced, ofString "objectstore: write blocked by higher on-disk fencing token (stale lease)"⟩

def errCorruptManifest : Err :=
  ⟨.corrupt, ofString "objectstore: manifest exists but is corrupt (unreadable schema)"⟩

def manifestSchemaVersion : Int := 1

def manifestKey (sessionID : GoString) : GoString := ofString "sessions/" ++ sessionID ++ ofString "/manifest.json"

def jam : GoString := ofString "jam"

/-- `%q` of an id. -/
def quoted (id : GoString) : GoString := ofString "\"" ++ id ++ ofString "\""

/-- `%d` -/
def number (n : Int) : GoString := ofString (toString n)

/-- `ManifestStore.Load`: no manifest is the zero manifest without an ETag. -/
def load (sessionID : GoString) : Act (Manifest × Option Nat) := do
  match ← onStore (.get (manifestKey sessionID)) with
  | .error e =>
    if e.kind = .notFound then return (.zero, none)
    else throw (e.wrap (ofString "objectstore: load manifest for session " ++ quoted sessionID))
  | .ok (data, etag, _) =>
    match data.unmarshal with
    | none =>
      throw (errCorruptManifest.wrap
        (ofString "objectstore: manifest for session " ++ quoted sessionID ++ ofString " does not unmarshal"))
    | some m =>
      if m.version ≠ manifestSchemaVersion then
        throw (errCorruptManifest.wrap (ofString "objectstore: manifest for session " ++ quoted sessionID ++
          ofString " has unsupported schema version " ++ number m.version ++ ofString " (want 1)"))
      else if m.sessionID ≠ sessionID then
        throw (errCorruptManifest.wrap (ofString "objectstore: manifest fetched for session " ++ quoted sessionID ++
          ofString " carries session_id " ++ quoted m.sessionID ++ ofString " (key/body mismatch)"))
      else return (m, some etag)

/-- The version `Save` gives a manifest without one. -/
def Manifest.versioned (m : Manifest) : Manifest := if m.version = 0 then { m with version := 1 } else m

def save (m : Manifest) (ifMatch : Option Nat) : Act Nat := do
  if m.sessionID = [] then
    throw (errCorruptManifest.wrap (ofString "objectstore: refusing to save manifest with empty session_id"))
  else
    let onDisk ← Prog.withErr
      (Err.wrap (ofString "objectstore: save manifest pre-flight load for session " ++ quoted m.sessionID)) (load m.sessionID)
    if onDisk.1.fencingToken > m.fencingToken then throw errFenced
    -- the backend's Put without an ETag overwrites, so the create-only guard is here
    else if ifMatch = none ∧ onDisk.2 ≠ none then throw errPrecondition
    else
      if m.versioned.version ≠ manifestSchemaVersion then
        throw (errCorruptManifest.wrap (ofString "objectstore: refusing to save manifest for session " ++ quoted m.sessionID ++
          ofString " with unsupported schema version " ++ number m.versioned.version ++ ofString " (want 1)"))
      else
        match ← onStore (.put (manifestKey m.sessionID) (.json m.versioned) m.fencingToken ifMatch) with
        | .error e => throw e
        | .ok etag => return etag

/-! ## What the two calls see -/

inductive Loaded (sessionID : GoString) : (Σ o, Op.Res o) → Manifest × Option Nat → Prop where
  | missing {e : Err} (kind : e.kind = .notFound) :
      Loaded sessionID ⟨.store (.get (manifestKey sessionID)), .error e⟩ (.zero, none)
  | found {m : Manifest} {etag : Nat} {token : Int} (version : m.coerced.version = manifestSchemaVersion)
      (session : m.coerced.sessionID = sessionID) :
      Loaded sessionID ⟨.store (.get (manifestKey sessionID)), .ok (.json m, etag, token)⟩ (m.coerced, some etag)

theorem Loaded.saw {sessionID key : GoString} {s s' : Store} {r : Except Err (Content × Nat × Int)}
    {result : Manifest × Option Nat} (hdoes : Store.Does (.get key) s r s')
    (h : Loaded sessionID ⟨.store (.get key), r⟩ result) :
    (∃ x m, s.at? (manifestKey sessionID) = some x ∧ x.data = .json m ∧ result = (m.coerced, some x.etag)) ∨
      (s.at? (manifestKey sessionID) = none ∧ result = (.zero, none)) := by
  obtain ⟨-, ⟨x, hx, hr⟩ | ⟨hn, hr⟩ | ⟨e, he, hr⟩⟩ := hdoes.get
  · cases h with
    | missing => cases hr
    | found =>
      obtain ⟨hd, ht⟩ := Prod.mk.inj (Except.ok.inj hr)
      obtain ⟨hetag, -⟩ := Prod.mk.inj ht
      exact .inl ⟨x, _, hx, hd.symm, by rw [hetag]⟩
  · cases h with
    | missing => exact .inr ⟨hn, rfl⟩
    | found => cases hr
  · cases h with
    | missing hk =>
      cases hr
      rw [he] at hk
      cases hk
    | found => cases hr

theorem load_spec {Rule : Trace Op.Res → Op → Prop} {P : Trace Op.Res → Prop} {sessionID : GoString}
    (hg : ∀ past, P past → Rule past (.store (.get (manifestKey sessionID)))) :
    Triple Rule P (load sessionID) (fun result past' => ∃ past e, P past ∧ past' = past ++ [e] ∧ Loaded sessionID e result) := by
  refine Triple.bind (onStore_spec (Q := fun r past' => ∃ past, P past ∧
    past' = past ++ [⟨.store (.get (manifestKey sessionID)), r⟩]) hg fun past r hP => ⟨past, hP, rfl⟩) fun r => ?_
  cases r with
  | error =>
    simp only
    split
    · rename_i hk
      exact Triple.pure fun _ ⟨past, hP, he⟩ => ⟨past, _, hP, he, .missing hk⟩
    · exact Triple.throw
  | ok v =>
    obtain ⟨data, _, -⟩ := v
    cases data with
    | bytes => exact Triple.throw
    | json =>
      simp only [Content.unmarshal]
      split
      · exact Triple.throw
      rename_i hv
      split
      · exact Triple.throw
      · rename_i hs
        refine Triple.pure fun _ ⟨past, hP, he⟩ => ⟨past, _, hP, he, ?_⟩
        exact .found (not_not.1 hv) (not_not.1 hs)

theorem save_spec {Rule : Trace Op.Res → Op → Prop} {P : Trace Op.Res → Prop} {m : Manifest} {ifMatch : Option Nat}
    {Q : Nat → Trace Op.Res → Prop} (hg : ∀ past, P past → Rule past (.store (.get (manifestKey m.sessionID))))
    (hp : ∀ past e onDisk m', P past → Loaded m.sessionID e onDisk → onDisk.1.fencingToken ≤ m.fencingToken →
      (ifMatch = none → onDisk.2 = none) → m' = { m with version := 1 } →
      Rule (past ++ [e]) (.store (.put (manifestKey m.sessionID) (.json m') m.fencingToken ifMatch)) ∧
        ∀ etag, Q etag (past ++ [e] ++ [⟨.store (.put (manifestKey m.sessionID) (.json m') m.fencingToken ifMatch),
          .ok etag⟩])) :
    Triple Rule P (save m ifMatch) Q := by
  unfold save
  split
  · exact Triple.throw
  refine Triple.bind (Triple.withErr (load_spec hg)) fun onDisk => ?_
  split
  · exact Triple.throw
  rename_i ht
  split
  · exact Triple.throw
  rename_i hc
  have hc' : ifMatch = none → onDisk.2 = none := fun h => not_not.1 fun hne => hc ⟨h, hne⟩
  split
  · exact Triple.throw
  rename_i hv
  have hm : m.versioned = { m with version := 1 } := by
    unfold Manifest.versioned at hv ⊢
    split
    · rfl
    · rename_i hz
      rw [if_neg hz, not_not] at hv
      rw [← manifestSchemaVersion, ← hv]
  rw [hm]
  refine Triple.bind (onStore_spec (Q := fun r past' => ∀ etag, r = .ok etag → Q etag past') ?_ ?_) fun r => ?_
  · rintro _ ⟨past, e, hP, rfl, he⟩
    exact (hp past e onDisk _ hP he (Int.not_lt.1 ht) hc' rfl).1
  · rintro _ r ⟨past, e, hP, rfl, he⟩ etag rfl
    exact (hp past e onDisk _ hP he (Int.not_lt.1 ht) hc' rfl).2 etag
  · cases r with
    | error => exact Triple.throw
    | ok etag => exact Triple.pure fun _ h => h etag rfl

end Jamsesh.Objectstore
