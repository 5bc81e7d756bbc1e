import Jamsesh.GoStrings
import Jamsesh.Prog
import Mathlib.Data.List.AList
/-!
# Backend — object storage and the repository directory (`objectstore/backend.go`, `objectstore/s3.go`)

The calls of the code that mirrors a session's repository, to the object store, whose `Put` is atomic and conditional when
given an ETag, and to the repository's directory.  A call that fails does nothing.
-/
namespace Jamsesh.Objectstore

open List
open GoString (ofString coerce)

/-! ## Errors -/

inductive ErrKind where
  | notExist | notFound | precondition | alreadyExists | fenced | corrupt | other
deriving DecidableEq

structure Err where
  kind : ErrKind
  text : GoString
deriving DecidableEq

/-- `fmt.Errorf` with `%w` at the end. -/
def Err.wrap (context : GoString) (e : Err) : Err := ⟨e.kind, context ++ ofString ": " ++ e.text⟩

def errNotFound : Err := ⟨.notFound, ofString "objectstore: not found"⟩

def errPrecondition : Err := ⟨.precondition, ofString "objectstore: precondition failed (etag mismatch)"⟩

def errAlreadyExists : Err := ⟨.alreadyExists, ofString "objectstore: object already exists with different content"⟩

/-! ## Manifests -/

structure PackEntry where
  packKey : GoString
  idxKey : GoString
  sha : GoString
deriving DecidableEq

abbrev Refs := AList (fun _ : GoString => GoString)

structure Manifest where
  version : Int
  sessionID : GoString
  packs : List PackEntry
  refs : Refs
  packedRefs : GoString
  fencingToken : Int
deriving DecidableEq

def Manifest.zero : Manifest := ⟨0, [], [], ∅, [], 0⟩

def PackEntry.coerced (e : PackEntry) : PackEntry := ⟨coerce e.packKey, coerce e.idxKey, coerce e.sha⟩

def coerceRefs (refs : Refs) : Refs := refs.entries.foldl (fun acc e => acc.insert (coerce e.1) (coerce e.2)) ∅

theorem mem_coerceRefs {refs : Refs} {r : Σ _ : GoString, GoString} (h : r ∈ (coerceRefs refs).entries) :
    ∃ r₀ ∈ refs.entries, r = ⟨coerce r₀.1, coerce r₀.2⟩ := by
  have hf : ∀ (l : List (Σ _ : GoString, GoString)) (acc : Refs),
      r ∈ (l.foldl (fun acc e => acc.insert (coerce e.1) (coerce e.2)) acc).entries →
        r ∈ acc.entries ∨ ∃ r₀ ∈ l, r = ⟨coerce r₀.1, coerce r₀.2⟩ := by
    intro l
    induction l with
    | nil => exact fun _ h => .inl h
    | cons e l ih =>
      intro _ h
      rcases ih _ h with h | ⟨r₀, hr₀, hr⟩
      · rw [AList.entries_insert] at h
        rcases mem_cons.1 h with h | h
        · exact .inr ⟨e, mem_cons_self, h⟩
        · exact .inl ((kerase_sublist _ _).subset h)
      · exact .inr ⟨r₀, mem_cons_of_mem _ hr₀, hr⟩
  exact (hf refs.entries ∅ h).resolve_left not_mem_nil

def Manifest.coerced (m : Manifest) : Manifest where
  version := m.version
  sessionID := coerce m.sessionID
  packs := m.packs.map PackEntry.coerced
  refs := coerceRefs m.refs
  packedRefs := coerce m.packedRefs
  fencingToken := m.fencingToken

/-- The content of a stored object: the bytes of a file, or `json.Marshal` of a manifest, by the manifest. -/
inductive Content where
  | bytes (b : GoString)
  | json (m : Manifest)
deriving DecidableEq

/-- `json.Unmarshal` into a manifest; the files of a repository are none. -/
def Content.unmarshal : Content → Option Manifest
  | .bytes _ => none
  | .json m => some m.coerced

/-! ## Calls -/

abbrev FilePath := List GoString

inductive StoreOp where
  | get (key : GoString)
  | put (key : GoString) (data : Content) (fencingToken : Int) (ifMatch : Option Nat)
  | putIdempotent (key : GoString) (data : Content) (fencingToken : Int)
  | delete (key : GoString)
  | list (pre : GoString)

@[reducible] def StoreOp.Val : StoreOp → Type
  | get _ => Content × Nat × Int
  | put .. => Nat
  | putIdempotent .. => Unit
  | delete _ => Unit
  | list _ => List GoString

inductive DiskOp where
  | readDir (p : FilePath)
  | readFile (p : FilePath)
  | walk (p : FilePath)
  | mkdirAll (p : FilePath)
  | writeFile (p : FilePath) (data : GoString)
  | rename (p q : FilePath)
  | remove (p : FilePath)
  | repoExists
  | createRepo

@[reducible] def DiskOp.Val : DiskOp → Type
  | readDir _ => List (GoString × Bool)
  | readFile _ => GoString
  | walk _ => List FilePath
  | repoExists => Bool
  | _ => Unit

inductive Op where
  | store (o : StoreOp)
  | disk (o : DiskOp)

@[reducible] def Op.Res : Op → Type
  | store o => Except Err o.Val
  | disk o => Except Err o.Val

abbrev Act (α : Type) := Prog.Fallible Op.Res Err α

def onStore (o : StoreOp) : Act (Except Err o.Val) := Prog.call (Op.store o)

def onDisk (o : DiskOp) : Act (Except Err o.Val) := Prog.call (Op.disk o)

section
open Prog (Trace Triple)

variable {Rule : Trace Op.Res → Op → Prop} {P : Trace Op.Res → Prop}

theorem onStore_spec {o : StoreOp} {Q : Except Err o.Val → Trace Op.Res → Prop} (hr : ∀ past, P past → Rule past (.store o))
    (hQ : ∀ past (r : Except Err o.Val), P past → Q r (past ++ [⟨.store o, r⟩])) : Triple Rule P (onStore o) Q :=
  Triple.call hr hQ

theorem onDisk_spec {o : DiskOp} {Q : Except Err o.Val → Trace Op.Res → Prop} (hr : ∀ past, P past → Rule past (.disk o))
    (hQ : ∀ past (r : Except Err o.Val), P past → Q r (past ++ [⟨.disk o, r⟩])) : Triple Rule P (onDisk o) Q :=
  Triple.call hr hQ

end

/-! ## The object store -/

structure Object where
  data : Content
  etag : Nat
  token : Int
deriving DecidableEq

/-- **The store**: its objects, and the ETag of the next write. -/
structure Store where
  objects : AList (fun _ : GoString => Object)
  next : Nat

variable {key k : GoString} {s s' : Store}

namespace Store

def at? (s : Store) (key : GoString) : Option Object := s.objects.lookup key

def write (s : Store) (key : GoString) (data : Content) (token : Int) : Store :=
  ⟨s.objects.insert key ⟨data, s.next, token⟩, s.next + 1⟩

def erase (s : Store) (key : GoString) : Store := ⟨s.objects.erase key, s.next⟩

def get (s : Store) (key : GoString) : Except Err (Content × Nat × Int) :=
  match s.at? key with
  | none => .error errNotFound
  | some x => .ok (x.data, x.etag, x.token)

def put (s : Store) (key : GoString) (data : Content) (token : Int) (ifMatch : Option Nat) : Except Err Nat × Store :=
  if ifMatch = none ∨ ifMatch = (s.at? key).map (·.etag) then (.ok s.next, s.write key data token)
  else (.error errPrecondition, s)

def putIdempotent (s : Store) (key : GoString) (data : Content) (token : Int) : Except Err Unit × Store :=
  match s.at? key with
  | none => (.ok (), s.write key data token)
  | some x => (if x.data = data then .ok () else .error errAlreadyExists, s)

def list (s : Store) (pre : GoString) : List GoString := s.objects.keys.filter (GoString.hasPrefix · pre)

def answer : (o : StoreOp) → Store → Except Err o.Val × Store
  | .get key, s => (s.get key, s)
  | .put key data token ifMatch, s => s.put key data token ifMatch
  | .putIdempotent key data token, s => s.putIdempotent key data token
  | .delete key, s => (.ok (), s.erase key)
  | .list pre, s => (.ok (s.list pre), s)

@[simp] theorem write_at?_self (s : Store) (key : GoString) (data : Content) (token : Int) :
    (s.write key data token).at? key = some ⟨data, s.next, token⟩ := AList.lookup_insert s.objects

theorem write_at?_ne (s : Store) (h : k ≠ key) (data : Content) (token : Int) :
    (s.write key data token).at? k = s.at? k := AList.lookup_insert_ne h

theorem write_isSome (s : Store) (key : GoString) (data : Content) (token : Int) (h : (s.at? k).isSome) :
    ((s.write key data token).at? k).isSome := by
  by_cases hk : k = key
  · simp [hk]
  · rw [write_at?_ne s hk]
    exact h

@[simp] theorem erase_at?_self (s : Store) (key : GoString) : (s.erase key).at? key = none := AList.lookup_erase key s.objects

theorem erase_at?_ne (s : Store) (h : k ≠ key) : (s.erase key).at? k = s.at? k := AList.lookup_erase_ne h

/-- **What a call may do**: what the store answers, or fail without effect. -/
def Does (o : StoreOp) (s : Store) (r : Except Err o.Val) (s' : Store) : Prop :=
  answer o s = (r, s') ∨ ∃ e, e.kind = .other ∧ r = .error e ∧ s' = s

theorem Does.get {r : Except Err (Content × Nat × Int)} (h : Does (.get key) s r s') :
    s' = s ∧ ((∃ x, s.at? key = some x ∧ r = .ok (x.data, x.etag, x.token)) ∨ (s.at? key = none ∧ r = .error errNotFound) ∨
      ∃ e, e.kind = .other ∧ r = .error e) := by
  rcases h with h | ⟨e, he, hr, hs⟩
  · obtain ⟨rfl, rfl⟩ := Prod.mk.inj h
    refine ⟨rfl, ?_⟩
    unfold Store.get
    cases s.at? key with
    | none => exact .inr (.inl ⟨rfl, rfl⟩)
    | some x => exact .inl ⟨x, rfl, rfl⟩
  · exact ⟨hs, .inr (.inr ⟨e, he, hr⟩)⟩

theorem Does.put {data : Content} {token : Int} {ifMatch : Option Nat} {r : Except Err Nat}
    (h : Does (.put key data token ifMatch) s r s') :
    (r = .ok s.next ∧ s' = s.write key data token ∧ (ifMatch = none ∨ ifMatch = (s.at? key).map (·.etag))) ∨
      (∃ e, r = .error e ∧ s' = s) := by
  rcases h with h | ⟨e, -, hr, hs⟩
  · have hp : s.put key data token ifMatch = (r, s') := h
    unfold Store.put at hp
    split at hp
    · rename_i hm
      obtain ⟨rfl, rfl⟩ := Prod.mk.inj hp
      exact .inl ⟨rfl, rfl, hm⟩
    · obtain ⟨rfl, rfl⟩ := Prod.mk.inj hp
      exact .inr ⟨_, rfl, rfl⟩
  · exact .inr ⟨e, hr, hs⟩

theorem Does.putIdempotent {data : Content} {token : Int} {r : Except Err Unit}
    (h : Does (.putIdempotent key data token) s r s') :
    (s' = s ∨ (s.at? key = none ∧ s' = s.write key data token)) ∧
      ((r = .ok () ∨ ∃ e, r = .error e ∧ e.kind = .alreadyExists) → (s'.at? key).isSome) := by
  rcases h with h | ⟨e, he, rfl, rfl⟩
  · have hp : s.putIdempotent key data token = (r, s') := h
    unfold Store.putIdempotent at hp
    cases hx : s.at? key with
    | none =>
      rw [hx] at hp
      obtain ⟨rfl, rfl⟩ := Prod.mk.inj hp
      exact ⟨.inr ⟨rfl, rfl⟩, fun _ => by simp⟩
    | some =>
      rw [hx] at hp
      obtain ⟨rfl, rfl⟩ := Prod.mk.inj hp
      exact ⟨.inl rfl, fun _ => by simp [hx]⟩
  · refine ⟨.inl rfl, ?_⟩
    rintro (hr | ⟨_, hr, hk⟩)
    · cases hr
    · cases hr
      rw [he] at hk
      cases hk

theorem Does.delete {r : Except Err Unit} (h : Does (.delete key) s r s') : s' = s.erase key ∨ s' = s := by
  rcases h with h | ⟨-, -, -, hs⟩
  · exact .inl (Prod.mk.inj h).2.symm
  · exact .inr hs

end Store

def answers : (o : Op) → Store → o.Res → Store → Prop
  | .store o, s, r, s' => Store.Does o s r s'
  | .disk _, s, _, s' => s' = s

def faultless (disk : (o : DiskOp) → Except Err o.Val) : (o : Op) → Store → o.Res × Store
  | .store o, s => s.answer o
  | .disk o, s => (disk o, s)

theorem faultless_answers (disk : (o : DiskOp) → Except Err o.Val) (o : Op) (s : Store) :
    answers o s (faultless disk o s).1 (faultless disk o s).2 := by
  cases o with
  | store => exact .inl rfl
  | disk => rfl

def emptyStore : Store := ⟨∅, 0⟩

def noFiles (o : DiskOp) : Except Err o.Val := .error ⟨.notExist, []⟩

end Jamsesh.Objectstore
