import Jamsesh.SyncKeys
/-!
# SyncTrace — what a sync has done by the time it writes

`SyncRule` says of each call of a sync what came before it: the manifest is written once, with the ETag of the first read,
after every loose object and new pack was stored or had gone and every ref was read; the keys deleted are those of the packs
no longer listed, in order.  Every sync keeps the rule (`sync_obeys`).
-/
namespace Jamsesh.Objectstore

open List Prog
open GoString (ofString)

/-! ## Facts of a trace -/

def Stored (key : GoString) (past : Trace Op.Res) : Prop :=
  ∃ data token, ∃ r : Except Err Unit, ⟨.store (.putIdempotent key data token), r⟩ ∈ past ∧
    (r = .ok () ∨ ∃ e, r = .error e ∧ e.kind = .alreadyExists)

def Gone (p : FilePath) (past : Trace Op.Res) : Prop :=
  ∃ e : Err, ⟨.disk (.readFile p), .error e⟩ ∈ past ∧ e.kind = .notExist

def Listed (p : FilePath) (entries : List (GoString × Bool)) (past : Trace Op.Res) : Prop :=
  ⟨.disk (.readDir p), .ok entries⟩ ∈ past

def NoDir (p : FilePath) (past : Trace Op.Res) : Prop :=
  ∃ e : Err, ⟨.disk (.readDir p), .error e⟩ ∈ past ∧ e.kind = .notExist

def ObjectDone (sessionID name : GoString) (obj : GoString × Bool) (past : Trace Op.Res) : Prop :=
  obj.2 = true ∨ Gone (objectsDir ++ [name, obj.1]) past ∨ Stored (looseKey sessionID name obj.1) past

def FanoutDone (sessionID : GoString) (fanoutDir : GoString × Bool) (past : Trace Op.Res) : Prop :=
  isFanout fanoutDir = false ∨ ∃ objs, Listed (objectsDir ++ [fanoutDir.1]) objs past ∧
    ∀ obj ∈ objs, ObjectDone sessionID fanoutDir.1 obj past

def LooseDone (sessionID : GoString) (past : Trace Op.Res) : Prop :=
  NoDir objectsDir past ∨ ∃ entries, Listed objectsDir entries past ∧ ∀ f ∈ entries, FanoutDone sessionID f past

def FileDone (fn key : GoString) (past : Trace Op.Res) : Prop := fn = [] ∨ Stored key past

def FileGone (fn : GoString) (past : Trace Op.Res) : Prop := fn ≠ [] ∧ Gone (packDir ++ [fn]) past

/-- A new pack: the code goes on from a file that has gone, with the pack listed. -/
def PackDone (sessionID : GoString) (lp : LocalPack) (past : Trace Op.Res) : Prop :=
  FileGone lp.packFn past ∨ FileDone lp.packFn (packKey sessionID lp.sha) past ∧
    (FileGone lp.idxFn past ∨ FileDone lp.idxFn (idxKey sessionID lp.sha) past)

def PacksDone (sessionID : GoString) (oldPacks newPacks : List PackEntry) (past : Trace Op.Res) : Prop :=
  (NoDir packDir past ∧ newPacks = oldPacks) ∨ ∃ entries, Listed packDir entries past ∧
    (∀ p, p ∈ newPacks ↔ ∃ lp ∈ localPacks entries, p = packEntry sessionID lp.sha) ∧
    ∀ lp ∈ localPacks entries, lp.sha ∈ oldPacks.map (·.sha) ∨ PackDone sessionID lp past

def RefsDone (refs : Refs) (past : Trace Op.Res) : Prop :=
  ∀ name value, refs.lookup name = some value → ∃ paths p data, ⟨.disk (.walk refsDir), .ok paths⟩ ∈ past ∧ p ∈ paths ∧
    ⟨.disk (.readFile p), .ok data⟩ ∈ past ∧ name = slashed p ∧ value = GoString.trimSpace data

theorem stored_lasting (key : GoString) : Lasting (Stored key) :=
  .exists fun _ => .exists fun _ => .exists fun _ => (lasting_mem _).and (lasting_const _)

theorem gone_lasting (p : FilePath) : Lasting (Gone p) := .exists fun _ => (lasting_mem _).and (lasting_const _)

theorem listed_lasting (p : FilePath) (entries : List (GoString × Bool)) : Lasting (Listed p entries) := lasting_mem _

theorem noDir_lasting (p : FilePath) : Lasting (NoDir p) := .exists fun _ => (lasting_mem _).and (lasting_const _)

theorem objectDone_lasting (sessionID name : GoString) (obj : GoString × Bool) : Lasting (ObjectDone sessionID name obj) :=
  (lasting_const _).or ((gone_lasting _).or (stored_lasting _))

theorem fanoutDone_lasting (sessionID : GoString) (f : GoString × Bool) : Lasting (FanoutDone sessionID f) :=
  (lasting_const _).or (.exists fun _ => (listed_lasting _ _).and (.forall fun _ => .forall fun _ => objectDone_lasting _ _ _))

theorem looseDone_lasting (sessionID : GoString) : Lasting (LooseDone sessionID) :=
  (noDir_lasting _).or (.exists fun _ => (listed_lasting _ _).and (.forall fun _ => .forall fun _ => fanoutDone_lasting _ _))

theorem fileDone_lasting (fn key : GoString) : Lasting (FileDone fn key) := (lasting_const _).or (stored_lasting _)

theorem fileGone_lasting (fn : GoString) : Lasting (FileGone fn) := (lasting_const _).and (gone_lasting _)

theorem packDone_lasting (sessionID : GoString) (lp : LocalPack) : Lasting (PackDone sessionID lp) :=
  (fileGone_lasting _).or ((fileDone_lasting _ _).and ((fileGone_lasting _).or (fileDone_lasting _ _)))

theorem packsDone_lasting (sessionID : GoString) (oldPacks newPacks : List PackEntry) :
    Lasting (PacksDone sessionID oldPacks newPacks) :=
  ((noDir_lasting _).and (lasting_const _)).or (.exists fun _ => (listed_lasting _ _).and
    ((lasting_const _).and (.forall fun _ => .forall fun _ => (lasting_const _).or (packDone_lasting _ _))))

theorem refsDone_lasting (refs : Refs) : Lasting (RefsDone refs) :=
  .forall fun _ => .forall fun _ => .forall fun _ => .exists fun _ => .exists fun _ => .exists fun _ =>
    (lasting_mem _).and ((lasting_const _).and ((lasting_mem _).and (lasting_const _)))

/-! ## The phases of a sync -/

def isGet : (Σ o, Op.Res o) → Bool
  | ⟨.store (.get _), _⟩ => true
  | _ => false

def isDelete : (Σ o, Op.Res o) → Bool
  | ⟨.store (.delete _), _⟩ => true
  | _ => false

def savedBy : (Σ o, Op.Res o) → Option Manifest
  | ⟨.store (.put _ (.json m) _ _), .ok _⟩ => some m
  | _ => none

def saved (past : Trace Op.Res) : Option Manifest := past.findSome? savedBy

def loadedBy : (Σ o, Op.Res o) → Manifest
  | ⟨.store (.get _), .ok (.json m, _, _)⟩ => m.coerced
  | _ => .zero

def loaded (past : Trace Op.Res) : Manifest := (past.head?.map loadedBy).getD .zero

def toDelete (past : Trace Op.Res) : List GoString :=
  match saved past with
  | none => []
  | some m => (removedPackKeys (loaded past).packs m.packs).drop (past.countP isDelete)

def Unpacked (sessionID : GoString) (past : Trace Op.Res) : Prop :=
  ∀ sha, ∀ key ∈ (packEntry sessionID sha).keys, ¬ Stored key past

/-- The manifest is loaded and the repository is being read, its packs after the rest. -/
structure Opened (sessionID : GoString) (old : Manifest × Option Nat) (packs : Bool) (past : Trace Op.Res) : Prop where
  first : ∃ e, past.head? = some e ∧ Loaded sessionID e old
  collecting : past.countP isGet = 1
  unsaved : saved past = none
  undeleted : past.countP isDelete = 0
  unpacked : packs = false → Unpacked sessionID past

structure Collected (sessionID : GoString) (old m : Manifest) (past : Trace Op.Res) : Prop where
  loose : LooseDone sessionID past
  packs : PacksDone sessionID old.packs m.packs past
  refs : RefsDone m.refs past

def SyncRule (sessionID : GoString) (past : Trace Op.Res) : Op → Prop
  | .store (.get key) => key = manifestKey sessionID
  | .store (.put key data _ ifMatch) => key = manifestKey sessionID ∧ saved past = none ∧ past.countP isDelete = 0 ∧
      ∃ e old m, past.head? = some e ∧ Loaded sessionID e old ∧ ifMatch = old.2 ∧ data = .json m ∧ m.version = 1 ∧
        m.sessionID = sessionID ∧ Collected sessionID old.1 m past
  | .store (.putIdempotent key _ _) => (∃ name obj, key = looseKey sessionID name obj) ∨
      ∃ sha, key = packKey sessionID sha ∨ key = idxKey sessionID sha
  | .store (.delete key) => (toDelete past).head? = some key
  | .disk (.readDir p) => past.countP isGet = 1 ∧ (p = packDir → Unpacked sessionID past)
  | .disk (.readFile _) => past.countP isGet = 1
  | .disk (.walk _) => past.countP isGet = 1
  | _ => False

variable {e : Σ o, Op.Res o} {past : Trace Op.Res} {key : GoString}

variable {sessionID : GoString} {old : Manifest × Option Nat}

theorem Loaded.loadedBy_eq (h : Loaded sessionID e old) : loadedBy e = old.1 := by
  cases h <;> rfl

theorem Loaded.isGet_eq (h : Loaded sessionID e old) : isGet e = true ∧ savedBy e = none ∧ isDelete e = false := by
  cases h <;> exact ⟨rfl, rfl, rfl⟩

theorem saved_snoc (past : Trace Op.Res) (e : Σ o, Op.Res o) : saved (past ++ [e]) = (saved past).or (savedBy e) := by
  simp [saved]

theorem loaded_snoc (hp : past ≠ []) (e : Σ o, Op.Res o) : loaded (past ++ [e]) = loaded past := by
  obtain ⟨_, -, rfl⟩ := exists_cons_of_ne_nil hp
  rfl

theorem toDelete_snoc (past : Trace Op.Res) (he : savedBy e = none) :
    toDelete (past ++ [e]) = (toDelete past).drop (if isDelete e then 1 else 0) := by
  have hsnoc : saved (past ++ [e]) = saved past := by rw [saved_snoc, he, Option.or_none]
  cases hs : saved past with
  | none => simp [toDelete, hsnoc, hs]
  | some =>
    have hp : past ≠ [] := by
      rintro rfl
      cases hs
    simp only [toDelete, hsnoc, hs, loaded_snoc hp, countP_append, countP_singleton, drop_drop]

theorem toDelete_written {e' : Σ o, Op.Res o}
    {m : Manifest} (hh : past.head? = some e) (hloaded : Loaded sessionID e old) (hu : saved past = none)
    (hundeleted : past.countP isDelete = 0) (hw : savedBy e' = some m) (hd : isDelete e' = false) :
    toDelete (past ++ [e']) = removedPackKeys old.1.packs m.packs := by
  have hl : loaded (past ++ [e']) = old.1 := by
    simp [loaded, hh, hloaded.loadedBy_eq]
  have hc : (past ++ [e']).countP isDelete = 0 := by
    simp [hundeleted, hd]
  have hs : saved (past ++ [e']) = some m := by
    rw [saved_snoc, hu, hw]
    rfl
  rw [toDelete, hs, hl, hc]
  rfl

section
variable {sessionID : GoString} {old : Manifest × Option Nat} {packs : Bool}

theorem stored_snoc (h : Stored key (past ++ [e])) : Stored key past ∨ Stored key [e] := by
  obtain ⟨data, token, r, hm, hr⟩ := h
  rcases mem_append.1 hm with hm | hm
  · exact .inl ⟨data, token, r, hm, hr⟩
  · exact .inr ⟨data, token, r, hm, hr⟩

theorem Opened.snoc (h : Opened sessionID old packs past) (hg : isGet e = false)
    (hs : savedBy e = none) (hd : isDelete e = false) (hpacks : packs = false → Unpacked sessionID [e]) :
    Opened sessionID old packs (past ++ [e]) := by
  obtain ⟨e', hh, hl⟩ := h.first
  refine ⟨⟨e', by simp [hh], hl⟩, ?_, ?_, ?_, fun hp sha key hk hst => ?_⟩
  · simp [h.collecting, hg]
  · simp [saved_snoc, h.unsaved, hs]
  · simp [h.undeleted, hd]
  · exact (stored_snoc hst).elim (h.unpacked hp sha key hk) (hpacks hp sha key hk)

theorem Opened.packing (h : Opened sessionID old packs past) : Opened sessionID old true past :=
  ⟨h.first, h.collecting, h.unsaved, h.undeleted, Bool.noConfusion⟩

theorem unpacked_disk (o : DiskOp) (r : Except Err o.Val) : Unpacked sessionID [⟨.disk o, r⟩] := by
  rintro _ _ - ⟨_, _, _, hm, -⟩
  cases mem_singleton.1 hm

theorem unpacked_loose (name obj : GoString) (data : Content) (token : Int) (r : Except Err Unit) :
    Unpacked sessionID [⟨.store (.putIdempotent (looseKey sessionID name obj) data token), r⟩] := by
  rintro _ _ hk ⟨_, _, _, hm, -⟩
  cases mem_singleton.1 hm
  exact ne_looseKey_of_mem_keys hk rfl

theorem opened_of_loaded (he : Loaded sessionID e old) : Opened sessionID old false [e] := by
  obtain ⟨hg, hs, hd⟩ := he.isGet_eq
  refine ⟨⟨e, rfl, he⟩, by simp [hg], by simp [saved, hs], by simp [hd], ?_⟩
  rintro - _ _ - ⟨_, _, r, hm, -⟩
  cases mem_singleton.1 hm
  cases hg

theorem readDir_spec (p : FilePath) : Triple (SyncRule sessionID) (Opened sessionID old false) (onDisk (.readDir p))
    (fun r past => Opened sessionID old false past ∧ ⟨.disk (.readDir p), r⟩ ∈ past) :=
  onDisk_spec (fun _ h => ⟨h.collecting, fun _ => h.unpacked rfl⟩) fun _ r h =>
    ⟨h.snoc rfl rfl rfl fun _ => unpacked_disk _ r, by simp⟩

theorem readFile_spec (p : FilePath) : Triple (SyncRule sessionID) (Opened sessionID old packs) (onDisk (.readFile p))
    (fun r past => Opened sessionID old packs past ∧ ⟨.disk (.readFile p), r⟩ ∈ past) :=
  onDisk_spec (fun _ h => h.collecting) fun _ r h => ⟨h.snoc rfl rfl rfl fun _ => unpacked_disk _ r, by simp⟩

theorem walk_spec (p : FilePath) : Triple (SyncRule sessionID) (Opened sessionID old packs) (onDisk (.walk p))
    (fun r past => Opened sessionID old packs past ∧ ⟨.disk (.walk p), r⟩ ∈ past) :=
  onDisk_spec (fun _ h => h.collecting) fun _ r h => ⟨h.snoc rfl rfl rfl fun _ => unpacked_disk _ r, by simp⟩

theorem putIdempotent_spec {data : Content} {token : Int}
    (hk : ∀ past, SyncRule sessionID past (.store (.putIdempotent key data token)))
    (hpacks : packs = false → ∀ r : Except Err Unit, Unpacked sessionID [⟨.store (.putIdempotent key data token), r⟩]) :
    Triple (SyncRule sessionID) (Opened sessionID old packs) (onStore (.putIdempotent key data token))
      (fun r past => Opened sessionID old packs past ∧ ⟨.store (.putIdempotent key data token), r⟩ ∈ past) :=
  onStore_spec (fun past _ => hk past) fun _ r h => ⟨h.snoc rfl rfl rfl fun hp => hpacks hp r, by simp⟩

theorem uploadObject_spec (token : Int) (name : GoString) (obj : GoString × Bool) :
    Triple (SyncRule sessionID) (Opened sessionID old false) (uploadObject sessionID token name obj)
      (fun _ past => Opened sessionID old false past ∧ ObjectDone sessionID name obj past) := by
  unfold uploadObject
  split
  · rename_i hd
    exact Triple.pure fun _ h => ⟨h, .inl hd⟩
  refine Triple.bind (readFile_spec _) fun r => ?_
  cases r with
  | error e =>
    simp only
    split
    · rename_i hk
      exact Triple.pure fun _ h => ⟨h.1, .inr (.inl ⟨e, h.2, hk⟩)⟩
    · exact Triple.throw
  | ok =>
    refine Triple.bind (Triple.mono (putIdempotent_spec (fun _ => .inl ⟨name, obj.1, rfl⟩)
      fun _ => unpacked_loose name obj.1 _ token) (fun _ h => h.1) fun _ _ h => h)
      fun r => ?_
    cases r with
    | error e =>
      simp only
      split
      · rename_i hk
        exact Triple.pure fun _ h => ⟨h.1, .inr (.inr ⟨_, _, _, h.2, .inr ⟨e, rfl, hk⟩⟩)⟩
      · exact Triple.throw
    | ok => exact Triple.pure fun _ h => ⟨h.1, .inr (.inr ⟨_, _, _, h.2, .inl rfl⟩)⟩

theorem uploadFanout_spec (token : Int) (f : GoString × Bool) :
    Triple (SyncRule sessionID) (Opened sessionID old false) (uploadFanout sessionID token f)
      (fun _ past => Opened sessionID old false past ∧ FanoutDone sessionID f past) := by
  unfold uploadFanout
  split
  · refine Triple.bind (readDir_spec _) fun r => ?_
    cases r with
    | error => exact Triple.throw
    | ok objs =>
      have hl : Triple (SyncRule sessionID) (Opened sessionID old false)
          (forEach (uploadObject sessionID token f.1) objs)
          (fun _ past => Opened sessionID old false past ∧ ∀ obj ∈ objs, ObjectDone sessionID f.1 obj past) :=
        Triple.forEach (fun obj => objectDone_lasting sessionID f.1 obj) fun obj _ => uploadObject_spec token f.1 obj
      exact (hl.frame (listed_lasting _ objs)).mono (fun _ h => h) fun _ _ h => ⟨h.1.1, .inr ⟨objs, h.2, h.1.2⟩⟩
  · rename_i hn
    exact Triple.pure fun _ h => ⟨h, .inl (Bool.not_eq_true _ ▸ hn)⟩

theorem uploadLooseObjects_spec (token : Int) :
    Triple (SyncRule sessionID) (Opened sessionID old false) (uploadLooseObjects sessionID token)
      (fun _ past => Opened sessionID old false past ∧ LooseDone sessionID past) := by
  refine Triple.bind (readDir_spec _) fun r => ?_
  cases r with
  | error e =>
    simp only
    split
    · rename_i hk
      exact Triple.pure fun _ h => ⟨h.1, .inl ⟨e, h.2, hk⟩⟩
    · exact Triple.throw
  | ok entries =>
    have hl : Triple (SyncRule sessionID) (Opened sessionID old false) (forEach (uploadFanout sessionID token) entries)
        (fun _ past => Opened sessionID old false past ∧ ∀ f ∈ entries, FanoutDone sessionID f past) :=
      Triple.forEach (fanoutDone_lasting sessionID) fun f _ => uploadFanout_spec token f
    exact (hl.frame (listed_lasting _ entries)).mono (fun _ h => h) fun _ _ h => ⟨h.1.1, .inr ⟨entries, h.2, h.1.2⟩⟩

theorem uploadPackFile_spec {token : Int} {reading uploading fn : GoString}
    (hkey : ∀ past data, SyncRule sessionID past (.store (.putIdempotent key data token))) :
    Triple (SyncRule sessionID) (Opened sessionID old true) (uploadPackFile token reading uploading fn key)
      (fun there past => Opened sessionID old true past ∧
        (there = true → FileDone fn key past) ∧ (there = false → FileGone fn past)) := by
  unfold uploadPackFile
  split
  · rename_i hfn
    exact Triple.pure fun _ h => ⟨h, fun _ => .inl hfn, Bool.noConfusion⟩
  rename_i hfn
  refine Triple.bind (readFile_spec _) fun r => ?_
  cases r with
  | error e =>
    simp only
    split
    · rename_i hk
      exact Triple.pure fun _ h => ⟨h.1, Bool.noConfusion, fun _ => ⟨hfn, e, h.2, hk⟩⟩
    · exact Triple.throw
  | ok =>
    refine Triple.bind (Triple.mono (putIdempotent_spec (fun _ => hkey _ _) Bool.noConfusion) (fun _ h => h.1) fun _ _ h => h) fun r => ?_
    cases r with
    | error e =>
      simp only
      split
      · rename_i hk
        exact Triple.pure fun _ h => ⟨h.1, fun _ => .inr ⟨_, _, _, h.2, .inr ⟨e, rfl, hk⟩⟩, Bool.noConfusion⟩
      · exact Triple.throw
    | ok => exact Triple.pure fun _ h => ⟨h.1, fun _ => .inr ⟨_, _, _, h.2, .inl rfl⟩, Bool.noConfusion⟩

theorem uploadPack_spec (token : Int) (shas : List GoString) (lp : LocalPack) :
    Triple (SyncRule sessionID) (Opened sessionID old true) (uploadPack sessionID token shas lp)
      (fun _ past => Opened sessionID old true past ∧ (lp.sha ∈ shas ∨ PackDone sessionID lp past)) := by
  unfold uploadPack
  split
  · rename_i hk
    exact Triple.pure fun _ h => ⟨h, .inl hk⟩
  refine Triple.bind (uploadPackFile_spec fun _ _ => .inr ⟨lp.sha, .inl rfl⟩) fun there => ?_
  cases there with
  | false => exact Triple.pure fun _ h => ⟨h.1, .inr (.inl (h.2.2 rfl))⟩
  | true =>
    have hi : Triple (SyncRule sessionID) (Opened sessionID old true)
        (uploadPackFile token (ofString "read idx file ") (ofString "upload idx " ++ lp.sha) lp.idxFn (idxKey sessionID lp.sha))
        _ := uploadPackFile_spec fun _ _ => .inr ⟨lp.sha, .inr rfl⟩
    refine Triple.bind (Triple.mono (hi.frame (fileDone_lasting lp.packFn (packKey sessionID lp.sha)))
      (fun _ h => ⟨h.1, h.2.1 rfl⟩) fun _ _ h => h) fun there => ?_
    refine Triple.pure fun _ h => ⟨h.1.1, .inr (.inr ⟨h.2, ?_⟩)⟩
    cases there with
    | false => exact .inl (h.1.2.2 rfl)
    | true => exact .inr (h.1.2.1 rfl)

theorem uploadNewPacks_spec (order : MapOrder LocalPack) (token : Int) (oldPacks : List PackEntry) :
    Triple (SyncRule sessionID) (Opened sessionID old false) (uploadNewPacks order sessionID token oldPacks)
      (fun newPacks past => Opened sessionID old true past ∧ PacksDone sessionID oldPacks newPacks past) := by
  refine Triple.bind (readDir_spec _) fun r => ?_
  cases r with
  | error e =>
    simp only
    split
    · rename_i hk
      exact Triple.pure fun _ h => ⟨h.1.packing, .inl ⟨⟨e, h.2, hk⟩, rfl⟩⟩
    · exact Triple.throw
  | ok entries =>
    have hp : ∀ lp, lp ∈ order.iterate (localPacks entries) ↔ lp ∈ localPacks entries := fun lp => (order.perm _).mem_iff
    have hl : Triple (SyncRule sessionID) (Opened sessionID old true)
        (forEach (uploadPack sessionID token (oldPacks.map (·.sha))) (order.iterate (localPacks entries)))
        (fun _ past => Opened sessionID old true past ∧ ∀ lp ∈ order.iterate (localPacks entries),
          lp.sha ∈ oldPacks.map (·.sha) ∨ PackDone sessionID lp past) :=
      Triple.forEach (fun lp => (lasting_const _).or (packDone_lasting sessionID lp)) fun lp _ => uploadPack_spec token _ lp
    refine Triple.bind ((hl.frame (listed_lasting _ entries)).mono (fun _ h => ⟨h.1.packing, h.2⟩) fun _ _ h => h) fun _ =>
      Triple.pure fun _ h => ?_
    refine ⟨h.1.1, .inr ⟨entries, h.2, fun p => ?_, fun lp hlp => h.1.2 lp ((hp lp).2 hlp)⟩⟩
    simp only [mem_map, hp]
    exact exists_congr fun _ => and_congr_right fun _ => eq_comm

theorem readRefs_spec : ∀ (paths done : List FilePath) (refs : Refs), Triple (SyncRule sessionID)
      (fun past => Opened sessionID old true past ∧ ⟨.disk (.walk refsDir), .ok (done ++ paths)⟩ ∈ past ∧ RefsDone refs past)
      (readRefs paths refs) (fun refs past => Opened sessionID old true past ∧ RefsDone refs past)
  | [], _, _ => Triple.pure fun _ h => ⟨h.1, h.2.2⟩
  | p :: paths, done, refs => by
    have hw : Lasting (fun past : Trace Op.Res => ⟨.disk (.walk refsDir), .ok (done ++ p :: paths)⟩ ∈ past ∧
        RefsDone refs past) := (lasting_mem _).and (refsDone_lasting refs)
    have hs : done ++ p :: paths = done ++ [p] ++ paths := by simp
    refine Triple.bind (Triple.frame hw (readFile_spec p)) fun r => ?_
    cases r with
    | error =>
      simp only
      split
      · refine (readRefs_spec paths (done ++ [p]) refs).mono (fun _ h => ?_) fun _ _ h => h
        rw [← hs]
        exact ⟨h.1.1, h.2.1, h.2.2⟩
      · exact Triple.throw
    | ok data =>
      refine (readRefs_spec paths (done ++ [p]) _).mono (fun _ h => ?_) fun _ _ h => h
      rw [← hs]
      refine ⟨h.1.1, h.2.1, fun name value hl => ?_⟩
      by_cases hn : name = slashed p
      · subst hn
        rw [AList.lookup_insert] at hl
        exact ⟨_, p, data, h.2.1, by simp, h.1.2, rfl, (Option.some.inj hl).symm⟩
      · rw [AList.lookup_insert_ne hn] at hl
        exact h.2.2 name value hl

theorem readLocalRefs_spec : Triple (SyncRule sessionID) (Opened sessionID old true) readLocalRefs
    (fun refs past => Opened sessionID old true past ∧ RefsDone refs past) := by
  refine Triple.bind (walk_spec _) fun r => ?_
  have hn : ∀ past, RefsDone ∅ past := fun past _ _ h => by
    rw [AList.lookup_empty] at h
    cases h
  cases r with
  | error =>
    simp only
    split
    · exact Triple.pure fun past h => ⟨h.1, hn past⟩
    · exact Triple.throw
  | ok paths => exact Triple.withErr ((readRefs_spec paths [] ∅).mono (fun past h => ⟨h.1, h.2, hn past⟩) fun _ _ h => h)

theorem readPackedRefs_spec : Triple (SyncRule sessionID) (Opened sessionID old true) readPackedRefs
    (fun _ past => Opened sessionID old true past) := by
  refine Triple.bind (readFile_spec _) fun r => ?_
  cases r with
  | error =>
    simp only
    split
    · exact Triple.pure fun _ h => h.1
    · exact Triple.throw
  | ok => exact Triple.pure fun _ h => h.1

theorem doSyncAt_spec (order : MapOrder LocalPack) (token : Int) :
    Triple (SyncRule sessionID) (Opened sessionID old false) (doSyncAt order sessionID token old.1 old.2)
      (fun keys past => toDelete past = keys) := by
  refine Triple.bind (Triple.withErr (uploadLooseObjects_spec token)) fun _ => ?_
  refine Triple.bind ((Triple.withErr (uploadNewPacks_spec order token old.1.packs)).frame (looseDone_lasting sessionID))
    fun newPacks => ?_
  have hd : Lasting (fun past => LooseDone sessionID past ∧ PacksDone sessionID old.1.packs newPacks past) :=
    (looseDone_lasting sessionID).and (packsDone_lasting sessionID old.1.packs newPacks)
  refine Triple.bind (Triple.mono (Triple.frame hd (Triple.withErr readLocalRefs_spec)) (fun _ h => ⟨h.1.1, h.2, h.1.2⟩)
    fun _ _ h => h) fun newRefs => ?_
  refine Triple.bind (Triple.mono (Triple.frame ((refsDone_lasting newRefs).and hd) (Triple.withErr readPackedRefs_spec))
    (fun _ h => ⟨h.1.1, h.1.2, h.2⟩) fun _ _ h => h) fun _ => ?_
  refine Triple.bind (Triple.withErr
    (save_spec (fun _ _ => rfl) fun past e _ m' hpast he _ _ hm' => ?_)) fun _ => Triple.pure fun _ h => h
  obtain ⟨ho, hr, hloose, hp⟩ := hpast
  obtain ⟨e₀, hh, hl⟩ := ho.first
  obtain ⟨-, hread⟩ := he.isGet_eq
  have hpre : past <+: past ++ [e] := prefix_append past [e]
  have hh' : (past ++ [e]).head? = some e₀ := by simp [hh]
  have hunsaved : saved (past ++ [e]) = none := by
    rw [saved_snoc, ho.unsaved, hread.1]
    rfl
  have hu : (past ++ [e]).countP isDelete = 0 := by simp [ho.undeleted, hread.2]
  refine ⟨⟨rfl, hunsaved, hu, e₀, old, m', hh', hl, rfl, rfl, by rw [hm'], by rw [hm'], ?_, ?_, ?_⟩, fun _ => ?_⟩
  · exact looseDone_lasting sessionID _ _ hpre hloose
  · rw [hm']
    exact packsDone_lasting sessionID _ _ _ _ hpre hp
  · rw [hm']
    exact refsDone_lasting _ _ _ hpre hr
  · rw [toDelete_written hh' hl hunsaved hu rfl rfl, hm']

theorem lazyDeletePacks_spec : ∀ keys : List GoString,
    Triple (SyncRule sessionID) (fun past => toDelete past = keys) (lazyDeletePacks keys) (fun _ _ => True)
  | [] => Triple.pure fun _ _ => trivial
  | key :: keys => by
    have hd : Triple (SyncRule sessionID) (fun past => toDelete past = key :: keys)
        (onStore (.delete key)) (fun _ past => toDelete past = keys) := by
      refine onStore_spec (fun past h => by simp [SyncRule, h]) fun past r h => ?_
      rw [toDelete_snoc past rfl, h]
      rfl
    exact Triple.bind (Triple.bind hd fun _ => Triple.pure fun _ h => h) fun _ => lazyDeletePacks_spec keys

end

theorem sync_obeys (order : MapOrder LocalPack) (sessionID : GoString) (token : Int) :
    Obeys (SyncRule sessionID) (fun _ _ => True) [] (syncAndDelete order sessionID token) := by
  have hs : Triple (SyncRule sessionID) (· = []) (syncAndDelete order sessionID token) (fun _ _ => True) := by
    refine Triple.bind (Triple.withErr (Triple.bind (Triple.withErr (load_spec fun _ _ => rfl)) fun _ => ?_)) fun keys =>
      lazyDeletePacks_spec keys
    refine (doSyncAt_spec order token).mono ?_ fun _ _ h => h
    rintro _ ⟨_, e, rfl, rfl, he⟩
    exact opened_of_loaded he
  exact Obeys.mono (fun _ _ _ => trivial) (hs [] rfl)

end Jamsesh.Objectstore
