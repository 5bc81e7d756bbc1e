import Jamsesh.UploadedRefs
/-!
# SyncRun — a sync alone

A sync while nothing else changes the repository or the store: it returns unless its token is behind the manifest's, every
loose object and new pack it finds is stored, nothing else is touched but the manifest and the packs no longer listed, and the
manifest holds the refs of the directory (`sync_run`).
-/
namespace Jamsesh.Objectstore

open FileTree Prog
open GoString (ofString Valid trimSpace)

/-! ## A pod alone -/

abbrev Pod := Store × Option Repo

def noRepo : Repo := ⟨∅, []⟩

def changed (t : Option Repo) : Except FileErr Repo → Except Err Unit × Option Repo
  | .ok t' => (.ok (), some t')
  | .error e => (.error (diskErr e), t)

def errRepoExists : Err := ⟨.other, ofString "storage: repo already exists"⟩

/-- The answers of a directory, given the repository that `git init --bare` makes. -/
def diskAnswer (fresh : Repo) : (o : DiskOp) → Option Repo → Except Err o.Val × Option Repo
  | .mkdirAll p, t => changed t ((t.getD noRepo).mkdirAll p)
  | .writeFile p data, t => changed t ((t.getD noRepo).writeFile p data)
  | .rename p q, t => changed t ((t.getD noRepo).rename p q)
  | .remove p, t => changed t ((t.getD noRepo).remove p)
  | .repoExists, t => (.ok t.isSome, t)
  | .createRepo, t => if t.isSome then (.error errRepoExists, t) else (.ok (), some fresh)
  | o, t => (readRepo (t.getD noRepo) o, t)

/-- **The answers to a pod that is alone**: only deletions, those of `lost`, fail. -/
def podAnswer (fresh : Repo) (lost : GoString → Bool) : (o : Op) → Pod → o.Res × Pod
  | .store (.delete key), w => if lost key then (.error ⟨.other, []⟩, w) else (.ok (), (w.1.erase key, w.2))
  | .store o, w => ((w.1.answer o).1, ((w.1.answer o).2, w.2))
  | .disk o, w => ((diskAnswer fresh o w.2).1, (w.1, (diskAnswer fresh o w.2).2))

/-! ## Uploads -/

inductive FileKey (sessionID : GoString) (d : Repo) : GoString → GoString → Prop where
  | loose {name obj b : GoString} (fanout : isFanout (name, true) = true) (file : d.file? (objectsDir ++ [name, obj]) = some b) :
      FileKey sessionID d (looseKey sessionID name obj) b
  | pack {sha b : GoString} (file : d.file? (packDir ++ [packFile sha]) = some b) : FileKey sessionID d (packKey sessionID sha) b
  | idx {sha b : GoString} (file : d.file? (packDir ++ [idxFile sha]) = some b) : FileKey sessionID d (idxKey sessionID sha) b

/-- **Uploads only add**, and only files of the repository. -/
structure Mirrors (sessionID : GoString) (d : Repo) (s s' : Store) : Prop where
  kept : ∀ key x, s.at? key = some x → s'.at? key = some x
  added : ∀ key x, s'.at? key = some x → s.at? key = some x ∨ ∃ b, FileKey sessionID d key b ∧ x.data = .bytes b

variable {sessionID : GoString} {d : Repo}

theorem Mirrors.refl (s : Store) : Mirrors sessionID d s s := ⟨fun _ _ h => h, fun _ _ h => .inl h⟩

variable {s s' : Store} {key : GoString} {token : Int}

theorem Mirrors.trans {s'' : Store} (h : Mirrors sessionID d s s') (h' : Mirrors sessionID d s' s'') :
    Mirrors sessionID d s s'' where
  kept := fun key x hx => h'.kept key x (h.kept key x hx)
  added := fun key x hx => (h'.added key x hx).elim (h.added key x) .inr

theorem Mirrors.isSome (h : Mirrors sessionID d s s') (hk : (s.at? key).isSome) : (s'.at? key).isSome := by
  obtain ⟨x, hx⟩ := Option.isSome_iff_exists.1 hk
  rw [h.kept key x hx]
  rfl

theorem Mirrors.at?_eq (h : Mirrors sessionID d s s') (hk : ∀ b, ¬ FileKey sessionID d key b) :
    s'.at? key = s.at? key := by
  cases hx : s'.at? key with
  | some x => exact ((h.added key x hx).resolve_right fun ⟨b, hb, _⟩ => hk b hb).symm
  | none =>
    cases hy : s.at? key with
    | none => rfl
    | some y =>
      rw [h.kept key y hy] at hx
      cases hx

theorem FileKey.ne_manifestKey {b : GoString} (h : FileKey sessionID d key b) : key ≠ manifestKey sessionID := by
  cases h with
  | loose => exact looseKey_ne_manifestKey _ _ _
  | pack => exact packKey_ne_manifestKey _ _
  | idx => exact idxKey_ne_manifestKey _ _

def Mirrored (sessionID : GoString) (d : Repo) (w w' : Pod) : Prop := w'.2 = w.2 ∧ Mirrors sessionID d w.1 w'.1

instance : Std.Refl (Mirrored sessionID d) := ⟨fun w => ⟨rfl, .refl w.1⟩⟩

instance : IsTrans Pod (Mirrored sessionID d) := ⟨fun _ _ _ h h' => ⟨h'.1.trans h.1, h.2.trans h'.2⟩⟩

def Holds (d : Repo) (w : Pod) : Prop := w.2 = some d

variable {fresh : Repo} {lost : GoString → Bool}

abbrev Uploads (fresh : Repo) (lost : GoString → Bool) (sessionID : GoString) (d : Repo) {α : Type} (p : Act α)
    (Q : α → Store → Prop) : Prop :=
  Ends (podAnswer fresh lost) (Mirrored sessionID d) (Holds d) p (fun a w => Holds d w ∧ Q a w.1)

theorem readRepo_file {p : FilePath} {b : GoString} (h : d.file? p = some b) : readRepo d (.readFile p) = .ok b := by
  rw [readRepo, readFile, h]
  rfl

theorem readRepo_dir {p : FilePath} (h : d.isDir p = true) : readRepo d (.readDir p) = .ok (d.children p) := by
  rw [readRepo, readDir, if_pos h]
  rfl

theorem readRepo_noDir {p : FilePath} (h : d.isDir p = false) (hf : d.isFile p = false) :
    readRepo d (.readDir p) = .error (diskErr .notExist) := by
  rw [readRepo, readDir, h, hf]
  rfl

theorem reads {α : Type} {o : DiskOp} {f : Except Err o.Val → Act α} {Q : α → Store → Prop}
    (hread : ∀ t, diskAnswer fresh o t = (readRepo (t.getD noRepo) o, t))
    (h : Uploads fresh lost sessionID d (f (readRepo d o)) Q) : Uploads fresh lost sessionID d (onDisk o >>= f) Q := by
  rintro ⟨s, _⟩ rfl
  have hr : run (podAnswer fresh lost) (onDisk o) (s, some d) = (.ok (readRepo d o), (s, some d)) := by
    simp only [onDisk, call, run, podAnswer, hread]
    rfl
  rw [run_bind_ok hr]
  exact h _ rfl

theorem putIdempotent_ends {b : GoString} (hf : FileKey sessionID d key b) :
    Ends (podAnswer fresh lost) (Mirrored sessionID d) (Holds d) (onStore (.putIdempotent key (.bytes b) token))
      (fun r w => (r = .ok () ∨ r = .error errAlreadyExists) ∧ Holds d w ∧ (w.1.at? key).isSome) := by
  refine Ends.call fun w hw => ?_
  simp only [podAnswer, Store.answer, Store.putIdempotent]
  cases hx : w.1.at? key with
  | some =>
    refine ⟨refl_of (Mirrored sessionID d) w, ?_, hw, by rw [hx]; rfl⟩
    simp only
    split
    · exact .inl rfl
    · exact .inr rfl
  | none =>
    refine ⟨⟨rfl, fun k x hk => ?_, fun k x hk => ?_⟩, .inl rfl, hw, by simp⟩
    · have hne : k ≠ key := by
        rintro rfl
        rw [hx] at hk
        cases hk
      rwa [w.1.write_at?_ne hne]
    · by_cases hne : k = key
      · subst hne
        rw [Store.write_at?_self] at hk
        cases hk
        exact .inr ⟨b, hf, rfl⟩
      · rw [w.1.write_at?_ne hne] at hk
        exact .inl hk

theorem uploads_forEach {A : Type} {f : A → Act Unit} {D : A → Store → Prop} {l : List A}
    (hD : ∀ a s s', Mirrors sessionID d s s' → D a s → D a s') (h : ∀ a ∈ l, Uploads fresh lost sessionID d (f a) (fun _ => D a)) :
    Uploads fresh lost sessionID d (forEach f l) (fun _ s => ∀ a ∈ l, D a s) :=
  Ends.forEach (fun a w w' hw => hD a w.1 w'.1 hw.2) h

theorem Uploads.step {α : Type} {p : Act α} {Q : α → Store → Prop} (h : Uploads fresh lost sessionID d p Q) (s : Store) :
    ∃ a s', Mirrors sessionID d s s' ∧ Q a s' ∧ ∀ (g : Err → Err) {β : Type} (f : α → Act β),
      run (podAnswer fresh lost) (withErr g p >>= f : Act β) (s, some d) =
        run (podAnswer fresh lost) (f a) (s', some d) := by
  obtain ⟨a, ⟨s', _⟩, hr, ⟨-, hm⟩, hh, hQ⟩ := h (s, some d) rfl
  cases hh
  exact ⟨a, s', hm, hQ, fun g β f => run_bind_ok (run_withErr_ok hr)⟩

/-! ### Loose objects -/

theorem uploadObject_ends {name obj : GoString} {dir : Bool} (hf : isFanout (name, true) = true)
    (ho : (obj, dir) ∈ d.children (objectsDir ++ [name])) :
    Uploads fresh lost sessionID d (uploadObject sessionID token name (obj, dir))
      (fun _ s => dir = false → (s.at? (looseKey sessionID name obj)).isSome) := by
  unfold uploadObject
  cases dir with
  | true => exact Ends.pure fun w hw => ⟨hw, fun h => by cases h⟩
  | false =>
    obtain ⟨b, hb⟩ := file_of_mem_children ho
    rw [List.append_assoc, List.singleton_append] at hb
    refine reads (fun _ => rfl) ?_
    rw [readRepo_file hb]
    refine Ends.bind (putIdempotent_ends (.loose hf hb)) fun r => Ends.known fun hr => ?_
    rcases hr with rfl | rfl <;> exact Ends.pure fun w hw => ⟨hw.1, fun _ => hw.2⟩

def FanoutStored (sessionID : GoString) (d : Repo) (e : GoString × Bool) (s : Store) : Prop :=
  isFanout e = true → ∀ obj, d.isFile (objectsDir ++ [e.1, obj]) → (s.at? (looseKey sessionID e.1 obj)).isSome

theorem uploadFanout_ends {e : GoString × Bool} (he : e ∈ d.children objectsDir) :
    Uploads fresh lost sessionID d (uploadFanout sessionID token e) (fun _ => FanoutStored sessionID d e) := by
  unfold uploadFanout
  split
  · rename_i hf
    obtain ⟨name, dir⟩ := e
    have hdir : dir = true := by
      simp only [isFanout, Bool.and_eq_true] at hf
      exact hf.1.1.1.1
    subst hdir
    refine reads (fun _ => rfl) ?_
    rw [readRepo_dir (isDir_of_mem_children he)]
    refine (uploads_forEach
      (fun obj s _ h hs ho => h.isSome (hs ho)) fun obj ho => uploadObject_ends hf ho).mono (fun _ h => h)
        fun _ w hw => ⟨hw.1, fun _ obj hfile => ?_⟩
    obtain ⟨_, hd⟩ := isFile_iff.1 hfile
    refine hw.2 (obj, false) ?_ rfl
    have hp : objectsDir ++ [name, obj] = objectsDir ++ [name] ++ obj :: [] := by simp
    exact mem_children_of_file (hp ▸ hd)
  · rename_i hf
    exact Ends.pure fun w hw => ⟨hw, fun h => absurd h hf⟩

/-- **The directory `objects` is one, or there is none**, and so on for the places a sync reads. -/
structure Listable (d : Repo) : Prop where
  objects : d.isFile objectsDir = false
  pack : d.isFile packDir = false
  packedRefs : d.isDir packedRefsPath = false

theorem uploadLooseObjects_ends (hd : Listable d) : Uploads fresh lost sessionID d (uploadLooseObjects sessionID token)
      (fun _ s => ∀ name, FanoutStored sessionID d (name, true) s) := by
  unfold uploadLooseObjects
  refine reads (fun _ => rfl) ?_
  cases hdir : d.isDir objectsDir with
  | true =>
    rw [readRepo_dir hdir]
    refine (uploads_forEach (fun e s _ h hs hfanout obj hf =>
      h.isSome (hs hfanout obj hf)) fun e he => uploadFanout_ends he).mono (fun _ h => h) fun _ w hw => ⟨hw.1, fun name hfanout obj hf => ?_⟩
    obtain ⟨_, hdata⟩ := isFile_iff.1 hf
    exact hw.2 (name, true) (mem_children_of_file hdata) hfanout obj hf
  | false =>
    rw [readRepo_noDir hdir hd.objects]
    refine Ends.pure fun w hw => ⟨hw, fun name _ obj hf => ?_⟩
    have hn : d.isFile (objectsDir ++ name :: [obj]) = false := not_isFile_of_not_isDir hdir
    exact absurd hf (Bool.eq_false_iff.1 hn)

/-! ### Packs -/

theorem uploadPackFile_ends {reading uploading fn : GoString}
    (hf : fn ≠ [] → ∃ b, d.file? (packDir ++ [fn]) = some b ∧ FileKey sessionID d key b) :
    Uploads fresh lost sessionID d (uploadPackFile token reading uploading fn key)
      (fun there s => there = true ∧ (fn ≠ [] → (s.at? key).isSome)) := by
  unfold uploadPackFile
  split
  · rename_i hfn
    exact Ends.pure fun w hw => ⟨hw, rfl, fun h => absurd hfn h⟩
  rename_i hfn
  obtain ⟨b, hb, hk⟩ := hf hfn
  refine reads (fun _ => rfl) ?_
  rw [readRepo_file hb]
  refine Ends.bind (putIdempotent_ends hk) fun r => Ends.known fun hr => ?_
  rcases hr with rfl | rfl <;> exact Ends.pure fun w hw => ⟨hw.1, rfl, fun _ => hw.2⟩

def PackStored (sessionID : GoString) (oldSHAs : List GoString) (lp : LocalPack) (s : Store) : Prop :=
  lp.sha ∉ oldSHAs → (lp.packFn ≠ [] → (s.at? (packKey sessionID lp.sha)).isSome) ∧
    (lp.idxFn ≠ [] → (s.at? (idxKey sessionID lp.sha)).isSome)

theorem uploadPack_ends {oldSHAs : List GoString} {lp : LocalPack} (hlp : lp ∈ localPacks (d.children packDir)) :
    Uploads fresh lost sessionID d (uploadPack sessionID token oldSHAs lp) (fun _ => PackStored sessionID oldSHAs lp) := by
  unfold uploadPack
  split
  · rename_i ho
    exact Ends.pure fun w hw => ⟨hw, fun h => absurd ho h⟩
  obtain ⟨hp, hidx⟩ := localPack_files hlp
  refine Ends.bind (uploadPackFile_ends fun hfn => ?_) fun _ => ?_
  · obtain ⟨b, hb⟩ := file_of_mem_children (hp hfn).2
    refine ⟨b, hb, .pack ?_⟩
    rwa [← (hp hfn).1]
  · refine (Ends.known (P := fun w => Holds d w ∧ (lp.packFn ≠ [] → (w.1.at? _).isSome)) fun ht => ?_).mono
      (fun w hw => ⟨hw.2.1, hw.1, hw.2.2⟩) fun _ _ h => h
    rw [ht]
    have hi : lp.idxFn ≠ [] → ∃ b, d.file? (packDir ++ [lp.idxFn]) = some b ∧
        FileKey sessionID d (idxKey sessionID lp.sha) b := by
      intro hfn
      obtain ⟨b, hb⟩ := file_of_mem_children (hidx hfn).2
      exact ⟨b, hb, .idx ((hidx hfn).1 ▸ hb)⟩
    refine Ends.bind (Ends.frame (fun w _ h hs hfn => h.2.isSome (hs hfn))
      (uploadPackFile_ends hi)) fun _ => ?_
    exact Ends.pure fun w hw => ⟨hw.1.1, fun _ => ⟨hw.2, hw.1.2.2⟩⟩

/-- **The packs a sync lists**: the old ones where there is no directory of packs, and else those of the directory, which are
stored unless the old manifest listed them. -/
def PacksListed (sessionID : GoString) (d : Repo) (oldPacks newPacks : List PackEntry) (s : Store) : Prop :=
  (d.isDir packDir = false ∧ newPacks = oldPacks) ∨
    (∀ p, p ∈ newPacks ↔ ∃ sha, p = packEntry sessionID sha ∧ (d.isFile (packDir ++ [packFile sha]) ∨ d.isFile (packDir ++ [idxFile sha]))) ∧
      ∀ sha, sha ∉ oldPacks.map (·.sha) → (d.isFile (packDir ++ [packFile sha]) → (s.at? (packKey sessionID sha)).isSome) ∧
        (d.isFile (packDir ++ [idxFile sha]) → (s.at? (idxKey sessionID sha)).isSome)

theorem PacksListed.mono {oldPacks newPacks : List PackEntry} (h : PacksListed sessionID d oldPacks newPacks s)
    (hmirrors : Mirrors sessionID d s s') : PacksListed sessionID d oldPacks newPacks s' := by
  refine h.imp_right fun ⟨hm, hs⟩ => ⟨hm, fun sha hsha => ?_⟩
  exact ⟨fun hf => hmirrors.isSome ((hs sha hsha).1 hf), fun hf => hmirrors.isSome ((hs sha hsha).2 hf)⟩

theorem mem_children_pack {fn : GoString} : (fn, false) ∈ d.children packDir ↔ d.isFile (packDir ++ [fn]) = true := by
  rw [isFile_iff]
  refine ⟨file_of_mem_children, fun ⟨data, hd⟩ => ?_⟩
  exact mem_children_of_file hd

theorem foundPack_children {sha : GoString} {lp : LocalPack} (h : foundPack (d.children packDir) sha = some lp) :
    d.isFile (packDir ++ [packFile sha]) ∨ d.isFile (packDir ++ [idxFile sha]) := by
  unfold foundPack at h
  split at h
  · rename_i hm
    exact hm.imp mem_children_pack.1 mem_children_pack.1
  · cases h

theorem uploadNewPacks_ends (hd : Listable d) {order : MapOrder LocalPack} {oldPacks : List PackEntry} :
    Uploads fresh lost sessionID d (uploadNewPacks order sessionID token oldPacks)
      (fun newPacks s => PacksListed sessionID d oldPacks newPacks s) := by
  unfold uploadNewPacks
  refine reads (fun _ => rfl) ?_
  cases hdir : d.isDir packDir with
  | false =>
    rw [readRepo_noDir hdir hd.pack]
    exact Ends.pure fun w hw => ⟨hw, .inl ⟨hdir, rfl⟩⟩
  | true =>
    rw [readRepo_dir hdir]
    have hm : ∀ lp, lp ∈ order.iterate (localPacks (d.children packDir)) ↔ lp ∈ localPacks (d.children packDir) :=
      fun _ => (order.perm _).mem_iff
    refine Ends.bind (uploads_forEach ?_ fun lp hlp =>
      uploadPack_ends ((hm lp).1 hlp)) fun _ => Ends.pure fun w hw => ⟨hw.1, .inr ⟨fun p => ?_, fun _ hsha => ?_⟩⟩
    · intro _ s _ h hs hsha
      exact ⟨fun hfn => h.isSome ((hs hsha).1 hfn), fun hfn => h.isSome ((hs hsha).2 hfn)⟩
    · rw [List.mem_map]
      constructor
      · rintro ⟨lp, hlp, rfl⟩
        exact ⟨lp.sha, rfl, foundPack_children (mem_localPacks.1 ((hm lp).1 hlp))⟩
      · rintro ⟨_, rfl, hf⟩
        obtain ⟨lp, hlp, rfl, -⟩ := localPack_of_file (hf.imp mem_children_pack.2 mem_children_pack.2)
        exact ⟨lp, (hm lp).2 hlp, rfl⟩
    · constructor
      · intro hf
        have he := mem_children_pack.2 hf
        obtain ⟨lp, hlp, rfl, hp, -⟩ := localPack_of_file (.inl he)
        exact (hw.2 lp ((hm lp).2 hlp) hsha).1 (by simp [hp he, packFile, ofString])
      · intro hf
        have he := mem_children_pack.2 hf
        obtain ⟨lp, hlp, rfl, -, hi⟩ := localPack_of_file (.inr he)
        exact (hw.2 lp ((hm lp).2 hlp) hsha).2 (by simp [hi he, idxFile, ofString])

/-! ### Refs -/

/-- The refs that `readRefs` makes of files. -/
def refsOf (d : Repo) (paths : List FilePath) (refs : Refs) : Refs :=
  paths.foldl (fun refs p => refs.insert (slashed p) (trimSpace ((d.file? p).getD []))) refs

def looseRefs (d : Repo) : Refs := refsOf d (d.under refsDir) ∅

def packedText (d : Repo) : GoString := (d.file? packedRefsPath).getD []

theorem readRefs_ends {paths : List FilePath} (hpaths : ∀ p ∈ paths, d.isFile p) {refs : Refs} :
    Uploads fresh lost sessionID d (readRefs paths refs) (fun refs' _ => refs' = refsOf d paths refs) := by
  induction paths generalizing refs with
  | nil => exact Ends.pure fun w hw => ⟨hw, rfl⟩
  | cons p paths ih =>
    obtain ⟨hp, hpaths⟩ := List.forall_mem_cons.1 hpaths
    obtain ⟨data, hd⟩ := isFile_iff.1 hp
    refine reads (fun _ => rfl) ?_
    rw [readRepo_file hd]
    have hr : refsOf d (p :: paths) refs = refsOf d paths (refs.insert (slashed p) (trimSpace data)) := by
      rw [refsOf, List.foldl_cons, hd]
      rfl
    rw [hr]
    exact ih hpaths

theorem readLocalRefs_ends : Uploads fresh lost sessionID d readLocalRefs (fun refs _ => refs = looseRefs d) := by
  unfold readLocalRefs
  refine reads (fun _ => rfl) ?_
  rw [readRepo]
  cases hwalk : d.walk refsDir with
  | ok =>
    rw [looseRefs, ← eq_of_walk hwalk]
    exact Ends.withErr (readRefs_ends fun p hp => ((mem_of_walk hwalk).1 hp).2)
  | error =>
    obtain ⟨rfl, hn⟩ := walk_error hwalk
    rw [looseRefs, hn]
    exact Ends.pure fun w hw => ⟨hw, rfl⟩

theorem readPackedRefs_ends (hd : Listable d) :
    Uploads fresh lost sessionID d readPackedRefs (fun text _ => text = packedText d) := by
  unfold readPackedRefs
  refine reads (fun _ => rfl) ?_
  rw [readRepo, readFile, packedText]
  cases d.file? packedRefsPath with
  | some => exact Ends.pure fun w hw => ⟨hw, rfl⟩
  | none =>
    rw [hd.packedRefs]
    exact Ends.pure fun w hw => ⟨hw, rfl⟩

/-! ### The manifest -/

/-- **A store whose manifest, if there is one, is the session's.** -/
def ManifestOk (sessionID : GoString) (s : Store) : Prop :=
  ∀ x, s.at? (manifestKey sessionID) = some x → ∃ m, x.data = .json m ∧ m.version = manifestSchemaVersion ∧ m.sessionID = sessionID

/-- What `Load` gives. -/
def loadedOf (sessionID : GoString) (s : Store) : Manifest × Option Nat :=
  match s.at? (manifestKey sessionID) with
  | none => (.zero, none)
  | some x => ((x.data.unmarshal).getD .zero, some x.etag)

theorem load_run (hsession : Valid sessionID) {w : Pod} (hok : ManifestOk sessionID w.1) :
    run (podAnswer fresh lost) (load sessionID) w = (.ok (loadedOf sessionID w.1), w) := by
  have hg : run (podAnswer fresh lost) (onStore (.get (manifestKey sessionID))) w =
      (.ok (w.1.get (manifestKey sessionID)), w) := rfl
  unfold load
  rw [run_bind_ok hg, Store.get, loadedOf]
  cases hx : w.1.at? (manifestKey sessionID) with
  | none => rfl
  | some x =>
    obtain ⟨m, hm, hv, hid⟩ := hok x hx
    have hv' : m.coerced.version = manifestSchemaVersion := hv
    have hi' : m.coerced.sessionID = sessionID := by
      rw [Manifest.coerced, hid]
      exact hsession
    simp only [hm, Content.unmarshal, hv', hi', ne_eq]
    rfl

theorem save_run (hsession : Valid sessionID) {m : Manifest} (hid : m.sessionID = sessionID) (hne : sessionID ≠ [])
    (hversion : m.version = 1) (w : Pod) (hok : ManifestOk sessionID w.1) :
    run (podAnswer fresh lost) (save m (loadedOf sessionID w.1).2) w =
      if (loadedOf sessionID w.1).1.fencingToken > m.fencingToken then (.error errFenced, w)
      else (.ok w.1.next, (w.1.write (manifestKey sessionID) (.json m) m.fencingToken, w.2)) := by
  have hl : run (podAnswer fresh lost) (withErr (Err.wrap (ofString "objectstore: save manifest pre-flight load for session " ++
      quoted m.sessionID)) (load m.sessionID)) w = (.ok (loadedOf sessionID w.1), w) := by
    rw [hid]
    exact run_withErr_ok (load_run hsession hok)
  have hv : m.versioned = m := by
    rw [Manifest.versioned, hversion]
    rfl
  unfold save
  rw [if_neg (hid ▸ hne), run_bind_ok hl]
  split
  · rfl
  have hc : ¬ ((loadedOf sessionID w.1).2 = none ∧ (loadedOf sessionID w.1).2 ≠ none) := fun h => h.2 h.1
  have hm : (loadedOf sessionID w.1).2 = none ∨
      (loadedOf sessionID w.1).2 = (w.1.at? (manifestKey m.sessionID)).map (·.etag) := by
    rw [loadedOf, hid]
    cases w.1.at? (manifestKey sessionID) with
    | none => exact .inl rfl
    | some => exact .inr rfl
  have hp : run (podAnswer fresh lost) (onStore (.put (manifestKey m.sessionID) (.json m) m.fencingToken
      (loadedOf sessionID w.1).2)) w =
      (.ok (.ok w.1.next), (w.1.write (manifestKey m.sessionID) (.json m) m.fencingToken, w.2)) := by
    simp only [onStore, call, run, podAnswer, Store.answer, Store.put, if_pos hm]
  rw [if_neg hc, if_neg (by rw [hv, hversion]; decide), hv, run_bind_ok hp, hid]
  rfl

/-! ### The sync -/

def syncedManifest (sessionID : GoString) (d : Repo) (packs : List PackEntry) (token : Int) : Manifest :=
  ⟨1, sessionID, packs, looseRefs d, packedText d, token⟩

def Erased (keys : List GoString) (s s' : Store) : Prop :=
  (∀ key, key ∉ keys → s'.at? key = s.at? key) ∧ ∀ key x, s'.at? key = some x → s.at? key = some x

/-- **What a sync has done**: `up` is the store after the uploads. -/
structure Synced (sessionID : GoString) (d : Repo) (token : Int) (s up : Store) (packs : List PackEntry) (s' : Store) : Prop where
  mirrors : Mirrors sessionID d s up
  loose : ∀ name, FanoutStored sessionID d (name, true) up
  listed : PacksListed sessionID d (loadedOf sessionID s).1.packs packs up
  erased : Erased (removedPackKeys (loadedOf sessionID s).1.packs packs)
    (up.write (manifestKey sessionID) (.json (syncedManifest sessionID d packs token)) token) s'

theorem doSyncAt_run (fresh : Repo) (lost : GoString → Bool) (sessionID : GoString) (hd : Listable d) (order : MapOrder LocalPack)
    (token : Int) (oldManifest : Manifest) (oldEtag : Option Nat) (s : Store) : ∃ up packs,
      Mirrors sessionID d s up ∧ (∀ name, FanoutStored sessionID d (name, true) up) ∧
      PacksListed sessionID d oldManifest.packs packs up ∧
      run (podAnswer fresh lost) (doSyncAt order sessionID token oldManifest oldEtag) (s, some d) =
        run (podAnswer fresh lost) (do
          let _ ← withErr Err.ofSave (save (syncedManifest sessionID d packs token) oldEtag)
          return removedPackKeys oldManifest.packs packs : Act (List GoString)) (up, some d) := by
  have hs₁ : Uploads fresh lost sessionID d (uploadLooseObjects sessionID token) _ := uploadLooseObjects_ends hd
  have hs₂ : Uploads fresh lost sessionID d (uploadNewPacks order sessionID token oldManifest.packs) _ := uploadNewPacks_ends hd
  have hs₃ : Uploads fresh lost sessionID d readLocalRefs _ := readLocalRefs_ends
  have hs₄ : Uploads fresh lost sessionID d readPackedRefs _ := readPackedRefs_ends hd
  obtain ⟨_, s₁, hm₁, hl, hr₁⟩ := hs₁.step s
  obtain ⟨packs, s₂, hm₂, hp, hr₂⟩ := hs₂.step s₁
  obtain ⟨_, s₃, hm₃, rfl, hr₃⟩ := hs₃.step s₂
  obtain ⟨_, s₄, hm₄, rfl, hr₄⟩ := hs₄.step s₃
  refine ⟨s₄, packs, hm₁.trans (hm₂.trans (hm₃.trans hm₄)), fun name hf obj hfile => ?_,
    hp.mono (hm₃.trans hm₄), ?_⟩
  · exact (hm₂.trans (hm₃.trans hm₄)).isSome (hl name hf obj hfile)
  · unfold doSyncAt
    rw [hr₁, hr₂, hr₃, hr₄]
    rfl

theorem lazyDeletePacks_run (fresh : Repo) (lost : GoString → Bool) (keys : List GoString) (w : Pod) : ∃ s',
    run (podAnswer fresh lost) (lazyDeletePacks keys) w = (.ok (), (s', w.2)) ∧ Erased keys w.1 s' := by
  induction keys generalizing w with
  | nil => exact ⟨w.1, rfl, fun _ _ => rfl, fun _ _ h => h⟩
  | cons key _ ih =>
    -- the deletion of this key, lost or not
    obtain ⟨r, s₁, hc, hkept, hf⟩ : ∃ r s₁, run (podAnswer fresh lost) (onStore (.delete key)) w = (.ok r, (s₁, w.2)) ∧
        Erased [key] w.1 s₁ := by
      simp only [onStore, call, run, podAnswer]
      split
      · exact ⟨_, w.1, rfl, fun _ _ => rfl, fun _ _ h => h⟩
      refine ⟨_, w.1.erase key, rfl, fun k hk => w.1.erase_at?_ne (List.mem_singleton.not.1 hk), fun k x hx => ?_⟩
      by_cases hk : k = key
      · subst hk
        rw [Store.erase_at?_self] at hx
        cases hx
      · rwa [w.1.erase_at?_ne hk] at hx
    obtain ⟨s', hr, hk', hf'⟩ := ih (s₁, w.2)
    refine ⟨s', (run_bind_ok (run_bind_ok hc)).trans hr, fun k hk => ?_, fun k x hx => hf k x (hf' k x hx)⟩
    obtain ⟨hne, hr⟩ := not_or.1 (List.mem_cons.not.1 hk)
    exact (hk' k hr).trans (hkept k (List.mem_singleton.not.2 hne))

theorem sync_run (fresh : Repo) (lost : GoString → Bool) (hsession : Valid sessionID) (hne : sessionID ≠ []) (hd : Listable d)
    (hok : ManifestOk sessionID s) (order : MapOrder LocalPack) (token : Int) :
    (token < (loadedOf sessionID s).1.fencingToken ∧ ∃ e w', run (podAnswer fresh lost)
        (syncAndDelete order sessionID token) (s, some d) = (.error e, w')) ∨
      ((loadedOf sessionID s).1.fencingToken ≤ token ∧ ∃ up packs s', Synced sessionID d token s up packs s' ∧
        run (podAnswer fresh lost) (syncAndDelete order sessionID token) (s, some d) = (.ok (), (s', some d))) := by
  have hl : run (podAnswer fresh lost) (withErr (Err.wrap (ofString "load manifest")) (load sessionID)) (s, some d) =
      (.ok (loadedOf sessionID s), (s, some d)) := run_withErr_ok (load_run hsession hok)
  obtain ⟨up, packs, hmirrors, hloose, hlisted, hr⟩ :=
    doSyncAt_run fresh lost sessionID hd order token (loadedOf sessionID s).1 (loadedOf sessionID s).2 s
  -- the uploads have left the manifest as it was
  have hm : up.at? (manifestKey sessionID) = s.at? (manifestKey sessionID) :=
    hmirrors.at?_eq fun b hb => hb.ne_manifestKey rfl
  have hloaded : loadedOf sessionID up = loadedOf sessionID s := by rw [loadedOf, loadedOf, hm]
  have ho : ManifestOk sessionID up := fun x hx => hok x (hm ▸ hx)
  have hs : run (podAnswer fresh lost) (save (syncedManifest sessionID d packs token) _) _ = _ :=
    save_run hsession rfl hne rfl (up, some d) ho
  rw [hloaded] at hs
  by_cases hf : (loadedOf sessionID s).1.fencingToken > token
  · have hp := hr.trans (run_bind_error (run_withErr_error (hs.trans (if_pos hf))))
    exact .inl ⟨hf, _, _, run_bind_error (run_withErr_error ((run_bind_ok hl).trans hp))⟩
  have hp := hr.trans (run_bind_ok (run_withErr_ok (hs.trans (if_neg hf))))
  obtain ⟨s', hdelete, he⟩ := lazyDeletePacks_run fresh lost (removedPackKeys (loadedOf sessionID s).1.packs packs)
    (up.write (manifestKey sessionID) (.json (syncedManifest sessionID d packs token)) token, some d)
  exact .inr ⟨Int.not_lt.1 hf, up, packs, s', ⟨hmirrors, hloose, hlisted, he⟩,
    (run_bind_ok (run_withErr_ok ((run_bind_ok hl).trans hp))).trans hdelete⟩

end Jamsesh.Objectstore
