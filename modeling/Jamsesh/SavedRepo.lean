import Jamsesh.RefNames
/-!
# SavedRepo — the store after syncs, and what a hydration writes

Repositories as git has them, the stores that successful syncs of them lead to, and the files that a hydration of such a store
writes: those of the objects and refs of the repository that was synced last (`Synced.saved`, `Saved.written`).
-/
namespace Jamsesh.Objectstore

open FileTree GoString List Option
open Prog (run)

/-! ## Repositories -/

/-- **What is git's**: what `packed-refs` says of a ref, which object a loose object's bytes or a pack with its index has, the
content of a pack's files by its name, and what `git init --bare` makes. -/
structure GitFiles where
  packed : GoString → GoString → Option GoString
  decodes : GoString → GoString → Prop
  packHas : GoString → GoString → GoString → Prop
  packData : GoString → GoString
  idxData : GoString → GoString
  fresh : Repo
  packed_nil : ∀ name, packed [] name = none
  packed_valid : ∀ text name v, Valid text → packed text name = some v → Valid name ∧ Valid v
  fresh_file : ∀ p, fresh.isFile p → p ≠ [] ∧ ¬ objectsDir <+: p ∧ ¬ refsDir <+: p ∧ p ≠ packedRefsPath
  fresh_objects : ∀ p, fresh.isDir p → objectsDir <+: p → p.length ≤ 2
  fresh_packed : fresh.isDir packedRefsPath = false ∧ fresh.isDir (tmpPath packedRefsPath) = false

variable (git : GitFiles)

/-- **The value of a ref**: that of its file, or else that in `packed-refs`. -/
def GitFiles.ref? (d : Repo) (name : GoString) : Option GoString :=
  ((d.file? (refPath name)).map trimSpace).or (git.packed (packedText d) name)

def GitFiles.Readable (d : Repo) (id : GoString) : Prop :=
  (∃ b, d.file? (loosePath id) = some b ∧ git.decodes b id) ∨
    ∃ sha pack idx, d.file? (packDir ++ [packFile sha]) = some pack ∧ d.file? (packDir ++ [idxFile sha]) = some idx ∧
      git.packHas pack idx id

/-- **A bare repository**: its loose objects, complete packs and refs. -/
structure IsRepo (d : Repo) : Prop where
  tree : ∀ p, d.isFile p → d.isDir p = false
  proper : ∀ p, d.isFile p → ∀ c ∈ p, Proper c
  listable : Listable d
  refs : d.isFile refsDir = false
  loose : ∀ name obj b, isFanout (name, true) = true → d.file? (objectsDir ++ [name, obj]) = some b →
    ∃ id, IsId id ∧ name = id.take 2 ∧ obj = id.drop 2 ∧ git.decodes b id
  pack : ∀ sha b, d.file? (packDir ++ [packFile sha]) = some b →
    Valid sha ∧ b = git.packData sha ∧ d.isFile (packDir ++ [idxFile sha])
  idx : ∀ sha b, d.file? (packDir ++ [idxFile sha]) = some b →
    Valid sha ∧ b = git.idxData sha ∧ d.isFile (packDir ++ [packFile sha])

/-! ## The store after syncs -/

def objectsPrefix (sessionID : GoString) : GoString := ofString "sessions/" ++ sessionID ++ ofString "/objects/"

theorem looseKey_objectsPrefix (sessionID name obj : GoString) :
    looseKey sessionID name obj = objectsPrefix sessionID ++ (name ++ ofString "/" ++ obj) := by
  simp only [looseKey, objectsPrefix, append_assoc]

theorem objectsPrefix_eq (sessionID : GoString) : objectsPrefix sessionID = sessionDir sessionID ++ ofString "objects/" := by
  rw [objectsPrefix, sessionDir, append_assoc _ (ofString "/")]
  rfl

/-- **What holds of the store after any syncs of repositories.** -/
structure StoreGood (sessionID : GoString) (s : Store) : Prop where
  manifest : ∀ x, s.at? (manifestKey sessionID) = some x → ∃ m, x.data = .json m ∧ m.version = manifestSchemaVersion ∧
    m.sessionID = sessionID ∧ WellPacked sessionID m ∧ ∀ key ∈ m.keys, (s.at? key).isSome
  pack : ∀ sha x, s.at? (packKey sessionID sha) = some x → x.data = .bytes (git.packData sha)
  idx : ∀ sha x, s.at? (idxKey sessionID sha) = some x → x.data = .bytes (git.idxData sha)
  loose : ∀ key x, objectsPrefix sessionID <+: key → s.at? key = some x →
    ∃ id b, IsId id ∧ key = looseKey sessionID (id.take 2) (id.drop 2) ∧ x.data = .bytes b ∧ git.decodes b id

/-- **The store holds what a sync of the repository saved.** -/
structure Saved (sessionID : GoString) (d : Repo) (s : Store) (packs : List PackEntry) : Prop where
  good : StoreGood git sessionID s
  manifest : ∃ etag token, s.at? (manifestKey sessionID) = some ⟨.json (syncedManifest sessionID d packs token), etag, token⟩
  packs : ∀ sha, d.isFile (packDir ++ [packFile sha]) → packEntry sessionID sha ∈ packs
  loose : ∀ id, IsId id → d.isFile (loosePath id) → (s.at? (looseKey sessionID (id.take 2) (id.drop 2))).isSome

variable {git} {sessionID : GoString} {d : Repo}

variable {key sha id : GoString} {order : MapOrder Download} {a : FilePath × GoString}

theorem FileKey.pack_file {b : GoString} (h : FileKey sessionID d key b) (hk : key = packKey sessionID sha) :
    d.file? (packDir ++ [packFile sha]) = some b := by
  cases h with
  | @loose _ _ _ =>
    exact absurd hk.symm (ne_looseKey_of_mem_keys (mem_keys_packEntry.2 (.inl rfl)))
  | @pack _ _ hf => exact packKey_injective sessionID hk ▸ hf
  | idx => exact absurd hk.symm (packKey_ne_idxKey _ _ _)

theorem FileKey.idx_file {b : GoString} (h : FileKey sessionID d key b) (hk : key = idxKey sessionID sha) :
    d.file? (packDir ++ [idxFile sha]) = some b := by
  cases h with
  | @loose _ _ _ =>
    exact absurd hk.symm (ne_looseKey_of_mem_keys (mem_keys_packEntry.2 (.inr rfl)))
  | pack => exact absurd hk (packKey_ne_idxKey _ _ _)
  | @idx _ _ hf => exact idxKey_injective sessionID hk ▸ hf

theorem not_objectsPrefix_append {rest : GoString} (h : rest.head? ≠ some (.rune 'o')) :
    ¬ objectsPrefix sessionID <+: sessionDir sessionID ++ rest := by
  rintro ⟨_, hr⟩
  rw [objectsPrefix_eq, append_assoc] at hr
  exact h (congrArg List.head? (append_cancel_left hr)).symm

theorem not_objectsPrefix_of_mem_keys (h : key ∈ (packEntry sessionID sha).keys) : ¬ objectsPrefix sessionID <+: key := by
  rcases mem_keys_packEntry.1 h with rfl | rfl
  · rw [packKey_eq]
    exact not_objectsPrefix_append (by simp [ofString])
  · rw [idxKey_eq]
    exact not_objectsPrefix_append (by simp [ofString])

theorem not_objectsPrefix_manifestKey : ¬ objectsPrefix sessionID <+: manifestKey sessionID := by
  rw [manifestKey_eq]
  exact not_objectsPrefix_append (by simp [ofString])

section
variable {s : Store}

theorem StoreGood.manifestOk (h : StoreGood git sessionID s) : ManifestOk sessionID s := by
  intro x hx
  obtain ⟨m, hm, hv, hid, -⟩ := h.manifest x hx
  exact ⟨m, hm, hv, hid⟩

theorem StoreGood.loaded (hsession : Valid sessionID) (h : StoreGood git sessionID s) :
    WellPacked sessionID (loadedOf sessionID s).1 ∧ ∀ key ∈ (loadedOf sessionID s).1.keys, (s.at? key).isSome := by
  unfold loadedOf
  cases hx : s.at? (manifestKey sessionID) with
  | none => exact ⟨forall_mem_nil _, forall_mem_nil _⟩
  | some x =>
    obtain ⟨m, hm, -, -, hw, hk⟩ := h.manifest x hx
    have hp := hw.coerced_packs hsession
    simp only [hm, Content.unmarshal, getD_some, WellPacked, Manifest.keys, hp]
    exact ⟨hw, hk⟩

theorem IsRepo.complete (hd : IsRepo git d) (h : d.isFile (packDir ++ [packFile sha]) ∨ d.isFile (packDir ++ [idxFile sha])) :
    Valid sha ∧ d.isFile (packDir ++ [packFile sha]) ∧ d.isFile (packDir ++ [idxFile sha]) := by
  rcases h with hf | hf
  · obtain ⟨b, hb⟩ := isFile_iff.1 hf
    exact ⟨(hd.pack sha b hb).1, hf, (hd.pack sha b hb).2.2⟩
  · obtain ⟨b, hb⟩ := isFile_iff.1 hf
    exact ⟨(hd.idx sha b hb).1, (hd.idx sha b hb).2.2, hf⟩

theorem Synced.saved (hsession : Valid sessionID) (hd : IsRepo git d) (hs : StoreGood git sessionID s) {token : Int} {up s' : Store}
    {packs : List PackEntry} (h : Synced sessionID d token s up packs s') : Saved git sessionID d s' packs := by
  obtain ⟨hold, holdKeys⟩ := hs.loaded hsession
  have hnew : WellPacked sessionID (syncedManifest sessionID d packs token) := by
    rcases h.listed with ⟨-, hsame⟩ | ⟨hm, -⟩
    · intro p hp
      exact hold p (hsame ▸ hp)
    intro p hp
    obtain ⟨sha, rfl, hf⟩ := (hm p).1 hp
    exact ⟨sha, (hd.complete hf).1, rfl⟩
  -- every key of the new list is stored, by this sync or by an earlier one
  have hup : ∀ key ∈ (syncedManifest sessionID d packs token).keys, (up.at? key).isSome := by
    intro key hk
    obtain ⟨sha, hl, hk⟩ := hnew.mem_keys hk
    by_cases ho : sha ∈ (loadedOf sessionID s).1.packs.map (·.sha)
    · obtain ⟨p, hp, rfl⟩ := List.mem_map.1 ho
      obtain ⟨_, -, rfl⟩ := hold p hp
      exact h.mirrors.isSome (holdKeys key (mem_flatMap.2 ⟨_, hp, hk⟩))
    rcases h.listed with ⟨-, hsame⟩ | ⟨hm, hstored⟩
    · exact absurd (List.mem_map.2 ⟨_, hsame ▸ hl, rfl⟩) ho
    obtain ⟨sha', heq, hf⟩ := (hm _).1 hl
    have hsha : sha = sha' := congrArg PackEntry.sha heq
    subst hsha
    rcases mem_keys_packEntry.1 hk with rfl | rfl
    · exact (hstored sha ho).1 (hd.complete hf).2.1
    · exact (hstored sha ho).2 (hd.complete hf).2.2
  have hremoved : ∀ key, key ∈ removedPackKeys (loadedOf sessionID s).1.packs packs →
      key ∉ (syncedManifest sessionID d packs token).keys ∧ ∃ sha, key ∈ (packEntry sessionID sha).keys :=
    fun _ hk => removed_unlisted hold hnew hk
  have hafter : ∀ key, key ≠ manifestKey sessionID → key ∉ removedPackKeys (loadedOf sessionID s).1.packs packs →
      s'.at? key = up.at? key := by
    intro key hne hk
    rw [h.erased.1 key hk, Store.write_at?_ne _ hne]
  have hfrom : ∀ key x, key ≠ manifestKey sessionID → s'.at? key = some x → up.at? key = some x := by
    intro key x hne hx
    rw [← up.write_at?_ne hne]
    exact h.erased.2 key x hx
  have hmanifest : s'.at? (manifestKey sessionID) = some ⟨.json (syncedManifest sessionID d packs token), up.next, token⟩ := by
    rw [h.erased.1, Store.write_at?_self]
    intro hk
    obtain ⟨-, _, hsha⟩ := hremoved _ hk
    exact ne_manifestKey_of_mem_keys hsha rfl
  refine ⟨⟨fun x hx => ?_, fun sha x hx => ?_, fun sha x hx => ?_, fun key x hk hx => ?_⟩, ⟨up.next, token, hmanifest⟩,
    fun sha hf => ?_, fun _ hid hf => ?_⟩
  · rw [hmanifest] at hx
    cases hx
    refine ⟨_, rfl, rfl, rfl, hnew, fun key hk => ?_⟩
    obtain ⟨_, -, hsha⟩ := hnew.mem_keys hk
    rw [hafter key (ne_manifestKey_of_mem_keys hsha) fun hg => (hremoved key hg).1 hk]
    exact hup key hk
  · rcases h.mirrors.added _ x (hfrom _ x (packKey_ne_manifestKey _ _) hx) with hx | ⟨b, hb, hdata⟩
    · exact hs.pack sha x hx
    · rw [hdata, (hd.pack sha b (hb.pack_file rfl)).2.1]
  · rcases h.mirrors.added _ x (hfrom _ x (idxKey_ne_manifestKey _ _) hx) with hx | ⟨b, hb, hdata⟩
    · exact hs.idx sha x hx
    · rw [hdata, (hd.idx sha b (hb.idx_file rfl)).2.1]
  · have hne : key ≠ manifestKey sessionID := by
      rintro rfl
      exact not_objectsPrefix_manifestKey hk
    rcases h.mirrors.added key x (hfrom key x hne hx) with hx | ⟨b, hb, hdata⟩
    · exact hs.loose key x hk hx
    cases hb with
    | loose hfanout hf =>
      obtain ⟨id, hid, rfl, rfl, hdecodes⟩ := hd.loose _ _ b hfanout hf
      exact ⟨id, b, hid, rfl, hdata, hdecodes⟩
    | pack => exact absurd hk (not_objectsPrefix_of_mem_keys (mem_keys_packEntry.2 (.inl rfl)))
    | idx => exact absurd hk (not_objectsPrefix_of_mem_keys (mem_keys_packEntry.2 (.inr rfl)))
  · rcases h.listed with ⟨hn, -⟩ | ⟨hm, -⟩
    · exact absurd hf (Bool.eq_false_iff.1 (not_isFile_of_not_isDir hn))
    · exact (hm _).2 ⟨sha, rfl, .inl hf⟩
  · rw [hafter]
    · exact h.loose _ hid.isFanout _ hf
    · exact looseKey_ne_manifestKey _ _ _
    · intro hg
      obtain ⟨-, _, hsha⟩ := hremoved _ hg
      exact ne_looseKey_of_mem_keys hsha rfl

end

/-- **The stores a session can have**: after any successful syncs of repositories, their deletions done or lost. -/
inductive Reached (git : GitFiles) (sessionID : GoString) : Store → Prop where
  | empty {s : Store} (none : ∀ key, sessionDir sessionID <+: key → s.at? key = none) : Reached git sessionID s
  | synced {s : Store} {d : Repo} {lost : GoString → Bool} {order : MapOrder LocalPack} {token : Int} {w' : Pod}
      (before : Reached git sessionID s) (repo : IsRepo git d)
      (ran : run (podAnswer git.fresh lost) (syncAndDelete order sessionID token : Prog Op.Res (Except Err Unit)) (s, some d) =
        (.ok (), w')) : Reached git sessionID w'.1

theorem Reached.good (hsession : Valid sessionID) (hne : sessionID ≠ []) {s : Store} (h : Reached git sessionID s) :
    StoreGood git sessionID s := by
  induction h with
  | @empty s hn =>
    have hk : ∀ {key x}, sessionDir sessionID <+: key → s.at? key = some x → False := by
      intro key x hk hx
      rw [hn key hk] at hx
      cases hx
    refine ⟨fun x hx => (hk ?_ hx).elim, fun sha x hx => (hk ?_ hx).elim, fun sha x hx => (hk ?_ hx).elim,
      fun _ x hp hx => (hk (List.IsPrefix.trans ?_ hp) hx).elim⟩
    · exact manifestKey_eq sessionID ▸ prefix_append _ _
    · exact packKey_eq sessionID sha ▸ prefix_append _ _
    · exact idxKey_eq sessionID sha ▸ prefix_append _ _
    · exact objectsPrefix_eq sessionID ▸ prefix_append _ _
  | @synced s d lost order token _ _ hd hr ih =>
    rcases sync_run git.fresh lost hsession hne hd.listable ih.manifestOk order token with
      ⟨-, e, w, hf⟩ | ⟨-, _, _, _, hs, hdone⟩
    · rw [hf] at hr
      cases hr
    · rw [hdone] at hr
      cases hr
      exact (hs.saved hsession hd ih).good

/-! ## The files a hydration writes -/

theorem IsId.proper (h : IsId id) : Proper (id.take 2) ∧ Proper (id.drop 2) := by
  obtain ⟨hl, hd⟩ := h
  have hdot : GoChar.rune '.' ∉ hexDigits := by decide
  have hs : GoChar.rune '/' ∉ hexDigits := by decide
  have hp : ∀ part : GoString, part ≠ [] → part ⊆ id → Proper part := by
    intro part hne hsub
    have hm : ∀ c ∈ part, c ∈ hexDigits := fun c hc => hd c (hsub hc)
    refine ⟨hne, ?_, ?_, fun hc => hs (hm _ hc)⟩
    · rintro rfl
      exact hdot (hm _ (by decide))
    · rintro rfl
      exact hdot (hm _ (by decide))
  exact ⟨hp _ (ne_nil_of_length_pos (by simp [hl])) (take_subset _ _),
    hp _ (ne_nil_of_length_pos (by simp [hl])) (drop_subset _ _)⟩

theorem refPath_of_proper {c : GoString} (h : Proper c) : refPath c = [c] := splitOn_eq_singleton h.2.2.2

theorem IsId.joinPath_rel (h : IsId id) : joinPath objectsDir (id.take 2 ++ ofString "/" ++ id.drop 2) = loosePath id := by
  have hp : refPath (id.take 2 ++ ofString "/" ++ id.drop 2) = [id.take 2, id.drop 2] := by
    rw [refPath_append, refPath_of_proper h.proper.1, refPath_of_proper h.proper.2]
    rfl
  rw [joinPath_of_proper, hp, loosePath]
  rw [hp]
  exact fun c hc => by
    rcases mem_cons.1 hc with rfl | hc
    · exact h.proper.1
    · exact mem_singleton.1 hc ▸ h.proper.2

theorem IsId.isLooseKey (h : IsId id) : isLooseKey (id.take 2 ++ ofString "/" ++ id.drop 2) = true := by
  obtain ⟨hl, hd⟩ := h
  match id, hl with
  | a :: b :: c :: rest, _ =>
    have hw : ∀ c ∈ hexDigits, width c = 1 := by decide
    have ha := hw a (hd a (by simp))
    have hb := hw b (hd b (by simp))
    have hc := hw c (hd c (by simp))
    have hr : (a :: b :: c :: rest).take 2 ++ ofString "/" ++ (a :: b :: c :: rest).drop 2 = a :: b :: .rune '/' :: c :: rest := rfl
    have hbytes : bytes (a :: b :: .rune '/' :: c :: rest) =
        (a, 0) :: (b, 0) :: (.rune '/', 0) :: (c, 0) :: bytes rest := by
      simp [bytes, ha, hb, hc, show width (.rune '/') = 1 by decide]
    have hp : ∀ sep, hasPrefix (a :: b :: .rune '/' :: c :: rest) (ofString "pac" ++ sep) = false := by
      intro _
      rw [Bool.eq_false_iff, Ne, hasPrefix_iff]
      rintro ⟨t, ht⟩
      simp [ofString] at ht
    rw [hr, Objectstore.isLooseKey, show ofString "pack/" = ofString "pac" ++ ofString "k/" by decide,
      show ofString "pack\\" = ofString "pac" ++ ofString "k\\" by decide, hp, hp, byteIs, len, hbytes]
    simp

/-- **A file of a hydration**: of a pack, a loose object, a ref, or `packed-refs`. -/
inductive Written (git : GitFiles) (d : Repo) : FilePath × GoString → Prop where
  | pack (sha : GoString) : Written git d (packDir ++ [packFile sha], git.packData sha)
  | idx (sha : GoString) : Written git d (packDir ++ [idxFile sha], git.idxData sha)
  | loose {id b : GoString} (isId : IsId id) (decodes : git.decodes b id) : Written git d (loosePath id, b)
  | ref {name data : GoString} (refs : refsDir <+: refPath name) (file : d.file? (refPath name) = some data) :
      Written git d ((refPath name).map coerce, coerce (trimSpace data) ++ ofString "\n")
  | packed (some : coerce (packedText d) ≠ []) : Written git d (packedRefsPath, coerce (packedText d))

variable {marshal : Manifest → GoString} {orders : HydrateOrders} {s : Store} {packs : List PackEntry} {m : Manifest}

theorem stored_eq {x : Object} {b : GoString} (hx : s.at? key = some x) (hd : x.data = .bytes b) : stored marshal s key = b := by
  rw [stored, hx, map_some, hd]
  rfl

theorem stored_pack (hs : StoreGood git sessionID s) (hk : (s.at? (packKey sessionID sha)).isSome) :
    stored marshal s (packKey sessionID sha) = git.packData sha := by
  obtain ⟨x, hx⟩ := isSome_iff_exists.1 hk
  exact stored_eq hx (hs.pack sha x hx)

theorem stored_idx (hs : StoreGood git sessionID s) (hk : (s.at? (idxKey sessionID sha)).isSome) :
    stored marshal s (idxKey sessionID sha) = git.idxData sha := by
  obtain ⟨x, hx⟩ := isSome_iff_exists.1 hk
  exact stored_eq hx (hs.idx sha x hx)

theorem mem_packWrites (hs : StoreGood git sessionID s) (hw : ∀ p ∈ packs, ∃ sha, p = packEntry sessionID sha)
    (hstored : ∀ p ∈ packs, (s.at? p.packKey).isSome ∧ (s.at? p.idxKey).isSome) :
    a ∈ packWrites marshal order s packs ↔ ∃ sha, packEntry sessionID sha ∈ packs ∧
      (a = (packDir ++ [packFile sha], git.packData sha) ∨ a = (packDir ++ [idxFile sha], git.idxData sha)) := by
  simp only [packWrites, List.mem_map, (order.perm _).mem_iff, mem_flatMap, packDownloads, mem_cons, not_mem_nil, or_false]
  constructor
  · rintro ⟨_, ⟨p, hp, hdl⟩, rfl⟩
    obtain ⟨sha, rfl⟩ := hw p hp
    refine ⟨sha, hp, ?_⟩
    rcases hdl with rfl | rfl
    · exact .inl (Prod.ext rfl (stored_pack hs (hstored _ hp).1))
    · exact .inr (Prod.ext rfl (stored_idx hs (hstored _ hp).2))
  · rintro ⟨_, hp, rfl | rfl⟩
    · exact ⟨_, ⟨_, hp, .inl rfl⟩, Prod.ext rfl (stored_pack hs (hstored _ hp).1)⟩
    · exact ⟨_, ⟨_, hp, .inr rfl⟩, Prod.ext rfl (stored_idx hs (hstored _ hp).2)⟩

theorem looseDownload_looseKey (hid : IsId id) :
    (looseDownload (objectsPrefix sessionID) (looseKey sessionID (id.take 2) (id.drop 2))).path = loosePath id := by
  rw [looseDownload, looseKey_objectsPrefix, trimPrefix_append]
  exact hid.joinPath_rel

theorem of_mem_looseWrites (hs : StoreGood git sessionID s)
    (ha : a ∈ looseWrites marshal order (objectsPrefix sessionID) s) : ∃ id b, IsId id ∧ git.decodes b id ∧ a = (loosePath id, b) := by
  obtain ⟨_, hdl, rfl⟩ := List.mem_map.1 ha
  obtain ⟨key, hk, rfl⟩ := List.mem_map.1 ((order.perm _).mem_iff.1 hdl)
  obtain ⟨hm, hp⟩ := mem_filter.1 (mem_filter.1 hk).1
  obtain ⟨rest, hr⟩ := hasPrefix_iff.1 hp
  obtain ⟨x, hx⟩ := isSome_iff_exists.1 (AList.lookup_isSome.2 hm)
  obtain ⟨id, b, hid, rfl, hdata, hd⟩ := hs.loose key x ⟨rest, hr.symm⟩ hx
  exact ⟨id, b, hid, hd, Prod.ext (looseDownload_looseKey hid) (stored_eq hx hdata)⟩

theorem mem_looseWrites (hid : IsId id) (hk : (s.at? (looseKey sessionID (id.take 2) (id.drop 2))).isSome) :
    ∃ a ∈ looseWrites marshal order (objectsPrefix sessionID) s, a.1 = loosePath id := by
  refine ⟨_, mem_map_of_mem ((order.perm _).mem_iff.2 (mem_map_of_mem (mem_filter.2 ⟨mem_filter.2
    ⟨AList.lookup_isSome.1 hk, hasPrefix_iff.2 ⟨_, looseKey_objectsPrefix _ _ _⟩⟩, ?_⟩))), looseDownload_looseKey hid⟩
  rw [looseKey_objectsPrefix, trimPrefix_append]
  exact hid.isLooseKey

theorem mem_refWrites {order : MapOrder (Σ _ : GoString, GoString)} {refs : Refs} :
    a ∈ refWrites order refs ↔ ∃ r ∈ refs.entries, a = (joinPath [] r.1, r.2 ++ ofString "\n") := by
  simp only [refWrites, List.mem_map, (order.perm _).mem_iff, eq_comm]

theorem IsRepo.ref_path (hd : IsRepo git d) {name data : GoString} (hr : refsDir <+: refPath name)
    (hf : d.file? (refPath name) = some data) : ∃ c q, refPath name = ofString "refs" :: c :: q := by
  obtain ⟨q, hq⟩ := hr
  cases q with
  | nil =>
    rw [← hq, append_nil] at hf
    exact absurd (isFile_iff.2 ⟨data, hf⟩) (Bool.eq_false_iff.1 hd.refs)
  | cons c q => exact ⟨c, q, hq.symm⟩

theorem IsRepo.named (hd : IsRepo git d) {r : Σ _ : GoString, GoString} (hr : r ∈ (coerceRefs (looseRefs d)).entries) :
    IsRefName r.1 ∧ ∃ name data, (refsDir <+: refPath name ∧ d.file? (refPath name) = some data) ∧
      r = ⟨coerce name, coerce (trimSpace data)⟩ := by
  obtain ⟨⟨name, v⟩, hm, rfl⟩ := mem_coerceRefs hr
  obtain ⟨hrefs, data, hdata, rfl⟩ := (lookup_looseRefs hd.proper).1 (AList.mem_lookup_iff.2 hm)
  refine ⟨⟨isRef_iff.2 ?_, fun c hc => ?_⟩, name, data, ⟨hrefs, hdata⟩, rfl⟩
  · obtain ⟨c, q, hq⟩ := hd.ref_path hrefs hdata
    rw [refPath_coerce, hq]
    exact ⟨⟨coerce c :: q.map coerce, rfl⟩, by simp [refsDir]⟩
  · rw [refPath_coerce] at hc
    obtain ⟨c₀, hc₀, rfl⟩ := List.mem_map.1 hc
    exact (hd.proper _ (isFile_iff.2 ⟨data, hdata⟩) c₀ hc₀).coerce

theorem Written.shape (hd : IsRepo git d) (h : Written git d a) :
    (∃ x y, a.1 = [ofString "objects", x, y]) ∨ (∃ c q, a.1 = ofString "refs" :: c :: q) ∨ a.1 = packedRefsPath := by
  cases h with
  | pack | idx | loose => exact .inl ⟨_, _, rfl⟩
  | ref hr hf =>
    obtain ⟨c, q, hq⟩ := hd.ref_path hr hf
    refine .inr (.inl ⟨coerce c, q.map coerce, ?_⟩)
    rw [hq]
    rfl
  | packed => exact .inr (.inr rfl)

theorem Written.sibling (hd : IsRepo git d) (h : Written git d a) : Sibling (tmpPath a.1) a.1 := by
  refine tmpPath_sibling ?_
  rcases h.shape hd with ⟨x, y, hp⟩ | ⟨c, q, hp⟩ | hp <;> rw [hp] <;> exact cons_ne_nil _ _

theorem Saved.loaded (hsession : Valid sessionID) (h : Saved git sessionID d s packs) : (loadedOf sessionID s).2 ≠ none ∧
    (loadedOf sessionID s).1.packs = packs ∧ (loadedOf sessionID s).1.refs = coerceRefs (looseRefs d) ∧
    (loadedOf sessionID s).1.packedRefs = coerce (packedText d) := by
  obtain ⟨_, _, hmanifest⟩ := h.manifest
  obtain ⟨m, hm, -, -, hw, -⟩ := h.good.manifest _ hmanifest
  cases hm
  rw [loadedOf, hmanifest]
  exact ⟨some_ne_none _, hw.coerced_packs hsession, rfl, rfl⟩

theorem Saved.stored (hsession : Valid sessionID) (h : Saved git sessionID d s packs) :
    (∀ p ∈ packs, ∃ sha, p = packEntry sessionID sha) ∧ ∀ p ∈ packs, (s.at? p.packKey).isSome ∧ (s.at? p.idxKey).isSome := by
  obtain ⟨hw, hk⟩ := h.good.loaded hsession
  obtain ⟨-, hpacks, -⟩ := h.loaded hsession
  rw [WellPacked, hpacks] at hw
  rw [Manifest.keys, hpacks] at hk
  refine ⟨fun p hp => ?_, fun p hp => ⟨hk _ ?_, hk _ ?_⟩⟩
  · obtain ⟨sha, -, hp⟩ := hw p hp
    exact ⟨sha, hp⟩
  · exact mem_flatMap.2 ⟨p, hp, mem_cons_self⟩
  · exact mem_flatMap.2 ⟨p, hp, mem_cons_of_mem _ mem_cons_self⟩

def objectWrites (marshal : Manifest → GoString) (order : MapOrder Download) (sessionID : GoString) (s : Store)
    (packs : List PackEntry) : List (FilePath × GoString) :=
  packWrites marshal order s packs ++ looseWrites marshal order (objectsPrefix sessionID) s

/-- **The files of a hydration of what was saved**: the objects, the refs, `packed-refs`. -/
def savedWrites (marshal : Manifest → GoString) (orders : HydrateOrders) (sessionID : GoString) (d : Repo) (s : Store)
    (packs : List PackEntry) : List (FilePath × GoString) :=
  objectWrites marshal orders.downloads sessionID s packs ++
    (refWrites orders.refs (coerceRefs (looseRefs d)) ++ packedWrites (coerce (packedText d)))

theorem Saved.hydrate_run (hsession : Valid sessionID) (h : Saved git sessionID d s packs) {lost : GoString → Bool} (w' : Pod) :
    run (podAnswer git.fresh lost) (hydrate marshal orders sessionID) (s, none) = (.ok (), w') ↔
      ∃ d', (∃ t, makePackDir packs git.fresh = .ok t ∧ Places (savedWrites marshal orders sessionID d s packs) t d') ∧
        w' = (s, some d') := by
  obtain ⟨ht, hp, hr, hpacked⟩ := h.loaded hsession
  have hw : hydrateWrites marshal orders sessionID s (loadedOf sessionID s).1 =
      savedWrites marshal orders sessionID d s packs := by
    rw [hydrateWrites, hp, hr, hpacked]
    exact (append_assoc _ _ _).symm
  have hrun := Objectstore.hydrate_run git.fresh lost marshal orders hsession h.good.manifestOk ht
    (hp ▸ (h.stored hsession).2) none w'
  rwa [hp, hw] at hrun

theorem StoreGood.of_mem_objectWrites (hs : StoreGood git sessionID s) (hw : ∀ p ∈ packs, ∃ sha, p = packEntry sessionID sha)
    (hstored : ∀ p ∈ packs, (s.at? p.packKey).isSome ∧ (s.at? p.idxKey).isSome)
    (ha : a ∈ objectWrites marshal order sessionID s packs) :
    (∃ sha, a = (packDir ++ [packFile sha], git.packData sha)) ∨ (∃ sha, a = (packDir ++ [idxFile sha], git.idxData sha)) ∨
      ∃ id b, IsId id ∧ git.decodes b id ∧ a = (loosePath id, b) := by
  rcases mem_append.1 ha with ha | ha
  · obtain ⟨sha, -, ha | ha⟩ := (mem_packWrites hs hw hstored).1 ha
    · exact .inl ⟨sha, ha⟩
    · exact .inr (.inl ⟨sha, ha⟩)
  · exact .inr (.inr (of_mem_looseWrites hs ha))

theorem StoreGood.object_path (hs : StoreGood git sessionID s) (hw : ∀ p ∈ packs, ∃ sha, p = packEntry sessionID sha)
    (hstored : ∀ p ∈ packs, (s.at? p.packKey).isSome ∧ (s.at? p.idxKey).isSome)
    (ha : a ∈ objectWrites marshal order sessionID s packs) : ∃ x y, a.1 = [ofString "objects", x, y] := by
  rcases hs.of_mem_objectWrites hw hstored ha with ⟨_, rfl⟩ | ⟨_, rfl⟩ | ⟨-, b, -, -, rfl⟩ <;> exact ⟨_, _, rfl⟩

theorem Saved.written (hsession : Valid sessionID) (hd : IsRepo git d) (h : Saved git sessionID d s packs)
    (ha : a ∈ savedWrites marshal orders sessionID d s packs) : Written git d a := by
  simp only [savedWrites, mem_append] at ha
  rcases ha with ha | ha | ha
  · obtain ⟨hw, hs⟩ := h.stored hsession
    rcases h.good.of_mem_objectWrites hw hs ha with ⟨sha, rfl⟩ | ⟨sha, rfl⟩ | ⟨_, b, hid, hdecodes, rfl⟩
    · exact .pack sha
    · exact .idx sha
    · exact .loose hid hdecodes
  · obtain ⟨r, hr, rfl⟩ := mem_refWrites.1 ha
    obtain ⟨hn, _, _, ⟨hrefs, hdata⟩, rfl⟩ := hd.named hr
    rw [hn.joinPath, refPath_coerce]
    exact .ref hrefs hdata
  · unfold packedWrites at ha
    split at ha
    · cases ha
    · rename_i hne
      rw [mem_singleton.1 ha]
      exact .packed hne

end Jamsesh.Objectstore
