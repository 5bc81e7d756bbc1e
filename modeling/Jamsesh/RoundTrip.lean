import Jamsesh.RefFiles
/-!
# RoundTrip — a repository synced and hydrated

Every object of a synced repository comes back in a hydration.  The refs come back exactly when JSON keeps their names and
values, no loose ref is written over as the sibling of another, and no directory is in the way of one (`roundTrips_iff`).
-/
namespace Jamsesh.Objectstore

open FileTree GoString List Option
open Prog (run)

variable {git : GitFiles} {sessionID : GoString} {d d' t : Repo} {s : Store} {packs : List PackEntry}
  {marshal : Manifest → GoString} {orders : HydrateOrders} {a : FilePath × GoString}

variable {p q : FilePath} {name data id : GoString}

/-! ## Where the files are -/

theorem head?_eq_of_pre (h : p <+: q) (hne : p ≠ []) : p.head? = q.head? := by
  obtain ⟨_, rfl⟩ := h
  exact (List.head?_append_of_ne_nil p hne).symm

inductive Place : FilePath → Prop where
  | object (x y : GoString) : Place [ofString "objects", x, y]
  | ref (c : GoString) (q : FilePath) : Place (ofString "refs" :: c :: q)
  | packed : Place packedRefsPath

theorem Written.place (hd : IsRepo git d) (h : Written git d a) : Place a.1 := by
  rcases h.shape hd with ⟨x, y, hp⟩ | ⟨c, q, hp⟩ | hp <;> rw [hp]
  · exact .object x y
  · exact .ref c q
  · exact .packed

theorem Place.tmp_head? (h : Place p) :
    (tmpPath p).head? = if p = packedRefsPath then some (ofString "packed-refs.tmp") else p.head? := by
  cases h with
  | object | packed => rfl
  | ref c q =>
    rfl

theorem Place.above (h : Place p) (hq : q <+: p.dropLast) (hne : q ≠ []) :
    (q.length ≤ 2 ∧ q.head? = some (ofString "objects")) ∨
      (q.head? = some (ofString "refs") ∧ p.head? = some (ofString "refs")) := by
  have hh := head?_eq_of_pre hq hne
  cases h with
  | object => exact .inl ⟨hq.length_le, hh⟩
  | ref => exact .inr ⟨hh, rfl⟩
  | packed => exact absurd (prefix_nil.1 hq) hne

/-! ## What has to hold -/

def LooseRef (d : Repo) (name data : GoString) : Prop := refsDir <+: refPath name ∧ d.file? (refPath name) = some data

def TextKept (d : Repo) : Prop := ∀ name data, LooseRef d name data → Valid name ∧ Valid (trimSpace data)

/-- No directory is in the way of a loose ref or of its sibling, neither one of the new repository nor one of another ref. -/
def RefRoom (git : GitFiles) (d : Repo) : Prop := ∀ name data, LooseRef d name data →
  git.fresh.isDir (refPath name) = false ∧ git.fresh.isDir (refPath (name ++ ofString ".tmp")) = false ∧
    ∀ name' data', LooseRef d name' data' → ¬ refPath (name ++ ofString ".tmp") <+: (refPath name').dropLast

/-- **The refs of a repository that survive**: JSON keeps their text, there is room for them, and a loose ref with the name of
another's sibling is in `packed-refs` too. -/
structure Survives (git : GitFiles) (d : Repo) : Prop where
  text : TextKept d
  packed : ∀ name, hasPrefix name (ofString "refs/") = true → d.file? (refPath name) = none →
    git.packed (coerce (packedText d)) name = git.packed (packedText d) name
  sibling : ∀ name data data', LooseRef d name data → LooseRef d (name ++ ofString ".tmp") data' →
    git.packed (coerce (packedText d)) (name ++ ofString ".tmp") = some (trimSpace data')
  room : RefRoom git d

/-! ## The files of a hydration, by their places -/

theorem Written.looseRef (ht : TextKept d) (h : Written git d a) (hr : a.1.head? = some (ofString "refs")) :
    ∃ name data, LooseRef d name data ∧ a.1 = refPath name := by
  cases h with
  | @ref name data hp hf =>
    have hn : coerce name = name := (ht name data ⟨hp, hf⟩).1
    exact ⟨name, data, ⟨hp, hf⟩, by rw [← refPath_coerce, hn]⟩
  | _ => exact absurd (some.inj hr) (by decide)

theorem mem_coercedRefs (hd : IsRepo git d) (ht : TextKept d) {r : Σ _ : GoString, GoString} :
    r ∈ (coerceRefs (looseRefs d)).entries ↔ ∃ data, LooseRef d r.1 data ∧ r.2 = trimSpace data := by
  have hvalid : ∀ r ∈ (looseRefs d).entries, Valid r.1 ∧ Valid r.2 := by
    rintro ⟨name', v⟩ hr
    obtain ⟨hrefs, data', hd', rfl⟩ := (lookup_looseRefs hd.proper).1 (AList.mem_lookup_iff.2 hr)
    exact ht name' data' ⟨hrefs, hd'⟩
  rw [← AList.mem_lookup_iff, lookup_coerceRefs hvalid, mem_def, lookup_looseRefs hd.proper]
  constructor
  · rintro ⟨hrefs, data, hdata, hv⟩
    exact ⟨data, ⟨hrefs, hdata⟩, hv⟩
  · rintro ⟨data, ⟨hrefs, hdata⟩, hv⟩
    exact ⟨hrefs, data, hdata, hv⟩

theorem LooseRef.joinPath (hd : IsRepo git d) (h : LooseRef d name data) : Objectstore.joinPath [] name = refPath name := by
  rw [joinPath_of_proper (hd.proper _ (isFile_iff.2 ⟨data, h.2⟩)), nil_append]

theorem LooseRef.mem_refWrites (hd : IsRepo git d) (ht : TextKept d) (h : LooseRef d name data)
    (order : MapOrder (Σ _ : GoString, GoString)) :
    (refPath name, trimSpace data ++ ofString "\n") ∈ refWrites order (coerceRefs (looseRefs d)) := by
  refine Objectstore.mem_refWrites.2 ⟨⟨name, trimSpace data⟩, (mem_coercedRefs hd ht).2 ⟨data, h, rfl⟩, ?_⟩
  rw [h.joinPath hd]

/-! ## The directory after a hydration -/

/-- The new repository with the directory of the packs, as it is to the files that are written. -/
structure Begun (git : GitFiles) (t : Repo) : Prop where
  file : ∀ q, t.file? q = git.fresh.file? q
  kept : ∀ q, git.fresh.isDir q = true → t.isDir q = true
  dir : ∀ q, t.isDir q = true → git.fresh.isDir q = true ∨ q <+: packDir

theorem makePackDir_begun (git : GitFiles) (packs : List PackEntry) : ∃ t, makePackDir packs git.fresh = .ok t ∧ Begun git t := by
  unfold makePackDir
  split
  · exact ⟨git.fresh, rfl, fun _ => rfl, fun _ => id, fun _ => .inl⟩
  have hr : ∀ q, git.fresh.isFile q → ¬ q <+: packDir := by
    intro q hq hp
    obtain ⟨hn, ho, -⟩ := git.fresh_file q hq
    refine ho (prefix_of_prefix_length_le ⟨[ofString "pack"], rfl⟩ hp ?_)
    exact length_pos_iff.2 hn
  refine ⟨_, mkdirAll_ok hr, fun _ => rfl, fun q hq => ?_, fun q => ?_⟩
  · exact (mkdirAll_isDir q).2 (.inl hq)
  · exact (mkdirAll_isDir q).1

theorem Place.noDir (ht : Begun git t) (h : Place p) (hr : p.head? = some (ofString "refs") →
    git.fresh.isDir p = false ∧ git.fresh.isDir (tmpPath p) = false) : t.isDir p = false ∧ t.isDir (tmpPath p) = false := by
  have hf : ∀ q, git.fresh.isDir q = false → ¬ q <+: packDir → t.isDir q = false := by
    intro q hfresh hpack
    rw [Bool.eq_false_iff]
    intro hd
    rcases ht.dir q hd with hd | hd
    · exact Bool.eq_false_iff.1 hfresh hd
    · exact hpack hd
  cases h with
  | object x y =>
    have ho : ∀ z, t.isDir [ofString "objects", x, z] = false := by
      intro z
      refine hf _ (Bool.eq_false_iff.2 fun hd => ?_) fun hpack => ?_
      · exact absurd (git.fresh_objects _ hd ⟨[x, z], rfl⟩) (by simp)
      · exact absurd hpack.length_le (by simp [packDir])
    exact ⟨ho y, ho (y ++ ofString ".tmp")⟩
  | ref c q =>
    have hpack : ∀ q', ¬ (ofString "refs" :: q') <+: packDir := by
      intro _ hpre
      exact absurd (some.inj (head?_eq_of_pre hpre (cons_ne_nil _ _))) (by decide)
    obtain ⟨hp, htmp⟩ := hr rfl
    refine ⟨hf _ hp (hpack _), hf _ htmp ?_⟩
    exact hpack _
  | packed => exact ⟨hf _ git.fresh_packed.1 (by decide), hf _ git.fresh_packed.2 (by decide)⟩

theorem prefix_of_head? {c : GoString} (h : q.head? = some c) : [c] <+: q := by
  obtain ⟨rest, rfl⟩ := List.head?_eq_some_iff.1 h
  exact ⟨rest, rfl⟩

theorem Place.ne_nil (h : Place p) : p ≠ [] := by
  cases h <;> exact cons_ne_nil _ _

theorem Place.length_object (h : Place p) (hh : p.head? = some (ofString "objects")) : p.length = 3 := by
  cases h with
  | object => rfl
  | ref | packed => exact absurd (some.inj hh) (by decide)

theorem Place.tmp_length_object (h : Place p) (hh : (tmpPath p).head? = some (ofString "objects")) :
    (tmpPath p).length = 3 := by
  rw [h.tmp_head?] at hh
  split at hh
  · exact absurd (some.inj hh) (by decide)
  · rw [tmpPath, length_append, length_dropLast, h.length_object hh]
    rfl

theorem Place.head?_of_tmp (h : Place p) (hh : (tmpPath p).head? = some (ofString "refs")) :
    p.head? = some (ofString "refs") := by
  rw [h.tmp_head?] at hh
  split at hh
  · exact absurd (some.inj hh) (by decide)
  · exact hh

theorem fits_of_written {writes : List (FilePath × GoString)} (hw : ∀ a ∈ writes, Written git d a) (hd : IsRepo git d)
    (htext : TextKept d) (hroom : RefRoom git d) (ht : Begun git t) : Fits tmpPath t writes := by
  have hplace : ∀ a ∈ writes, Place a.1 := fun a ha => (hw a ha).place hd
  have href : ∀ a ∈ writes, a.1.head? = some (ofString "refs") → ∃ name data, LooseRef d name data ∧ a.1 = refPath name :=
    fun a ha hh => (hw a ha).looseRef htext hh
  have hnoDir : ∀ a ∈ writes, t.isDir a.1 = false ∧ t.isDir (tmpPath a.1) = false := by
    intro a ha
    refine (hplace a ha).noDir ht fun hh => ?_
    obtain ⟨name, data, hn, hpath⟩ := href a ha hh
    obtain ⟨hp, htmp, -⟩ := hroom name data hn
    rw [hpath, ← refPath_tmp]
    exact ⟨hp, htmp⟩
  refine ⟨fun a ha q hq hpre => ?_, fun a ha => (hnoDir a ha).2, fun a ha => (hnoDir a ha).1, fun a ha b hb hpre => ?_,
    fun a ha b hb hpre => ?_⟩
  · rw [isFile, ht.file] at hq
    obtain ⟨hne, ho, hr, -⟩ := git.fresh_file q hq
    rcases (hplace a ha).above hpre hne with ⟨-, hh⟩ | ⟨hh, -⟩
    · exact ho (prefix_of_head? hh)
    · exact hr (prefix_of_head? hh)
  · rcases (hplace a ha).above hpre (hplace b hb).ne_nil with ⟨_, hh⟩ | ⟨hh, hheadA⟩
    · have := (hplace b hb).length_object hh
      omega
    -- one ref would be a directory of another
    obtain ⟨name, data, hn, hpath⟩ := href a ha hheadA
    obtain ⟨name', data', hn', hp'⟩ := href b hb hh
    rw [hpath, hp'] at hpre
    have hdir : d.isDir (refPath name') = true := by
      refine isDir_iff.2 (.inr (.inr ⟨refPath name, isFile_iff.2 ⟨data, hn.2⟩,
        hpre.trans (List.dropLast_prefix _), fun hs => ?_⟩))
      rw [hs] at hpre
      exact not_prefix_dropLast (refPath_ne_nil name) hpre
    rw [hd.tree _ (isFile_iff.2 ⟨data', hn'.2⟩)] at hdir
    cases hdir
  · have htmp : tmpPath a.1 ≠ [] := by simp [tmpPath]
    rcases (hplace b hb).above hpre htmp with ⟨_, hh⟩ | ⟨hh, hheadB⟩
    · have := (hplace a ha).tmp_length_object hh
      omega
    obtain ⟨name, data, hn, hpath⟩ := href a ha ((hplace a ha).head?_of_tmp hh)
    obtain ⟨name', data', hn', hp'⟩ := href b hb hheadB
    rw [hpath, hp', ← refPath_tmp] at hpre
    exact (hroom name data hn).2.2 name' data' hn' hpre

/-- **A hydration of what was saved**, that went through. -/
structure Hydration (git : GitFiles) (sessionID : GoString) (marshal : Manifest → GoString) (orders : HydrateOrders) (d : Repo)
    (s : Store) (packs : List PackEntry) (t d' : Repo) : Prop where
  session : Valid sessionID
  repo : IsRepo git d
  saved : Saved git sessionID d s packs
  begun : Begun git t
  done : Places (savedWrites marshal orders sessionID d s packs) t d'

theorem LooseRef.isRef (hd : IsRepo git d) (h : LooseRef d name data) :
    hasPrefix name (ofString "refs/") = true := by
  refine isRef_iff.2 ⟨h.1, fun hr => ?_⟩
  have hf := h.2
  rw [hr] at hf
  exact absurd (isFile_iff.2 ⟨data, hf⟩) (Bool.eq_false_iff.1 hd.refs)

/-! ## The objects -/

theorem Written.object_cases (h : Written git d a) (hh : a.1.head? = some (ofString "objects")) :
    (∃ sha, a = (packDir ++ [packFile sha], git.packData sha)) ∨ (∃ sha, a = (packDir ++ [idxFile sha], git.idxData sha)) ∨
      ∃ id b, IsId id ∧ git.decodes b id ∧ a = (loosePath id, b) := by
  cases h with
  | pack sha => exact .inl ⟨sha, rfl⟩
  | idx sha => exact .inr (.inl ⟨sha, rfl⟩)
  | loose hid hd => exact .inr (.inr ⟨_, _, hid, hd, rfl⟩)
  | ref hr =>
    obtain ⟨q, hq⟩ := hr
    rw [← hq] at hh
    exact absurd (some.inj hh) (by decide)
  | packed => exact absurd (some.inj hh) (by decide)

theorem IsId.ne_packDir {fn : GoString} (hid : IsId id) : loosePath id ≠ packDir ++ [fn] := by
  intro h
  simp only [packDir, loosePath, objectsDir, cons_append, nil_append, List.cons.injEq] at h
  have hl := congrArg List.length h.2.1
  simp [ofString, hid.1] at hl

theorem IsId.loosePath_injective {id' : GoString} (h : loosePath id = loosePath id') : id = id' := by
  simp only [loosePath, objectsDir, cons_append, nil_append, List.cons.injEq] at h
  rw [← take_append_drop 2 id, h.2.1, h.2.2.1, take_append_drop]

theorem Written.of_loosePath (hid : IsId id) (h : Written git d a) (hp : a.1 = loosePath id) : git.decodes a.2 id := by
  rcases h.object_cases (hp ▸ rfl) with ⟨_, rfl⟩ | ⟨_, rfl⟩ | ⟨_, b, -, hd, rfl⟩
  · exact absurd hp.symm hid.ne_packDir
  · exact absurd hp.symm hid.ne_packDir
  · exact IsId.loosePath_injective hp ▸ hd

theorem Written.of_packPath {sha : GoString} (h : Written git d a) (hp : a.1 = packDir ++ [packFile sha]) :
    a.2 = git.packData sha := by
  rcases h.object_cases (hp ▸ rfl) with ⟨sha', rfl⟩ | ⟨sha', rfl⟩ | ⟨_, b, hi', -, rfl⟩
  · rw [packFile_injective (singleton_inj.1 (append_cancel_left hp))]
  · exact absurd (singleton_inj.1 (append_cancel_left hp)).symm (packFile_ne_idxFile sha sha')
  · exact absurd hp hi'.ne_packDir

theorem Written.of_idxPath {sha : GoString} (h : Written git d a) (hp : a.1 = packDir ++ [idxFile sha]) :
    a.2 = git.idxData sha := by
  rcases h.object_cases (hp ▸ rfl) with ⟨sha', rfl⟩ | ⟨sha', rfl⟩ | ⟨_, b, hi', -, rfl⟩
  · exact absurd (singleton_inj.1 (append_cancel_left hp)) (packFile_ne_idxFile sha' sha)
  · rw [idxFile_injective (singleton_inj.1 (append_cancel_left hp))]
  · exact absurd hp hi'.ne_packDir

theorem tmpPath_ne_concat {c : GoString} (hc : c.getLast? ≠ some (.rune 'p')) : tmpPath p ≠ q ++ [c] := by
  intro h
  have hl := congrArg List.getLast? h
  rw [tmpPath, List.getLast?_concat, List.getLast?_concat] at hl
  rw [← some.inj hl, List.getLast?_append] at hc
  exact hc rfl

/-! ## What comes back -/

section
variable (h : Hydration git sessionID marshal orders d s packs t d')

include h

theorem Hydration.written (ha : a ∈ savedWrites marshal orders sessionID d s packs) : Written git d a :=
  h.saved.written h.session h.repo ha

theorem Hydration.file? (q : FilePath) :
    d'.file? q = placed tmpPath (savedWrites marshal orders sessionID d s packs) q (git.fresh.file? q) := by
  rw [placeAll_file? (fun a ha => (h.written ha).sibling h.repo) h.done, h.begun.file]

theorem Hydration.file_of_mem (hm : ∃ a ∈ savedWrites marshal orders sessionID d s packs, a.1 = q) :
    (∃ a, Written git d a ∧ a.1 = q ∧ d'.file? q = some a.2) ∨ (d'.file? q = none ∧ ∃ a, Written git d a ∧ tmpPath a.1 = q) := by
  rw [h.file?]
  rcases placed_of_mem hm with ⟨a, ha, hp⟩ | ⟨hn, a, ha, ht⟩
  · exact .inl ⟨a, h.written ha, hp⟩
  · exact .inr ⟨hn, a, h.written ha, ht⟩

/-! ### Refs -/

theorem Hydration.refs_file? :
    (∀ name, hasPrefix name (ofString "refs/") = true → d'.file? (refPath name) =
      placed tmpPath (refWrites orders.refs (coerceRefs (looseRefs d))) (refPath name) none) ∧
    packedText d' = coerce (packedText d) := by
  obtain ⟨hw, hs⟩ := h.saved.stored h.session
  have hf : ∀ q, refsDir <+: q ∨ q = packedRefsPath → t.file? q = none := by
    intro q hq
    rw [h.begun.file, ← not_isSome_iff_eq_none]
    intro hfile
    obtain ⟨-, -, hrefs, hp⟩ := git.fresh_file q hfile
    exact hq.elim hrefs hp
  obtain ⟨hrefs, hp⟩ := writes_file? (fun r hr => (h.repo.named hr).1)
    (fun a ha => h.saved.good.object_path hw hs ha) h.done
  refine ⟨fun name hn => ?_, ?_⟩
  · rw [hrefs name hn, hf _ (.inl (isRef_iff.1 hn).1)]
  · rw [hp]
    split
    · rename_i hnil
      rw [hnil, packedText, hf _ (.inr rfl)]
      rfl
    · rfl

theorem Hydration.looseRef_file? (ht : TextKept d) (hn : LooseRef d name data) :
    d'.file? (refPath name) = some (trimSpace data ++ ofString "\n") ∨
      (d'.file? (refPath name) = none ∧ ∃ name' data', LooseRef d name' data' ∧ name = name' ++ ofString ".tmp") := by
  have hl : (coerceRefs (looseRefs d)).lookup name = some (trimSpace data) :=
    AList.mem_lookup_iff.2 ((mem_coercedRefs h.repo ht).2 ⟨data, hn, rfl⟩)
  rw [h.refs_file?.1 name (hn.isRef h.repo)]
  by_cases ho : Overwritten orders.refs (coerceRefs (looseRefs d)) name
  · rw [placed_left (fun r hr => (h.repo.named hr).1) (.inr ho), ite_self]
    obtain ⟨_, v, _, hsplit, r, hr, hs⟩ := ho
    obtain ⟨data', hn', -⟩ := (mem_coercedRefs h.repo ht).1
      ((orders.refs.perm _).mem_iff.1 (hsplit ▸ mem_append_right _ (mem_cons_of_mem _ hr)))
    exact .inr ⟨rfl, r.1, data', hn', hs⟩
  · exact .inl (placed_kept (fun r hr => (h.repo.named hr).1) hl ho)

theorem Hydration.ref_of_file? {b : GoString}
    (hname : hasPrefix name (ofString "refs/") = true) (hf : d'.file? (refPath name) = some b) :
    ∃ name' data', LooseRef d name' data' ∧ name = coerce name' ∧ b = coerce (trimSpace data') ++ ofString "\n" := by
  rw [h.refs_file?.1 name hname, refWrites_named fun r hr => (h.repo.named hr).1] at hf
  rcases placed_eq_some hf with ⟨a, ha, hp, hd⟩ | hn
  · obtain ⟨r, hr, rfl⟩ := List.mem_map.1 ha
    obtain ⟨-, name', data', hn', rfl⟩ := h.repo.named ((orders.refs.perm _).mem_iff.1 hr)
    exact ⟨name', data', hn', (refPath_injective hp).symm, hd.symm⟩
  · cases hn

theorem Hydration.noRef_file? (ht : TextKept d)
    (hn : hasPrefix name (ofString "refs/") = true) (hnone : d.file? (refPath name) = none) :
    d'.file? (refPath name) = none := by
  cases hf : d'.file? (refPath name) with
  | none => rfl
  | some =>
    obtain ⟨name', data', hn', rfl, -⟩ := h.ref_of_file? hn hf
    have hv : coerce name' = name' := (ht name' data' hn').1
    rw [hv, hn'.2] at hnone
    cases hnone

theorem Hydration.ref?_eq (hs : Survives git d)
    (hname : hasPrefix name (ofString "refs/") = true) : git.ref? d' name = git.ref? d name := by
  obtain ⟨hr, -⟩ := isRef_iff.1 hname
  rw [GitFiles.ref?, GitFiles.ref?, h.refs_file?.2]
  cases hf : d.file? (refPath name) with
  | none =>
    rw [h.noRef_file? hs.text hname hf]
    exact hs.packed name hname hf
  | some data =>
    rcases h.looseRef_file? hs.text ⟨hr, hf⟩ with hf' | ⟨hn, name', data', hn', rfl⟩
    · rw [hf']
      exact congrArg some (trimSpace_newline data)
    · rw [hn]
      exact hs.sibling name' data' data hn' ⟨hr, hf⟩

theorem Hydration.ref?_valid {v : GoString}
    (hn : hasPrefix name (ofString "refs/") = true) (hv : git.ref? d' name = some v) : Valid name ∧ Valid v := by
  rw [GitFiles.ref?, h.refs_file?.2] at hv
  cases hf : d'.file? (refPath name) with
  | none =>
    rw [hf] at hv
    exact git.packed_valid _ name v (valid_coerce _) hv
  | some =>
    rw [hf] at hv
    cases hv
    obtain ⟨_, -, -, rfl, rfl⟩ := h.ref_of_file? hn hf
    refine ⟨valid_coerce _, Valid.subset ?_ (trimSpace_subset _)⟩
    exact Valid.append (valid_coerce _) (by decide)

/-! ### Objects -/

theorem Hydration.readable (hid : IsId id) (hr : git.Readable d id) : git.Readable d' id := by
  rcases hr with ⟨b, hf, -⟩ | ⟨sha, pack, idx, hpack, hi, hh⟩
  · have hk := h.saved.loose id hid (isFile_iff.2 ⟨b, hf⟩)
    obtain ⟨a, ha, hp⟩ := mem_looseWrites hid hk
    have hm := mem_append_left (refWrites orders.refs (coerceRefs (looseRefs d)) ++ packedWrites (coerce (packedText d)))
      (mem_append_right (packWrites marshal orders.downloads s packs) ha)
    rcases h.file_of_mem ⟨a, hm, hp⟩ with ⟨a', ha', hp', hf'⟩ | ⟨-, a', -, ht⟩
    · exact .inl ⟨a'.2, hf', ha'.of_loosePath hid hp'⟩
    · refine absurd ht (tmpPath_ne_concat (q := objectsDir ++ [id.take 2]) fun hl => ?_)
      exact absurd (hid.2 _ (mem_of_mem_drop (mem_of_getLast? hl))) (by decide)
  · obtain ⟨hw, hs⟩ := h.saved.stored h.session
    have he := h.saved.packs sha (isFile_iff.2 ⟨pack, hpack⟩)
    have hm : ∀ a, a = (packDir ++ [packFile sha], git.packData sha) ∨ a = (packDir ++ [idxFile sha], git.idxData sha) →
        a ∈ savedWrites marshal orders sessionID d s packs := by
      intro a ha
      exact mem_append_left _ (mem_append_left _ ((mem_packWrites h.saved.good hw hs).2 ⟨sha, he, ha⟩))
    have hpack' : d'.file? (packDir ++ [packFile sha]) = some pack := by
      rcases h.file_of_mem ⟨_, hm _ (.inl rfl), rfl⟩ with ⟨a, ha, hp, hf⟩ | ⟨-, a, -, ht⟩
      · rw [hf, ha.of_packPath hp, (h.repo.pack sha pack hpack).2.1]
      · refine absurd ht (tmpPath_ne_concat fun hl => ?_)
        rw [packFile, List.getLast?_append] at hl
        exact absurd (some.inj hl) (by decide)
    have hi' : d'.file? (packDir ++ [idxFile sha]) = some idx := by
      rcases h.file_of_mem ⟨_, hm _ (.inr rfl), rfl⟩ with ⟨a, ha, hp, hf⟩ | ⟨-, a, -, ht⟩
      · rw [hf, ha.of_idxPath hp, (h.repo.idx sha idx hi).2.1]
      · refine absurd ht (tmpPath_ne_concat fun hl => ?_)
        rw [idxFile, List.getLast?_append] at hl
        exact absurd (some.inj hl) (by decide)
    exact .inr ⟨sha, pack, idx, hpack', hi', hh⟩

theorem Hydration.blocked (hn : LooseRef d name data) (ht : TextKept d)
    (hd : t.isDir (tmpPath (refPath name)) = true ∨ t.isDir (refPath name) = true) : False := by
  have hm := mem_append_right (objectWrites marshal orders.downloads sessionID s packs)
    (mem_append_left (packedWrites (coerce (packedText d))) (hn.mem_refWrites h.repo ht orders.refs))
  exact placeAll_blocked (fun a ha => (h.written ha).sibling h.repo) hm hd h.done

end

/-! ## Orders that lose refs -/

def MapOrder.first {A : Type} (f : A → Bool) : MapOrder A where
  iterate l := l.filter f ++ l.filter (!f ·)
  perm l := filter_append_perm f l

theorem refWrites_first (f : (Σ _ : GoString, GoString) → Bool) (refs : Refs) : refWrites (.first f) refs =
    (refs.entries.filter f).map (fun ref => (joinPath [] ref.1, ref.2 ++ ofString "\n")) ++
      (refs.entries.filter (!f ·)).map (fun ref => (joinPath [] ref.1, ref.2 ++ ofString "\n")) := map_append

theorem mem_part (hd : IsRepo git d) (ht : TextKept d) {f : (Σ _ : GoString, GoString) → Bool} {a : FilePath × GoString} :
    a ∈ ((coerceRefs (looseRefs d)).entries.filter f).map (fun ref => (joinPath [] ref.1, ref.2 ++ ofString "\n")) ↔
      ∃ name data, LooseRef d name data ∧ f ⟨name, trimSpace data⟩ = true ∧ a = (refPath name, trimSpace data ++ ofString "\n") := by
  simp only [List.mem_map, mem_filter, mem_coercedRefs hd ht]
  constructor
  · rintro ⟨⟨name, v⟩, ⟨⟨data, hn, hv⟩, hf⟩, rfl⟩
    have hv' : v = trimSpace data := hv
    have hn' : LooseRef d name data := hn
    subst hv'
    exact ⟨name, data, hn', hf, by rw [hn'.joinPath hd]⟩
  · rintro ⟨name, data, hn, hf, rfl⟩
    exact ⟨⟨name, trimSpace data⟩, ⟨⟨data, hn, rfl⟩, hf⟩, by rw [hn.joinPath hd]⟩

def HydrateOrders.firstRef (name : GoString) : HydrateOrders := ⟨.first fun _ => true, .first (·.1 = name)⟩

theorem Hydration.sibling_gone {data' : GoString} (hn : LooseRef d name data)
    (hn' : LooseRef d (name ++ ofString ".tmp") data') (ht : TextKept d)
    (h : Hydration git sessionID marshal (.firstRef (name ++ ofString ".tmp")) d s packs t d') :
    d'.file? (refPath (name ++ ofString ".tmp")) = none := by
  have ho : Overwritten (HydrateOrders.firstRef (name ++ ofString ".tmp")).refs (coerceRefs (looseRefs d))
      (name ++ ofString ".tmp") := by
    have hf : ⟨name ++ ofString ".tmp", trimSpace data'⟩ ∈ (coerceRefs (looseRefs d)).entries.filter
        (·.1 = name ++ ofString ".tmp") :=
      mem_filter.2 ⟨(mem_coercedRefs h.repo ht).2 ⟨data', hn', rfl⟩, decide_eq_true rfl⟩
    obtain ⟨before, after, hs⟩ := append_of_mem hf
    refine ⟨before, trimSpace data', after ++ _, (congrArg (· ++ _) hs).trans (append_assoc _ _ _), ⟨name, trimSpace data⟩,
      mem_append_right _ (mem_filter.2 ⟨(mem_coercedRefs h.repo ht).2 ⟨data, hn, rfl⟩, ?_⟩), rfl⟩
    simp only [Bool.not_eq_true', decide_eq_false_iff_not]
    intro hsame
    have hl := congrArg List.length hsame
    simp [ofString] at hl
  rw [h.refs_file?.1 _ (hn'.isRef h.repo), placed_left (fun r hr => (h.repo.named hr).1) (.inr ho), ite_self]

theorem Hydration.no_dir {name' data' : GoString} (hn : LooseRef d name data) (hn' : LooseRef d name' data')
    (ht : TextKept d) (h : Hydration git sessionID marshal (.firstRef name') d s packs t d') :
    ¬ refPath (name ++ ofString ".tmp") <+: (refPath name').dropLast := by
  intro hp
  have hd := h.done
  have hs : ∀ a ∈ savedWrites marshal (.firstRef name') sessionID d s packs, Sibling (tmpPath a.1) a.1 :=
    fun a ha => (h.written ha).sibling h.repo
  rw [savedWrites, HydrateOrders.firstRef, refWrites_first, append_assoc, ← append_assoc] at hd hs
  obtain ⟨t₁, ht₁, hr⟩ := placeAll_append.1 hd
  have hne : name ≠ name' := by
    rintro rfl
    have hl := hp.length_le
    rw [refPath_tmp, tmpPath, length_append, length_singleton] at hl
    omega
  have hdir : t₁.isDir (tmpPath (refPath name)) = true := by
    refine (placeAll_isDir (fun a ha => hs a (mem_append_left _ ha)) ht₁ _).2 (.inr ⟨_, mem_append_right _
      ((mem_part h.repo ht).2 ⟨name', data', hn', by simp, rfl⟩), ?_⟩)
    rwa [← refPath_tmp]
  refine placeAll_blocked (fun a ha => hs a (mem_append_right _ ha)) (mem_append_left _
    ((mem_part h.repo ht).2 ⟨name, data, hn, by simp [hne], rfl⟩)) (.inl hdir) hr

/-! ## The round trip -/

theorem survives_of_hydrations (h : ∀ orders, ∃ t d', Hydration git sessionID marshal orders d s packs t d' ∧
    ∀ name, hasPrefix name (ofString "refs/") = true → git.ref? d' name = git.ref? d name) : Survives git d := by
  have ht : TextKept d := by
    intro name _ hn
    obtain ⟨t, _, hh, hs⟩ := h (.firstRef name)
    refine hh.ref?_valid (hn.isRef hh.repo) ?_
    rw [hs name (hn.isRef hh.repo), GitFiles.ref?, hn.2]
    rfl
  refine ⟨ht, fun name hn hnone => ?_, fun name _ _ hn hn' => ?_, fun name _ hn => ⟨?_, ?_, ?_⟩⟩
  · obtain ⟨t, _, hh, hs⟩ := h (.firstRef name)
    have hr := hs name hn
    rw [GitFiles.ref?, GitFiles.ref?, hh.refs_file?.2, hnone, hh.noRef_file? ht hn hnone] at hr
    exact hr
  · obtain ⟨t, _, hh, hs⟩ := h (.firstRef (name ++ ofString ".tmp"))
    have hr := hs _ (hn'.isRef hh.repo)
    rw [GitFiles.ref?, GitFiles.ref?, hh.refs_file?.2, hh.sibling_gone hn hn' ht, hn'.2] at hr
    exact hr
  · obtain ⟨t, _, hh, -⟩ := h (.firstRef name)
    rw [Bool.eq_false_iff]
    intro hd
    exact hh.blocked hn ht (.inr (hh.begun.kept _ hd))
  · obtain ⟨t, _, hh, -⟩ := h (.firstRef name)
    rw [Bool.eq_false_iff, refPath_tmp]
    intro hd
    exact hh.blocked hn ht (.inl (hh.begun.kept _ hd))
  · intro name' _ hn'
    obtain ⟨t, _, hh, -⟩ := h (.firstRef name')
    exact hh.no_dir hn hn' ht

/-- **The round trip**, in whatever orders and whichever deletions are lost: the sync and the hydration succeed, every ref has
its value and every object is readable. -/
def RoundTrips (git : GitFiles) (marshal : Manifest → GoString) (sessionID : GoString) (token : Int) (s : Store) (d : Repo) : Prop :=
  ∀ (lost : GoString → Bool) (order : MapOrder LocalPack) (orders : HydrateOrders), ∃ s' d',
    run (podAnswer git.fresh lost) (syncAndDelete order sessionID token : Prog Op.Res (Except Err Unit)) (s, some d) =
      (.ok (), (s', some d)) ∧
    run (podAnswer git.fresh lost) (hydrate marshal orders sessionID : Prog Op.Res (Except Err Unit)) (s', none) =
      (.ok (), (s', some d')) ∧
    (∀ name, hasPrefix name (ofString "refs/") = true → git.ref? d' name = git.ref? d name) ∧
    ∀ id, IsId id → git.Readable d id → git.Readable d' id

section
variable {token : Int} (hsession : Valid sessionID) (hne : sessionID ≠ []) (hs : Reached git sessionID s) (hd : IsRepo git d)
  (htoken : (loadedOf sessionID s).1.fencingToken ≤ token)

include hsession hne hs hd htoken

theorem Reached.sync (lost : GoString → Bool) (order : MapOrder LocalPack) : ∃ s' packs, Saved git sessionID d s' packs ∧
    run (podAnswer git.fresh lost) (syncAndDelete order sessionID token) (s, some d) = (.ok (), (s', some d)) := by
  have hg := hs.good hsession hne
  rcases sync_run git.fresh lost hsession hne hd.listable hg.manifestOk order token with ⟨_, -⟩ | ⟨-, _, packs, s', hsynced, hr⟩
  · omega
  · exact ⟨s', packs, hsynced.saved hsession hd hg, hr⟩

theorem RoundTrips.survives (h : RoundTrips git marshal sessionID token s d) : Survives git d := by
  obtain ⟨s', packs, hsaved, hsync⟩ := hs.sync hsession hne hd htoken (fun _ => false) (.first fun _ => true)
  obtain ⟨t, hp, hb⟩ := makePackDir_begun git packs
  have ha : ∀ orders, ∃ t d', Hydration git sessionID marshal orders d s' packs t d' ∧
      ∀ name, hasPrefix name (ofString "refs/") = true → git.ref? d' name = git.ref? d name := by
    intro orders
    obtain ⟨s'', d', hs', hran, hr, -⟩ := h (fun _ => false) (.first fun _ => true) orders
    have hstore : s'' = s' := by
      rw [hsync] at hs'
      cases hs'
      rfl
    subst hstore
    obtain ⟨_, ⟨_, hp', hdone⟩, hd''⟩ := (hsaved.hydrate_run hsession _).1 hran
    cases hd''
    cases hp.symm.trans hp'
    exact ⟨t, d', ⟨hsession, hd, hsaved, hb, hdone⟩, hr⟩
  exact survives_of_hydrations ha

theorem Survives.roundTrips (h : Survives git d) : RoundTrips git marshal sessionID token s d := by
  intro lost order orders
  obtain ⟨s', packs, hsaved, hsync⟩ := hs.sync hsession hne hd htoken lost order
  obtain ⟨t, hp, hb⟩ := makePackDir_begun git packs
  have hf : Fits tmpPath t (savedWrites marshal orders sessionID d s' packs) :=
    fits_of_written (fun a ha => hsaved.written hsession hd ha) hd h.text h.room hb
  obtain ⟨d', hdone⟩ := placeAll_ok (fun a ha => (hsaved.written hsession hd ha).sibling hd) hf
  have hh : Hydration git sessionID marshal orders d s' packs t d' := ⟨hsession, hd, hsaved, hb, hdone⟩
  exact ⟨s', d', hsync, (hsaved.hydrate_run hsession _).2 ⟨d', ⟨t, hp, hdone⟩, rfl⟩, fun _ hn => hh.ref?_eq h hn,
    fun _ hid hr => hh.readable hid hr⟩

end

/-! ## Two repositories -/

def plainGit : GitFiles where
  packed _ _ := none
  decodes b id := b = id
  packHas _ _ _ := False
  packData _ := []
  idxData _ := []
  fresh := ⟨∅, [[ofString "objects", ofString "pack"], [ofString "refs", ofString "heads"]]⟩
  packed_nil _ := rfl
  packed_valid _ _ _ _ h := by cases h
  fresh_file _ h := by cases h
  fresh_objects p h _ := by
    rcases isDir_iff.1 h with rfl | ⟨q, hq, hpre⟩ | ⟨q, hq, -⟩
    · exact Nat.zero_le 2
    · refine hpre.length_le.trans ?_
      rcases mem_cons.1 hq with rfl | hq
      · exact Nat.le_refl 2
      · rw [mem_singleton.1 hq]
        exact Nat.le_refl 2
    · cases hq
  fresh_packed := by decide

theorem isRepo_plain {d : Repo} (ht : ∀ p ∈ d.files.keys, d.isDir p = false ∧ ∀ c ∈ p, Proper c)
    (hf : d.isFile objectsDir = false ∧ d.isFile packDir = false ∧ d.isDir packedRefsPath = false ∧ d.isFile refsDir = false)
    (hl : ∀ e ∈ d.files.entries, objectsDir <+: e.1 → IsId e.2 ∧ e.1 = loosePath e.2) : IsRepo plainGit d := by
  have hk : ∀ p, d.isFile p → p ∈ d.files.keys := fun p hp => mem_keys_iff.2 (isFile_iff.1 hp)
  have ho : ∀ p b, d.file? (objectsDir ++ p) = some b → IsId b ∧ objectsDir ++ p = loosePath b := by
    intro p b hb
    exact hl ⟨objectsDir ++ p, b⟩ (AList.mem_lookup_iff.1 hb) (prefix_append _ _)
  refine ⟨fun p hp => (ht p (hk p hp)).1, fun p hp => (ht p (hk p hp)).2, ⟨hf.1, hf.2.1, hf.2.2.1⟩,
    hf.2.2.2, fun name obj b _ hb => ?_, fun sha b hb => ?_, fun sha b hb => ?_⟩
  · obtain ⟨hid, hpath⟩ := ho [name, obj] b hb
    simp only [loosePath, objectsDir, cons_append, nil_append, List.cons.injEq] at hpath
    exact ⟨b, hid, hpath.2.1, hpath.2.2.1, rfl⟩
  · obtain ⟨hid, hpath⟩ := ho [ofString "pack", packFile sha] b hb
    exact absurd hpath.symm hid.ne_packDir
  · obtain ⟨hid, hpath⟩ := ho [ofString "pack", idxFile sha] b hb
    exact absurd hpath.symm hid.ne_packDir

def commitId : GoString := List.replicate 40 (.rune 'a')

def branchPath (name : String) : FilePath := [ofString "refs", ofString "heads", ofString name]

def oneBranch : Repo := ⟨(AList.insert (branchPath "main") (commitId ++ ofString "\n") ∅).insert (loosePath commitId) commitId, []⟩

def twoBranches : Repo :=
  ⟨(AList.insert (branchPath "main") (commitId ++ ofString "\n") ∅).insert (branchPath "main.tmp") (commitId ++ ofString "\n"), []⟩

theorem isRepo_twoBranches : IsRepo plainGit twoBranches :=
  isRepo_plain (by decide) (by decide) (by decide)

theorem isRepo_oneBranch : IsRepo plainGit oneBranch :=
  isRepo_plain (by decide) (by decide) (by decide)

theorem looseRef_of_forall {P : GoString → GoString → Prop}
    (h : ∀ e ∈ d.files.entries, refsDir <+: e.1 → P (slashed e.1) e.2) (hn : LooseRef d name data) :
    P name data := by
  have hP := h ⟨refPath name, data⟩ (AList.mem_lookup_iff.1 hn.2) hn.1
  rwa [slashed_refPath] at hP

theorem survives_oneBranch : Survives plainGit oneBranch := by
  have hm : ∀ name data, LooseRef oneBranch name data → name = ofString "refs/heads/main" := fun name data hn =>
    looseRef_of_forall (P := fun name _ => name = ofString "refs/heads/main") (by decide) hn
  refine ⟨fun name data hn => ?_, fun _ _ _ => rfl, fun name data _ hn hn' => ?_, fun name data hn => ?_⟩
  · exact looseRef_of_forall (P := fun name data => Valid name ∧ Valid (trimSpace data)) (by decide) hn
  · have hs := hm _ _ hn'
    rw [hm _ _ hn] at hs
    exact absurd hs (by decide)
  · rw [hm _ _ hn]
    refine ⟨by decide, by decide, fun _ _ hn' => ?_⟩
    rw [hm _ _ hn']
    decide

/-- **A sync and a hydration bring a repository back exactly when its refs survive**: the objects always come back. -/
theorem roundTrips_iff {token : Int} (hsession : Valid sessionID) (hne : sessionID ≠ []) (hs : Reached git sessionID s)
    (hd : IsRepo git d) (htoken : (loadedOf sessionID s).1.fencingToken ≤ token) :
    RoundTrips git marshal sessionID token s d ↔ Survives git d :=
  ⟨RoundTrips.survives hsession hne hs hd htoken, Survives.roundTrips hsession hne hs hd htoken⟩

theorem roundTrips_oneBranch :
    IsRepo plainGit oneBranch ∧ RoundTrips plainGit (fun _ => []) (ofString "s1") 1 emptyStore oneBranch :=
  ⟨isRepo_oneBranch, (roundTrips_iff (by decide) (by decide) (.empty fun _ _ => rfl) isRepo_oneBranch (by decide)).2 survives_oneBranch⟩

/-- Of two branches `main` and `main.tmp`, the second is lost when it is written before the first. -/
theorem not_roundTrips_twoBranches : IsRepo plainGit twoBranches ∧ Reached plainGit (ofString "s1") emptyStore ∧
    ¬ RoundTrips plainGit (fun _ => []) (ofString "s1") 1 emptyStore twoBranches := by
  refine ⟨isRepo_twoBranches, .empty fun _ _ => rfl, fun h => ?_⟩
  have hs := h.survives (by decide) (by decide) (.empty fun _ _ => rfl) isRepo_twoBranches (by decide)
  have hm : LooseRef twoBranches (ofString "refs/heads/main") (commitId ++ ofString "\n") :=
    ⟨by decide, by decide⟩
  have ht : LooseRef twoBranches (ofString "refs/heads/main.tmp") (commitId ++ ofString "\n") :=
    ⟨by decide, by decide⟩
  exact some_ne_none _ (hs.sibling _ _ _ hm ht).symm

end Jamsesh.Objectstore
