import Jamsesh.Sync
/-!
# SyncKeys — the names and the keys of packs

A pack is named by two files in the directory and by two keys in the store.  Which packs a listing finds, and that a key tells
the pack it belongs to.
-/
namespace Jamsesh.Objectstore

open GoString List Option

/-! ## The packs that are found -/

def packFile (sha : GoString) : GoString := ofString "pack-" ++ sha ++ ofString ".pack"

def idxFile (sha : GoString) : GoString := ofString "pack-" ++ sha ++ ofString ".idx"

theorem packName_iff {fn suffix : GoString} (hd : suffix.head? = some (.rune '.')) :
    (hasPrefix fn (ofString "pack-") && hasSuffix fn suffix) = true ↔ ∃ sha, fn = ofString "pack-" ++ sha ++ suffix := by
  rw [Bool.and_eq_true, hasPrefix_iff, hasSuffix_iff]
  constructor
  · rintro ⟨⟨t, ht⟩, u, rfl⟩
    rcases append_eq_append_iff.1 ht with ⟨c, hc, rfl⟩ | ⟨sha, rfl, -⟩
    · cases c with
      | nil => exact ⟨[], by rw [hc, append_nil, append_nil]⟩
      | cons =>
        -- the dot of the suffix is not in the prefix
        have hm : GoChar.rune '.' ∈ ofString "pack-" := by
          rw [hc, ← some.inj hd]
          simp
        exact absurd hm (by decide)
    · exact ⟨sha, rfl⟩
  · rintro ⟨sha, rfl⟩
    exact ⟨⟨sha ++ suffix, append_assoc _ _ _⟩, ofString "pack-" ++ sha, rfl⟩

theorem packSHA_packFile (sha : GoString) : packSHA (packFile sha) (ofString ".pack") = sha := by
  rw [packSHA, packFile, trimSuffix_append, trimPrefix_append]

theorem packSHA_idxFile (sha : GoString) : packSHA (idxFile sha) (ofString ".idx") = sha := by
  rw [packSHA, idxFile, trimSuffix_append, trimPrefix_append]

variable {sha' sessionID key : GoString} {entries : List (GoString × Bool)}

variable {sha : GoString}

theorem packFile_injective (h : packFile sha = packFile sha') : sha = sha' := by
  rw [← packSHA_packFile sha, h, packSHA_packFile]

theorem idxFile_injective (h : idxFile sha = idxFile sha') : sha = sha' := by
  rw [← packSHA_idxFile sha, h, packSHA_idxFile]

theorem packFile_ne_idxFile (sha sha' : GoString) : packFile sha ≠ idxFile sha' := by
  intro h
  have hp : (packFile sha).getLast? = some (.rune 'k') := by
    rw [packFile, List.getLast?_append]
    rfl
  rw [h, idxFile, List.getLast?_append] at hp
  exact absurd (some.inj hp) (by decide)

theorem addLocal_cases (packs : List LocalPack) (e : GoString × Bool) :
    (∃ sha, e = (packFile sha, false) ∧ addLocal packs e = setLocal sha (fun lp => { lp with packFn := packFile sha }) packs) ∨
      (∃ sha, e = (idxFile sha, false) ∧ addLocal packs e = setLocal sha (fun lp => { lp with idxFn := idxFile sha }) packs) ∨
      ((∀ sha, e ≠ (packFile sha, false) ∧ e ≠ (idxFile sha, false)) ∧ addLocal packs e = packs) := by
  obtain ⟨_, dir⟩ := e
  unfold addLocal
  cases dir with
  | true => exact .inr (.inr ⟨fun _ => ⟨fun h => Bool.noConfusion (Prod.mk.inj h).2, fun h => Bool.noConfusion (Prod.mk.inj h).2⟩, rfl⟩)
  | false =>
    simp only [Bool.false_eq_true, if_false]
    split
    · rename_i hp
      obtain ⟨sha, hs⟩ := (packName_iff rfl).1 hp
      rw [← packFile] at hs
      exact .inl ⟨sha, by rw [hs], by rw [hs, packSHA_packFile]⟩
    · rename_i hp
      split
      · rename_i hi
        obtain ⟨sha, hs⟩ := (packName_iff rfl).1 hi
        rw [← idxFile] at hs
        exact .inr (.inl ⟨sha, by rw [hs], by rw [hs, packSHA_idxFile]⟩)
      · rename_i hi
        refine .inr (.inr ⟨fun sha => ⟨fun h => hp ?_, fun h => hi ?_⟩, rfl⟩)
        · exact (packName_iff rfl).2 ⟨sha, (Prod.mk.inj h).1⟩
        · exact (packName_iff rfl).2 ⟨sha, (Prod.mk.inj h).1⟩

section
variable {sha : GoString} {f : LocalPack → LocalPack}

theorem find_setLocal (hf : ∀ lp, (f lp).sha = lp.sha) (sha' : GoString) : ∀ l : List LocalPack,
    (setLocal sha f l).find? (·.sha = sha') =
      if sha' = sha then some (f ((l.find? (·.sha = sha)).getD ⟨sha, [], []⟩)) else l.find? (·.sha = sha')
  | [] => by
    by_cases h : sha' = sha
    · simp [setLocal, hf, h]
    · simp [setLocal, hf, h, Ne.symm h]
  | lp :: l => by
    unfold setLocal
    split
    · rename_i hlp
      by_cases h : sha' = sha
      · simp [hf, hlp, h]
      · simp [hf, hlp, h, Ne.symm h]
    · rename_i hlp
      by_cases hs' : lp.sha = sha'
      · simp [hs', show sha' ≠ sha from hs' ▸ hlp]
      · simp [hs', hlp, find_setLocal hf sha' l]

theorem map_sha_setLocal (hf : ∀ lp, (f lp).sha = lp.sha) : ∀ l : List LocalPack,
    (setLocal sha f l).map (·.sha) = if sha ∈ l.map (·.sha) then l.map (·.sha) else l.map (·.sha) ++ [sha]
  | [] => by simp [setLocal, hf]
  | lp :: l => by
    unfold setLocal
    split
    · rename_i hlp
      simp [hf, hlp]
    rename_i hlp
    rw [map_cons, map_sha_setLocal hf l]
    by_cases h : sha ∈ l.map (·.sha)
    · simp [h]
    · simp [h, Ne.symm hlp]

theorem nodup_setLocal (hf : ∀ lp, (f lp).sha = lp.sha) {l : List LocalPack} (h : (l.map (·.sha)).Nodup) :
    ((setLocal sha f l).map (·.sha)).Nodup := by
  rw [map_sha_setLocal hf]
  split
  · exact h
  rename_i hs
  exact nodup_append.2 ⟨h, nodup_singleton sha, fun a ha b hb => by
    rw [mem_singleton.1 hb]
    rintro rfl
    exact hs ha⟩

end

def foundPack (entries : List (GoString × Bool)) (sha : GoString) : Option LocalPack :=
  if (packFile sha, false) ∈ entries ∨ (idxFile sha, false) ∈ entries then
    some ⟨sha, if (packFile sha, false) ∈ entries then packFile sha else [],
      if (idxFile sha, false) ∈ entries then idxFile sha else []⟩
  else none

theorem localPacks_spec (entries : List (GoString × Bool)) :
    ((localPacks entries).map (·.sha)).Nodup ∧ ∀ sha, (localPacks entries).find? (·.sha = sha) = foundPack entries sha := by
  induction entries using List.reverseRecOn with
  | nil => simp [localPacks, foundPack]
  | append_singleton entries e ih =>
    have hs : localPacks (entries ++ [e]) = addLocal (localPacks entries) e := by
      simp [localPacks]
    rw [hs]
    obtain ⟨hn, hf⟩ := ih
    rcases addLocal_cases (localPacks entries) e with ⟨sha', rfl, ha⟩ | ⟨sha', rfl, ha⟩ | ⟨ho, ha⟩
    · have hsha : ∀ lp : LocalPack, { lp with packFn := packFile sha' }.sha = lp.sha := fun _ => rfl
      rw [ha]
      refine ⟨nodup_setLocal hsha hn, fun sha => ?_⟩
      rw [find_setLocal hsha, hf, hf]
      by_cases h : sha = sha'
      · subst h
        by_cases hpack : (packFile sha, false) ∈ entries <;> by_cases hi : (idxFile sha, false) ∈ entries <;>
          simp [foundPack, hpack, hi, (packFile_ne_idxFile sha sha).symm]
      · simp [foundPack, h, (packFile_ne_idxFile sha' sha).symm, show packFile sha ≠ packFile sha' from fun hp => h (packFile_injective hp)]
    · have hsha : ∀ lp : LocalPack, { lp with idxFn := idxFile sha' }.sha = lp.sha := fun _ => rfl
      rw [ha]
      refine ⟨nodup_setLocal hsha hn, fun sha => ?_⟩
      rw [find_setLocal hsha, hf, hf]
      by_cases h : sha = sha'
      · subst h
        by_cases hpack : (packFile sha, false) ∈ entries <;> by_cases hi : (idxFile sha, false) ∈ entries <;>
          simp [foundPack, hpack, hi, packFile_ne_idxFile sha sha]
      · simp [foundPack, h, packFile_ne_idxFile sha sha', show idxFile sha ≠ idxFile sha' from fun hp => h (idxFile_injective hp)]
    · rw [ha]
      refine ⟨hn, fun sha => ?_⟩
      rw [hf]
      simp [foundPack, (ho sha).1.symm, (ho sha).2.symm]

theorem mem_localPacks {lp : LocalPack} : lp ∈ localPacks entries ↔ foundPack entries lp.sha = some lp := by
  obtain ⟨hn, hfind⟩ := localPacks_spec entries
  rw [← hfind]
  constructor
  · intro hlp
    cases hf : (localPacks entries).find? (·.sha = lp.sha) with
    | none => exact absurd (List.find?_eq_none.1 hf lp hlp) (by simp)
    | some lp' =>
      have hs : lp'.sha = lp.sha := by simpa using List.find?_some hf
      rw [inj_on_of_nodup_map hn (mem_of_find?_eq_some hf) hlp hs]
  · exact mem_of_find?_eq_some

theorem localPack_of_file
    (h : (packFile sha, false) ∈ entries ∨ (idxFile sha, false) ∈ entries) : ∃ lp ∈ localPacks entries, lp.sha = sha ∧
      ((packFile sha, false) ∈ entries → lp.packFn = packFile sha) ∧ ((idxFile sha, false) ∈ entries → lp.idxFn = idxFile sha) := by
  refine ⟨⟨sha, if (packFile sha, false) ∈ entries then packFile sha else [],
    if (idxFile sha, false) ∈ entries then idxFile sha else []⟩, mem_localPacks.2 (if_pos h), rfl, fun hp => if_pos hp,
    fun hi => if_pos hi⟩

theorem localPack_files {lp : LocalPack} (h : lp ∈ localPacks entries) :
    (lp.packFn ≠ [] → lp.packFn = packFile lp.sha ∧ (lp.packFn, false) ∈ entries) ∧
      (lp.idxFn ≠ [] → lp.idxFn = idxFile lp.sha ∧ (lp.idxFn, false) ∈ entries) := by
  have hf := mem_localPacks.1 h
  unfold foundPack at hf
  split at hf
  · have heq := some.inj hf
    have hp := congrArg LocalPack.packFn heq
    have hi := congrArg LocalPack.idxFn heq
    simp only at hp hi
    constructor
    · intro hne
      split at hp
      · rename_i hm
        exact ⟨hp.symm, hp ▸ hm⟩
      · exact absurd hp.symm hne
    · intro hne
      split at hi
      · rename_i hm
        exact ⟨hi.symm, hi ▸ hm⟩
      · exact absurd hi.symm hne
  · cases hf

/-! ## Keys -/

def PackEntry.keys (p : PackEntry) : List GoString := [p.packKey, p.idxKey]

def Manifest.keys (m : Manifest) : List GoString := m.packs.flatMap PackEntry.keys

def sessionDir (sessionID : GoString) : GoString := ofString "sessions/" ++ sessionID ++ ofString "/"

theorem manifestKey_eq (sessionID : GoString) : manifestKey sessionID = sessionDir sessionID ++ ofString "manifest.json" := by
  rw [manifestKey, sessionDir, append_assoc _ (ofString "/")]
  rfl

theorem looseKey_eq (sessionID name obj : GoString) :
    looseKey sessionID name obj = sessionDir sessionID ++ (ofString "objects/" ++ (name ++ (ofString "/" ++ obj))) := by
  have hs : ofString "/objects/" = ofString "/" ++ ofString "objects/" := rfl
  simp only [looseKey, sessionDir, hs, append_assoc]

theorem packKey_eq (sessionID sha : GoString) :
    packKey sessionID sha = sessionDir sessionID ++ (ofString "packs/" ++ (sha ++ ofString ".pack")) := by
  have hs : ofString "/packs/" = ofString "/" ++ ofString "packs/" := rfl
  simp only [packKey, sessionDir, hs, append_assoc]

theorem idxKey_eq (sessionID sha : GoString) :
    idxKey sessionID sha = sessionDir sessionID ++ (ofString "packs/" ++ (sha ++ ofString ".idx")) := by
  have hs : ofString "/packs/" = ofString "/" ++ ofString "packs/" := rfl
  simp only [idxKey, sessionDir, hs, append_assoc]

theorem packKey_injective (sessionID : GoString) (h : packKey sessionID sha = packKey sessionID sha') : sha = sha' := by
  rw [packKey_eq, packKey_eq] at h
  exact append_cancel_right (append_cancel_left (append_cancel_left h))

theorem idxKey_injective (sessionID : GoString) (h : idxKey sessionID sha = idxKey sessionID sha') : sha = sha' := by
  rw [idxKey_eq, idxKey_eq] at h
  exact append_cancel_right (append_cancel_left (append_cancel_left h))

theorem packKey_ne_idxKey (sessionID sha sha' : GoString) : packKey sessionID sha ≠ idxKey sessionID sha' := by
  intro h
  have hp : (packKey sessionID sha).getLast? = some (.rune 'k') := by
    rw [packKey, List.getLast?_append]
    rfl
  rw [h, idxKey, List.getLast?_append] at hp
  exact absurd (some.inj hp) (by decide)

theorem looseKey_ne_manifestKey (sessionID name obj : GoString) : looseKey sessionID name obj ≠ manifestKey sessionID := by
  rw [looseKey_eq, manifestKey_eq]
  intro h
  exact absurd (congrArg List.head? (append_cancel_left h)) (by simp [ofString])

theorem packKey_ne_manifestKey (sessionID sha : GoString) : packKey sessionID sha ≠ manifestKey sessionID := by
  rw [packKey_eq, manifestKey_eq]
  intro h
  exact absurd (congrArg List.head? (append_cancel_left h)) (by simp [ofString])

theorem idxKey_ne_manifestKey (sessionID sha : GoString) : idxKey sessionID sha ≠ manifestKey sessionID := by
  rw [idxKey_eq, manifestKey_eq]
  intro h
  exact absurd (congrArg List.head? (append_cancel_left h)) (by simp [ofString])

theorem mem_keys_packEntry :
    key ∈ (packEntry sessionID sha).keys ↔ key = packKey sessionID sha ∨ key = idxKey sessionID sha := by
  simp [PackEntry.keys, packEntry]

theorem sha_eq_of_mem_keys (h : key ∈ (packEntry sessionID sha).keys)
    (h' : key ∈ (packEntry sessionID sha').keys) : sha = sha' := by
  rw [mem_keys_packEntry] at h h'
  rcases h with rfl | rfl
  · exact packKey_injective sessionID (h'.resolve_right (packKey_ne_idxKey sessionID sha sha'))
  · exact idxKey_injective sessionID (h'.resolve_left (packKey_ne_idxKey sessionID sha' sha).symm)

theorem ne_manifestKey_of_mem_keys (h : key ∈ (packEntry sessionID sha).keys) : key ≠ manifestKey sessionID := by
  rcases mem_keys_packEntry.1 h with rfl | rfl
  · exact packKey_ne_manifestKey sessionID sha
  · exact idxKey_ne_manifestKey sessionID sha

theorem ne_looseKey_of_mem_keys {name obj : GoString} (h : key ∈ (packEntry sessionID sha).keys) :
    key ≠ looseKey sessionID name obj := by
  intro hl
  rcases mem_keys_packEntry.1 h with rfl | rfl
  · rw [packKey_eq, looseKey_eq] at hl
    exact absurd (congrArg List.head? (append_cancel_left hl)) (by simp [ofString])
  · rw [idxKey_eq, looseKey_eq] at hl
    exact absurd (congrArg List.head? (append_cancel_left hl)) (by simp [ofString])

theorem sessionDir_of_mem_keys (h : key ∈ (packEntry sessionID sha).keys) : sessionDir sessionID <+: key := by
  rcases mem_keys_packEntry.1 h with rfl | rfl
  · exact packKey_eq sessionID sha ▸ prefix_append _ _
  · exact idxKey_eq sessionID sha ▸ prefix_append _ _

theorem mem_removedPackKeys {oldPacks newPacks : List PackEntry} :
    key ∈ removedPackKeys oldPacks newPacks ↔ ∃ p ∈ oldPacks, p.sha ∉ newPacks.map (·.sha) ∧ key ∈ p.keys := by
  simp only [removedPackKeys, mem_flatMap]
  refine exists_congr fun p => and_congr_right fun _ => ?_
  split
  · rename_i hin
    simp [hin]
  · rename_i ho
    simp [ho, PackEntry.keys]

end Jamsesh.Objectstore
