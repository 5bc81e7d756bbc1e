import Jamsesh.SavedRepo
/-!
# RefFiles — the files of the refs after a hydration

The writes leave at the path of a ref its value, unless the write of a later ref takes the file as its sibling
(`placed_kept`, `placed_left`); those of the objects and of `packed-refs` are elsewhere (`writes_file?`).
-/
namespace Jamsesh.Objectstore

open FileTree List
open GoString (ofString)

def sibling (name : GoString) : GoString := name ++ ofString ".tmp"

/-- The file of the ref is written, and later taken as the sibling of another. -/
def Overwritten (order : MapOrder (Σ _ : GoString, GoString)) (refs : Refs) (name : GoString) : Prop :=
  ∃ before v after, order.iterate refs.entries = before ++ ⟨name, v⟩ :: after ∧ ∃ r ∈ after, name = sibling r.1

variable {order : MapOrder (Σ _ : GoString, GoString)} {refs : Refs} {name : GoString} {v : Option GoString}

variable (hnamed : ∀ r ∈ refs.entries, IsRefName r.1)

include hnamed

theorem refWrites_named : refWrites order refs = (order.iterate refs.entries).map (fun r => (refPath r.1, r.2 ++ ofString "\n")) :=
  map_congr_left fun r hr => by rw [(hnamed r ((order.perm _).mem_iff.1 hr)).joinPath]

/-- Once the file of the ref is written, only the sibling of a later ref takes it away. -/
theorem placed_written {before after : List (Σ _ : GoString, GoString)} {value : GoString}
    (hs : order.iterate refs.entries = before ++ ⟨name, value⟩ :: after) :
    placed tmpPath (refWrites order refs) (refPath name) v =
      placed tmpPath (after.map fun r => (refPath r.1, r.2 ++ ofString "\n")) (refPath name) (some (value ++ ofString "\n")) ∧
    ∀ r ∈ after, r.1 ≠ name := by
  have hn : (before ++ ⟨name, value⟩ :: after).NodupKeys := hs ▸ (perm_nodupKeys (order.perm _)).2 refs.nodupKeys
  rw [List.NodupKeys, List.keys, map_append, map_cons] at hn
  refine ⟨?_, fun r hr hname => ?_⟩
  · rw [refWrites_named hnamed, hs, map_append, map_cons, placed_append, placed_cons, if_pos rfl]
  · exact (nodup_cons.1 hn.of_append_right).1 (mem_map.2 ⟨r, hr, hname⟩)

theorem placed_kept {value : GoString} (hv : refs.lookup name = some value) (hl : ¬ Overwritten order refs name) :
    placed tmpPath (refWrites order refs) (refPath name) v = some (value ++ ofString "\n") := by
  obtain ⟨before, after, hs⟩ := append_of_mem ((order.perm _).mem_iff.2 (AList.mem_lookup_iff.1 hv))
  obtain ⟨hplaced, ho⟩ := placed_written hnamed hs
  rw [hplaced, placed_of_ne]
  · intro a ha hp
    obtain ⟨r, hr, rfl⟩ := mem_map.1 ha
    exact ho r hr (refPath_injective hp)
  · intro a ha hp
    obtain ⟨r, hr, rfl⟩ := mem_map.1 ha
    exact hl ⟨before, value, after, hs, r, hr, (refPath_injective ((refPath_tmp r.1).trans hp)).symm⟩

theorem placed_left (hl : refs.lookup name = none ∨ Overwritten order refs name) :
    placed tmpPath (refWrites order refs) (refPath name) v = if ∃ r ∈ refs.entries, name = sibling r.1 then none else v := by
  have ht : ∀ r : Σ _ : GoString, GoString, tmpPath (refPath r.1) = refPath name ↔ name = sibling r.1 := by
    intro r
    rw [← refPath_tmp]
    exact ⟨fun h => (refPath_injective h).symm, fun h => by rw [h, sibling]⟩
  rcases hl with hnone | ⟨_, _, _, hs, r, hr, hn⟩
  · have hp : ∀ a ∈ refWrites order refs, a.1 ≠ refPath name := by
      rw [refWrites_named hnamed]
      intro a ha hp
      obtain ⟨r, hr, rfl⟩ := mem_map.1 ha
      have hk : r.1 ∈ refs := mem_map_of_mem ((order.perm _).mem_iff.1 hr)
      exact AList.lookup_eq_none.1 hnone (refPath_injective hp ▸ hk)
    split
    · rename_i hsib
      obtain ⟨r, hr, hn⟩ := hsib
      refine placed_eq_none hp ⟨(refPath r.1, r.2 ++ ofString "\n"), ?_, (ht r).2 hn⟩
      rw [refWrites_named hnamed]
      exact mem_map.2 ⟨r, (order.perm _).mem_iff.2 hr, rfl⟩
    · rename_i hsib
      refine placed_of_ne hp fun a ha hp => hsib ?_
      rw [refWrites_named hnamed] at ha
      obtain ⟨r, hr, rfl⟩ := mem_map.1 ha
      exact ⟨r, (order.perm _).mem_iff.1 hr, (ht r).1 hp⟩
  · obtain ⟨hplaced, ho⟩ := placed_written hnamed hs
    have hm : r ∈ refs.entries := (order.perm _).mem_iff.1 (hs ▸ mem_append_right _ (mem_cons_of_mem _ hr))
    rw [hplaced, if_pos ⟨r, hm, hn⟩]
    refine placed_eq_none (fun a ha hp => ?_) ⟨_, mem_map_of_mem hr, (ht r).2 hn⟩
    obtain ⟨r', hr', rfl⟩ := mem_map.1 ha
    exact ho r' hr' (refPath_injective hp)

/-- **The refs and `packed-refs` after the writes**, whatever was there. -/
theorem writes_file? {objects : List (FilePath × GoString)} {packedRefs : GoString} {t t' : Repo}
    (ho : ∀ a ∈ objects, ∃ x y, a.1 = [ofString "objects", x, y])
    (h : Places (objects ++ (refWrites order refs ++ packedWrites packedRefs)) t t') :
    (∀ name, GoString.hasPrefix name (ofString "refs/") = true →
      t'.file? (refPath name) = placed tmpPath (refWrites order refs) (refPath name) (t.file? (refPath name))) ∧
    packedText t' = if packedRefs = [] then packedText t else packedRefs := by
  have hrefs : ∀ a ∈ refWrites order refs, ∃ c q, a.1 = ofString "refs" :: c :: q := by
    rw [refWrites_named hnamed]
    intro a ha
    obtain ⟨r, hr, rfl⟩ := mem_map.1 ha
    exact refPath_refs (hnamed r ((order.perm _).mem_iff.1 hr)).1
  have hpacked : ∀ a ∈ packedWrites packedRefs, a.1 = packedRefsPath := by
    intro a ha
    unfold packedWrites at ha
    split at ha
    · cases ha
    · rw [mem_singleton.1 ha]
  have hfile : ∀ q, t'.file? q = placed tmpPath (objects ++ (refWrites order refs ++ packedWrites packedRefs)) q (t.file? q) := by
    refine placeAll_file? (fun a ha => tmpPath_sibling ?_) h
    simp only [mem_append] at ha
    rcases ha with ha | ha | ha
    · obtain ⟨x, y, hp⟩ := ho a ha
      exact hp ▸ cons_ne_nil _ _
    · obtain ⟨c, q, hp⟩ := hrefs a ha
      exact hp ▸ cons_ne_nil _ _
    · exact hpacked a ha ▸ cons_ne_nil _ _
  -- the writes of the objects keep clear of the refs and of `packed-refs`
  have hobject : ∀ {q v}, q.head? ≠ some (ofString "objects") → placed tmpPath objects q v = v := by
    intro q v hq
    refine placed_of_ne (fun a ha hpath => hq ?_) fun a ha hpath => hq ?_
    · obtain ⟨x, y, hp⟩ := ho a ha
      rw [← hpath, hp]
      rfl
    · obtain ⟨x, y, hp⟩ := ho a ha
      rw [← hpath, hp]
      rfl
  refine ⟨fun name hn => ?_, ?_⟩
  · obtain ⟨c, q, hq⟩ := refPath_refs hn
    have hhead : (refPath name).head? ≠ some (ofString "objects") := by
      rw [hq, List.head?_cons]
      decide
    rw [hfile, placed_append, placed_append, hobject hhead, placed_of_ne]
    · intro a ha hpath
      rw [hpacked a ha, hq] at hpath
      cases hpath
    · intro a ha hpath
      rw [hpacked a ha, hq] at hpath
      cases hpath
  · rw [packedText, hfile, placed_append, placed_append, hobject (by decide),
      placed_of_ne (l := refWrites order refs)]
    · unfold packedWrites
      split
      · rfl
      · rfl
    · intro a ha hpath
      obtain ⟨c, q, hp⟩ := hrefs a ha
      rw [hp] at hpath
      cases hpath
    · intro a ha hpath
      obtain ⟨c, q, hp⟩ := hrefs a ha
      rw [hp, tmpPath_cons (cons_ne_nil c q)] at hpath
      cases hpath

end Jamsesh.Objectstore
