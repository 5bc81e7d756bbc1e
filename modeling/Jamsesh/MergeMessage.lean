import Jamsesh.HeldCommits
/-!
# MergeMessage — what is read of the auto-merger's trailers

The message of a merge commit carries the source commit's summary and the value of its `Resolves-Conflict`.  Read back, the
block has the trailers that were written and no other, with their values, unless that of `Resolves-Conflict` starts with white
space (`mergeMessage_exact_iff`).
-/
namespace Jamsesh.Automerger

open Git Option Text Trailers

/-- **The trailers of a merge**, as they are meant. -/
def mergeMap (source : Commit) (sourceRef : String) (resolvedBy : Option Heuristic) : List Trailer :=
  let resolves := (lookup source.message.toList "Resolves-Conflict".toList).getD []
  [⟨"Auto-Merger".toList, "true".toList⟩, ⟨"Source-Commit".toList, source.hash.text⟩, ⟨"Source-Ref".toList, sourceRef.toList⟩] ++
    resolvedBy.toList.map (fun h => ⟨"Auto-Resolved".toList, h.label.toList⟩) ++
    if resolves ≠ [] then [⟨"Resolves-Conflict".toList, resolves⟩] else []

section
variable {source : Commit} {sourceRef : String} {resolvedBy : Option Heuristic}

theorem mergeTrailers_eq :
    mergeTrailers source sourceRef resolvedBy =
      (mergeMap source sourceRef resolvedBy).map (fun t => t.key ++ ':' :: ' ' :: t.value) := by
  simp only [mergeTrailers, mergeMap, List.map_append, List.map_map]
  split <;> rfl

theorem composeMergeMessage_toList : (composeMergeMessage source sourceRef resolvedBy).toList =
    "Auto-merge: ".toList ++ commitSummary source.message.toList ++ "\n\n".toList ++
      ['\n'].intercalate (mergeTrailers source sourceRef resolvedBy) ++ ['\n'] := String.toList_ofList

theorem text_visible (h : Hash) : h.text ≠ [] ∧ ∀ c ∈ h.text, isReSpace c = false := by
  have hh : ∀ k : Fin 16, isReSpace (hexChar k.val) = false := by decide
  constructor
  · intro hn
    have hl := h.length_eq
    rw [Hash.text, List.flatMap_eq_nil_iff] at hn
    cases hb : h.bytes with
    | nil => simp [hb] at hl
    | cons b => simpa using hn b (by simp [hb])
  · intro c hc
    obtain ⟨b, -, hc⟩ := List.mem_flatMap.1 hc
    simp only [List.mem_cons, List.not_mem_nil, or_false] at hc
    rcases hc with rfl | rfl
    · exact hh ⟨b.val / 16, by omega⟩
    · exact hh ⟨b.val % 16, by omega⟩

theorem isReSpace_of_isSpace {c : Char} (h : isSpace c = false) : isReSpace c = false := by
  by_contra hre
  simp only [isReSpace, Bool.not_eq_false, decide_eq_true_eq] at hre
  have ha : ∀ d ∈ ['\t', '\n', '\x0c', '\r', ' '], isSpace d = true := by simp [isSpace]
  rw [ha c hre] at h
  cases h

/-- A trailer of a merge has a key and a value; only that of `Resolves-Conflict` can have white space in it. -/
theorem mergeMap_trailer (hr : sourceRef ≠ "") (hs : ∀ c ∈ sourceRef.toList, isSpace c = false) {t : Trailer}
    (h : t ∈ mergeMap source sourceRef resolvedBy) : isKey t.key = true ∧ t.value ≠ [] ∧
      ((∀ c ∈ t.value, isReSpace c = false) ∨ lookup source.message.toList "Resolves-Conflict".toList = some t.value) := by
  have hk : ∀ key ∈ ["Auto-Merger", "Source-Commit", "Source-Ref", "Auto-Resolved", "Resolves-Conflict"],
      isKey key.toList = true := by decide
  have ht : "true".toList ≠ [] ∧ ∀ c ∈ "true".toList, isReSpace c = false := by simp [isReSpace]
  have hl : ∀ r : Heuristic, r.label.toList ≠ [] ∧ ∀ c ∈ r.label.toList, isReSpace c = false := by
    intro r
    cases r <;> simp [Heuristic.label, isReSpace]
  have htext := text_visible source.hash
  unfold mergeMap at h
  generalize lookup source.message.toList "Resolves-Conflict".toList = resolves at h ⊢
  simp only [List.mem_append, List.mem_cons, List.not_mem_nil, or_false, List.mem_map] at h
  rcases h with ((rfl | rfl | rfl) | ⟨r, -, rfl⟩) | h
  · exact ⟨hk _ (by simp), ht.1, .inl ht.2⟩
  · exact ⟨hk _ (by simp), htext.1, .inl htext.2⟩
  · exact ⟨hk _ (by simp), by simpa using hr, .inl fun c hc => isReSpace_of_isSpace (hs c hc)⟩
  · exact ⟨hk _ (by simp), (hl r).1, .inl (hl r).2⟩
  split at h
  · rename_i hne
    cases List.mem_singleton.1 h
    refine ⟨hk _ (by simp), hne, .inr ?_⟩
    cases resolves with
    | none => exact absurd rfl hne
    | some => rfl
  · cases h

theorem commitSummary_plain {message : Text} (hcr : '\r' ∉ message) :
    '\n' ∉ commitSummary message ∧ '\r' ∉ commitSummary message := by
  unfold commitSummary
  dsimp only
  split
  · have hs : trimSpace (beforeNewline (trimSpace message)) ⊆ beforeNewline (trimSpace message) :=
      trimSpace_subset _
    refine ⟨fun h => absurd (List.mem_takeWhile_imp (hs h)) (by simp), fun h => hcr ?_⟩
    exact trimSpace_subset _ ((List.takeWhile_prefix _).subset (hs h))
  · rename_i h
    exact ⟨h, fun hin => hcr (trimSpace_subset _ hin)⟩

theorem parseTrailers_composeMergeMessage (hcr : '\r' ∉ source.message.toList) (href : sourceRef ≠ "")
    (hspace : ∀ c ∈ sourceRef.toList, isSpace c = false) :
    parseTrailers (composeMergeMessage source sourceRef resolvedBy).toList =
      some ((mergeMap source sourceRef resolvedBy).map (fun t => ⟨t.key, reread t.value⟩)) := by
  have hm : List.Forall₂ (fun line t => matchTrailer line = some t)
      ((mergeMap source sourceRef resolvedBy).map (fun t => t.key ++ ':' :: ' ' :: t.value))
      ((mergeMap source sourceRef resolvedBy).map (fun t => ⟨t.key, reread t.value⟩)) := by
    rw [List.forall₂_map_left_iff, List.forall₂_map_right_iff, List.forall₂_same]
    intro t ht
    obtain ⟨hk, hv, -⟩ := mergeMap_trailer href hspace ht
    exact matchTrailer_key hk hv
  have hp : ∀ line ∈ ("Auto-merge: ".toList ++ commitSummary source.message.toList) ::
      (mergeMap source sourceRef resolvedBy).map (fun t => t.key ++ ':' :: ' ' :: t.value), '\n' ∉ line ∧ '\r' ∉ line := by
    have hf : '\n' ∉ "Auto-merge: ".toList ∧ '\r' ∉ "Auto-merge: ".toList := by decide
    have hs := commitSummary_plain hcr
    rw [List.forall_mem_cons, List.forall_mem_map]
    simp only [List.mem_append, not_or, List.mem_cons]
    refine ⟨⟨⟨hf.1, hs.1⟩, hf.2, hs.2⟩, fun t ht => ?_⟩
    obtain ⟨hk, -, hvalue⟩ := mergeMap_trailer href hspace ht
    have hv : '\n' ∉ t.value ∧ '\r' ∉ t.value := by
      rcases hvalue with hvisible | hl
      · exact ⟨fun h => absurd (hvisible _ h) (by decide), fun h => absurd (hvisible _ h) (by decide)⟩
      · exact lookup_plain hcr hl
    exact ⟨⟨not_mem_of_isKey hk (by decide), by decide, by decide, hv.1⟩,
      not_mem_of_isKey hk (by decide), by decide, by decide, hv.2⟩
  have hne : (mergeMap source sourceRef resolvedBy).map (fun t => t.key ++ ':' :: ' ' :: t.value) ≠ [] := by
    rw [ne_eq, List.map_eq_nil_iff]
    exact List.cons_ne_nil _ _
  have hr := parseTrailers_written hne hm hp
  rwa [← mergeTrailers_eq, ← composeMergeMessage_toList] at hr

theorem mergeMap_resolves {v : Text} (hv : lookup source.message.toList "Resolves-Conflict".toList = some v) (hne : v ≠ []) :
    (mergeMap source sourceRef resolvedBy).find? (fun t => t.key = "Resolves-Conflict".toList) =
      some ⟨"Resolves-Conflict".toList, v⟩ := by
  have hk : ∀ key ∈ ["Auto-Merger", "Source-Commit", "Source-Ref", "Auto-Resolved"],
      key.toList ≠ "Resolves-Conflict".toList := by decide
  rw [mergeMap, hv, getD_some]
  generalize "Resolves-Conflict".toList = resolves at hk
  simp only [if_pos hne]
  rw [List.find?_append, List.find?_eq_none.2, none_or, List.find?_cons_of_pos (by simp)]
  intro t ht
  simp only [List.mem_append, List.mem_cons, List.not_mem_nil, or_false, List.mem_map] at ht
  rw [decide_eq_true_eq]
  rcases ht with (rfl | rfl | rfl) | ⟨r, -, rfl⟩ <;> exact hk _ (by simp)

theorem lookup_composeMergeMessage (hcr : '\r' ∉ source.message.toList) (hr : sourceRef ≠ "")
    (hs : ∀ c ∈ sourceRef.toList, isSpace c = false) (key : Text) :
    lookup (composeMergeMessage source sourceRef resolvedBy).toList key =
      ((mergeMap source sourceRef resolvedBy).find? (fun t => t.key = key)).map (fun t => reread t.value) := by
  rw [lookup, parseTrailers_composeMergeMessage hcr hr hs, getD_some, List.find?_map, map_map]
  rfl

end

/-- **The trailers of a merge are read as they are meant exactly when the source's `Resolves-Conflict` has one character or
does not start with white space.** -/
theorem mergeMessage_exact_iff (source : Commit) (sourceRef : String) (resolvedBy : Option Heuristic)
    (hcr : '\r' ∉ source.message.toList) (href : sourceRef ≠ "") (hspace : ∀ c ∈ sourceRef.toList, isSpace c = false) :
    (∀ key, lookup (composeMergeMessage source sourceRef resolvedBy).toList key =
        ((mergeMap source sourceRef resolvedBy).find? (fun t => t.key = key)).map (·.value)) ↔
      ∀ v, lookup source.message.toList "Resolves-Conflict".toList = some v →
        v.tail = [] ∨ ∀ c, v.head? = some c → isReSpace c = false := by
  constructor
  · intro h v hv
    by_cases hne : v = []
    · exact .inl (by rw [hne, List.tail_nil])
    · have hk := h "Resolves-Conflict".toList
      rw [lookup_composeMergeMessage hcr href hspace, mergeMap_resolves hv hne, map_some, map_some] at hk
      exact (reread_eq_self_iff hne).1 (some.inj hk)
  · intro h _
    rw [lookup_composeMergeMessage hcr href hspace]
    refine map_congr fun t ht => ?_
    obtain ⟨-, hne, hvalue⟩ := mergeMap_trailer href hspace (List.mem_of_find?_eq_some ht)
    refine (reread_eq_self_iff hne).2 ?_
    rcases hvalue with hvisible | hl
    · exact .inr fun c hc => hvisible c (List.mem_of_mem_head? hc)
    · exact h _ hl

def saying (message : String) : Commit := ⟨.ofByte 1, [], .zero, message, "", ""⟩

theorem mergeMessage_exact_resolved :
    (∀ key, lookup (composeMergeMessage (saying "x\n\nResolves-Conflict: c") "r" (some .additions)).toList key =
        ((mergeMap (saying "x\n\nResolves-Conflict: c") "r" (some .additions)).find? (fun t => t.key = key)).map (·.value)) ↔
      ∀ v, lookup "x\n\nResolves-Conflict: c".toList "Resolves-Conflict".toList = some v →
        v.tail = [] ∨ ∀ c, v.head? = some c → isReSpace c = false :=
  mergeMessage_exact_iff (saying "x\n\nResolves-Conflict: c") "r" (some .additions) (by decide) (by decide)
    (by simp [isSpace])

/-- **A folded value comes back without the blanks before it.** -/
theorem folded_resolves_changed :
    lookup "x\n\nResolves-Conflict:  \n c".toList "Resolves-Conflict".toList = some "  c".toList ∧
      lookup (composeMergeMessage (saying "x\n\nResolves-Conflict:  \n c") "r" none).toList "Resolves-Conflict".toList =
        some "c".toList := by
  decide +kernel

end Jamsesh.Automerger
