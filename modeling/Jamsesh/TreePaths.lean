import Jamsesh.MergeNames
/-!
# TreePaths — the paths of directories and the order in which they are written

`buildTree` collects the directories above every path (`mem_dirsAbove`) and writes the deepest first
(`not_dirLe_dirOf`).  Names are sorted as they are, while git sorts a directory as if its name ended in a slash: the orders
differ when a name goes on behind a directory's with a character before the slash (`Shadows`).
-/
namespace Jamsesh.Automerger

open Git List Text

/-! ## Taking paths apart -/

theorem joinSegments_segments (p : Path) : joinSegments (segments p) = p := by
  rw [joinSegments, segments, split, intercalate_splitOn, String.ofList_toList]

theorem segments_ne_nil (p : Path) : segments p ≠ [] := splitOn_ne_nil _ _

variable {p d c : Path} {name s t : String}

theorem segments_injective {q : Path} (h : segments p = segments q) : p = q := by
  rw [← joinSegments_segments p, h, joinSegments_segments]

theorem segments_joinSegments {l : List Text} (hl : l ≠ []) (h : ∀ s ∈ l, '/' ∉ s) : segments (joinSegments l) = l := by
  rw [segments, joinSegments, String.toList_ofList, split, splitOn_intercalate _ h hl]

theorem segments_append (p q : Path) : segments (p ++ "/" ++ q) = segments p ++ segments q := by
  have ht : (p ++ "/" ++ q).toList = p.toList ++ '/' :: q.toList := by simp
  rw [segments, ht, split_append_cons, segments, segments]

theorem segments_of_name (h : '/' ∉ name.toList) : segments name = [name.toList] := split_of_not_mem h

theorem joinPath_of_ne (hd : d ≠ "") (name : String) : joinPath d name = d ++ "/" ++ name := by
  rw [joinPath, if_pos hd]

section
variable {d : Path} {name : String} (h : '/' ∉ name.toList)

include h

theorem segments_joinPath (hd : d ≠ "") : segments (joinPath d name) = segments d ++ [name.toList] := by
  rw [joinPath_of_ne hd, segments_append, segments_of_name h]

theorem dirOf_joinPath : dirOf (joinPath d name) = d := by
  by_cases hd : d = ""
  · subst hd
    rw [joinPath_root, dirOf, segments_of_name h]
    rfl
  · rw [dirOf, segments_joinPath h hd, dropLast_concat, joinSegments_segments]

theorem baseOf_joinPath : baseOf (joinPath d name) = name := by
  by_cases hd : d = ""
  · subst hd
    rw [joinPath_root, baseOf, segments_of_name h]
    exact String.ofList_toList
  · rw [baseOf, segments_joinPath h hd, getLastD_concat, String.ofList_toList]

theorem joinPath_inj {d' : Path} {name' : String} (h' : '/' ∉ name'.toList) (heq : joinPath d name = joinPath d' name') :
    d = d' ∧ name = name' := by
  refine ⟨?_, ?_⟩
  · rw [← dirOf_joinPath (d := d) h, heq, dirOf_joinPath h']
  · rw [← baseOf_joinPath h, heq, baseOf_joinPath h']

end

/-- **A path that git allows**: none of its names is empty, a dot or two dots. -/
def ValidPath (p : Path) : Prop := ∀ s ∈ segments p, Node.validName (String.ofList s) = true

instance (p : Path) : Decidable (ValidPath p) :=
  inferInstanceAs (Decidable (∀ s ∈ segments p, Node.validName (String.ofList s) = true))

theorem ValidPath.ne_nil (h : ValidPath p) : ∀ s ∈ segments p, s ≠ [] := by
  intro s hs hn
  have hv := h s hs
  rw [hn] at hv
  exact absurd hv (by decide)

theorem ValidPath.ne_empty (h : ValidPath p) : p ≠ "" := by
  rintro rfl
  exact h.ne_nil [] (by decide) rfl

theorem intercalate_ne_nil {l : List Text} (hl : l ≠ []) (h : ∀ s ∈ l, s ≠ []) : ['/'].intercalate l ≠ [] := by
  cases l with
  | nil => exact absurd rfl hl
  | cons s l =>
    cases l with
    | nil => simpa using h s mem_cons_self
    | cons => simp

theorem ValidPath.joinPath (h : ValidPath p) : joinPath (dirOf p) (baseOf p) = p := by
  obtain ⟨init, last, hp⟩ : ∃ init last, segments p = init ++ [last] := split_eq_concat '/' p.toList
  have hd : dirOf p = joinSegments init := by rw [dirOf, hp, dropLast_concat]
  have hb : baseOf p = String.ofList last := by rw [baseOf, hp, getLastD_concat]
  have hslash : '/' ∉ last := not_mem_of_mem_split (by rw [← segments, hp]; simp)
  rw [hd, hb]
  by_cases hi : init = []
  · subst hi
    rw [show joinSegments [] = "" from rfl, joinPath_root]
    apply segments_injective
    rw [segments_of_name (by simpa using hslash), hp, String.toList_ofList]
    rfl
  · have hne : joinSegments init ≠ "" := by
      intro he
      refine intercalate_ne_nil hi (fun s hs => h.ne_nil s ?_) (String.ofList_eq_empty_iff.1 he)
      rw [hp]
      exact mem_append_left _ hs
    have hslashes : ∀ s ∈ init, '/' ∉ s := fun s hs =>
      not_mem_of_mem_split (by rw [← segments, hp]; exact mem_append_left _ hs)
    apply segments_injective
    rw [segments_joinPath (by simpa using hslash) hne, segments_joinSegments hi hslashes, hp, String.toList_ofList]

theorem slash_not_mem_baseOf (p : Path) : '/' ∉ (baseOf p).toList := by
  have hm : (segments p).getLastD [] ∈ segments p := by
    rw [getLastD_eq_getLast?, List.getLast?_eq_getLast_of_ne_nil (segments_ne_nil p)]
    exact getLast_mem _
  rw [baseOf, String.toList_ofList]
  exact not_mem_of_mem_split hm

theorem validPath_joinPath (hd : d = "" ∨ ValidPath d) (hn : Node.validName name = true) :
    ValidPath (joinPath d name) := by
  have hslash := validName_no_slash hn
  rcases hd with rfl | hd
  · intro s hs
    rw [joinPath_root, segments_of_name hslash] at hs
    rw [mem_singleton.1 hs, String.ofList_toList]
    exact hn
  · intro s hs
    rw [segments_joinPath hslash hd.ne_empty] at hs
    rcases mem_append.1 hs with hs | hs
    · exact hd s hs
    · rw [mem_singleton.1 hs, String.ofList_toList]
      exact hn

/-! ## The directories above a path -/

theorem mem_drop_inits {α : Type} {l : List α} : ∀ {segs : List α}, l ∈ segs.inits.drop 1 ↔ l ≠ [] ∧ l <+: segs
  | [] => by simp
  | a :: segs => by
    rw [inits_cons, drop_one, tail_cons]
    constructor
    · intro h
      obtain ⟨l', hl', rfl⟩ := mem_map.1 h
      exact ⟨cons_ne_nil a l', cons_prefix_cons.2 ⟨rfl, (mem_inits l' segs).1 hl'⟩⟩
    · rintro ⟨hne, hp⟩
      cases l with
      | nil => exact absurd rfl hne
      | cons b l' =>
        obtain ⟨rfl, hl'⟩ := cons_prefix_cons.1 hp
        exact mem_map_of_mem ((mem_inits l' segs).2 hl')

theorem mem_properInits {α : Type} {l segs : List α} :
    l ∈ (segs.inits.drop 1).dropLast ↔ l ≠ [] ∧ ∃ t, t ≠ [] ∧ l ++ t = segs := by
  induction segs using List.reverseRecOn with
  | nil => simp
  | append_singleton init last =>
    have hs : ((init ++ [last]).inits.drop 1).dropLast = init.inits.drop 1 := by
      have hne : 1 ≤ init.inits.length := by simp
      have hl : (([last]).inits.tail).map (fun l => init ++ l) = [init ++ [last]] := by simp
      rw [inits_append, hl, drop_append_of_le_length hne, dropLast_concat]
    rw [hs, mem_drop_inits]
    refine and_congr_right (fun _ => ?_)
    constructor
    · rintro ⟨t, rfl⟩
      exact ⟨t ++ [last], by simp, by simp⟩
    · rintro ⟨t, ht, heq⟩
      obtain ⟨t', x, rfl⟩ := (eq_nil_or_concat' t).resolve_left ht
      rw [← append_assoc] at heq
      obtain ⟨hi, -⟩ := append_inj' heq rfl
      exact ⟨t', hi⟩

theorem mem_dirsAbove : c ∈ dirsAbove p ↔ ∃ q, p = c ++ "/" ++ q := by
  rw [dirsAbove, mem_map]
  constructor
  · rintro ⟨l, hl, rfl⟩
    obtain ⟨hne, t, ht, hsegs⟩ := mem_properInits.1 hl
    have hslash : ∀ s ∈ l ++ t, '/' ∉ s := by
      rw [hsegs]
      exact fun s hs => not_mem_of_mem_split hs
    refine ⟨joinSegments t, segments_injective ?_⟩
    rw [segments_append, segments_joinSegments hne (fun s hs => hslash s (mem_append_left t hs)),
      segments_joinSegments ht (fun s hs => hslash s (mem_append_right l hs)), hsegs]
  · rintro ⟨q, rfl⟩
    refine ⟨segments c, mem_properInits.2 ⟨segments_ne_nil c, segments q, segments_ne_nil q, ?_⟩, joinSegments_segments c⟩
    rw [segments_append]

theorem dirsAbove_empty : dirsAbove "" = [] := by
  refine eq_nil_iff_forall_not_mem.2 (fun c hc => ?_)
  obtain ⟨q, hq⟩ := mem_dirsAbove.1 hc
  exact absurd (congrArg String.toList hq) (by simp)

theorem mem_dirsAbove_joinPath (h : '/' ∉ name.toList) :
    c ∈ dirsAbove (joinPath d name) ↔ d ≠ "" ∧ (c = d ∨ c ∈ dirsAbove d) := by
  rw [mem_dirsAbove]
  constructor
  · rintro ⟨q, hq⟩
    have hd : d ≠ "" := by
      rintro rfl
      rw [joinPath_root] at hq
      refine h ?_
      rw [hq]
      simp
    refine ⟨hd, ?_⟩
    have hsegs := congrArg segments hq
    rw [segments_joinPath h hd, segments_append] at hsegs
    obtain ⟨init, _, hi⟩ := (eq_nil_or_concat' (segments q)).resolve_left (segments_ne_nil q)
    rw [hi, ← append_assoc] at hsegs
    obtain ⟨hsegs, -⟩ := append_inj' hsegs rfl
    by_cases hn : init = []
    · rw [hn, append_nil] at hsegs
      exact .inl (segments_injective hsegs).symm
    have hslash : ∀ s ∈ init, '/' ∉ s := fun s hs =>
      not_mem_of_mem_split (by rw [← segments, hsegs]; exact mem_append_right _ hs)
    refine .inr (mem_dirsAbove.2 ⟨joinSegments init, segments_injective ?_⟩)
    rw [segments_append, segments_joinSegments hn hslash, hsegs]
  · rintro ⟨hd, rfl | hc⟩
    · exact ⟨name, joinPath_of_ne hd name⟩
    · obtain ⟨q, rfl⟩ := mem_dirsAbove.1 hc
      refine ⟨q ++ "/" ++ name, ?_⟩
      rw [joinPath_of_ne hd]
      simp only [String.append_assoc]

theorem ValidPath.of_dirsAbove (hp : ValidPath p) (h : c ∈ dirsAbove p) : ValidPath c := by
  obtain ⟨q, rfl⟩ := mem_dirsAbove.1 h
  intro s hs
  refine hp s ?_
  rw [segments_append]
  exact mem_append_left _ hs

/-! ## Children before parents -/

theorem depth_append (p q : Path) : depth (p ++ "/" ++ q) = depth p + 1 + depth q := by
  simp only [depth, String.toList_append, count_append]
  rfl

theorem depth_of_name (h : '/' ∉ name.toList) : depth name = 0 := count_eq_zero.2 h

theorem dirLe_trans {a b : Path} (hab : dirLe a b = true) (hbc : dirLe b c = true) : dirLe a c = true := by
  unfold dirLe at *
  split at hab <;> split at hbc <;> split <;> simp only [decide_eq_true_eq] at * <;> try omega
  exact hbc.trans hab

theorem dirLe_total (a b : Path) : (dirLe a b || dirLe b a) = true := by
  unfold dirLe
  by_cases h : depth a = depth b
  · rw [if_neg (not_not.2 h), if_neg (not_not.2 h.symm)]
    simpa using le_total b a
  · rw [if_pos h, if_pos (Ne.symm h)]
    simp only [Bool.or_eq_true, decide_eq_true_eq]
    omega

theorem not_dirLe_dirOf (h : ValidPath c) : dirLe (dirOf c) c = false := by
  have hs := slash_not_mem_baseOf c
  have hd : depth c = if dirOf c = "" then 0 else depth (dirOf c) + 1 := by
    conv => lhs; rw [← h.joinPath]
    split
    · rename_i hr
      rw [hr, joinPath_root, depth_of_name hs]
    · rename_i hdir
      rw [joinPath_of_ne hdir, depth_append, depth_of_name hs]
  unfold dirLe
  by_cases hr : dirOf c = ""
  · rw [if_pos hr] at hd
    rw [hr, if_neg (not_not.2 (hd.symm ▸ rfl)), decide_eq_false_iff_not]
    intro hle
    have hp : "" < c := String.lt_iff_toList_lt.2 (by
      cases hc : c.toList with
      | nil => exact absurd (String.toList_eq_nil_iff.1 hc) h.ne_empty
      | cons x l => exact nil_lt_cons x l)
    exact absurd hle (not_le.2 hp)
  · rw [if_neg hr] at hd
    rw [if_pos (by omega), decide_eq_false_iff_not]
    omega

/-! ## Names in git's order -/

/-- **A name goes on behind another with a character before the slash**, so that git puts it before a directory of that name. -/
def Shadows (s t : String) : Prop := ∃ x rest, t.toList = s.toList ++ x :: rest ∧ x < '/'

instance (s t : String) : Decidable (Shadows s t) :=
  decidable_of_iff (s.toList <+: t.toList ∧ (t.toList.drop s.toList.length).head?.any (· < '/') = true) <| by
    constructor
    · rintro ⟨⟨rest, hrest⟩, hany⟩
      rw [← hrest, drop_left] at hany
      obtain ⟨x, hx, hlt⟩ := (Option.any_eq_true _ _).1 hany
      obtain ⟨tail, rfl⟩ := List.head?_eq_some_iff.1 hx
      exact ⟨x, tail, hrest.symm, of_decide_eq_true hlt⟩
    · rintro ⟨x, rest, ht, hlt⟩
      refine ⟨⟨x :: rest, ht.symm⟩, ?_⟩
      rw [ht, drop_left]
      exact decide_eq_true hlt

theorem lt_append_cons (x : Char) (rest : List Char) : ∀ s : List Char, s < s ++ x :: rest
  | [] => nil_lt_cons x rest
  | _ :: s => cons_lt_cons_iff.2 (.inr ⟨rfl, lt_append_cons x rest s⟩)

theorem Shadows.lt (h : Shadows s t) : s < t := by
  obtain ⟨x, rest, ht, -⟩ := h
  rw [String.lt_iff_toList_lt, ht]
  exact lt_append_cons x rest s.toList

theorem lt_append_slash : ∀ {s t : List Char}, ¬ t < s ++ ['/'] ↔ s < t ∧ ¬ ∃ x rest, t = s ++ x :: rest ∧ x < '/'
  | [], [] => by simp
  | [], x :: t => by
    simp only [nil_append, cons_lt_cons_iff, not_lt_nil, and_false, or_false, nil_lt_cons, true_and,
      List.cons.injEq, not_lt]
    constructor
    · rintro hle ⟨y, _, ⟨rfl, _⟩, hy⟩
      exact absurd hy (not_lt.2 hle)
    · intro h
      exact not_lt.1 (fun hlt => h ⟨x, t, ⟨rfl, rfl⟩, hlt⟩)
  | a :: s, [] => by simp
  | a :: s, b :: t => by
    simp only [cons_append, cons_lt_cons_iff, List.cons.injEq]
    rcases lt_trichotomy a b with hlt | rfl | hlt
    · simp only [hlt, lt_asymm hlt, hlt.ne', false_and, or_false, true_or, true_and, exists_false]
    · simp only [lt_irrefl, false_or, true_and]
      exact lt_append_slash
    · simp [lt_asymm hlt, hlt, hlt.ne']

theorem slash_le_iff : s ++ "/" ≤ t ↔ s < t ∧ ¬ Shadows s t := by
  rw [← not_lt, String.lt_iff_toList_lt, String.lt_iff_toList_lt, String.toList_append]
  exact lt_append_slash

theorem le_slash (s : String) : s ≤ s ++ "/" := by
  refine not_lt.1 (fun hlt => ?_)
  have hs : s ++ "/" ≤ s := hlt.le
  exact lt_irrefl s (slash_le_iff.1 hs).1

theorem slash_le_slash_iff (h : s < t) : s ++ "/" ≤ t ++ "/" ↔ ¬ Shadows s t := by
  constructor
  · rintro hle ⟨x, rest, ht, hx⟩
    rw [slash_le_iff] at hle
    refine hle.2 ⟨x, rest ++ ['/'], ?_, hx⟩
    rw [String.toList_append, ht]
    simp
  · intro hno
    exact (slash_le_iff.2 ⟨h, hno⟩).trans (le_slash t)

end Jamsesh.Automerger
