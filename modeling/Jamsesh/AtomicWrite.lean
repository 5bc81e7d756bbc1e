import Jamsesh.FileTree
/-!
# AtomicWrite — files written next to their places and renamed

A file is put in its place by making its directory, writing a sibling and renaming it.  Many files put so fit when none is in
another's way (`placeAll_ok`); a file whose path is the sibling of a later one is gone (`placed`).
-/
namespace Jamsesh.FileTree

open List

variable {C D : Type}

theorem prefix_dropLast {q p : List C} (h : q <+: p) (hne : q ≠ p) : q <+: p.dropLast := by
  have hp : p ≠ [] := by
    rintro rfl
    exact hne (prefix_nil.1 h)
  rw [← dropLast_concat_getLast hp] at h
  refine (prefix_concat_iff.1 h).resolve_left ?_
  rw [dropLast_concat_getLast hp]
  exact hne

theorem not_prefix_dropLast {p : List C} (hp : p ≠ []) : ¬ p <+: p.dropLast := by
  intro h
  have hl := h.length_le
  have hpos := length_pos_iff.2 hp
  rw [length_dropLast] at hl
  omega

variable [DecidableEq C]

def place (t : FileTree C D) (tmp p : List C) (data : D) : Except FileErr (FileTree C D) := do
  let t₁ ← t.mkdirAll p.dropLast
  let t₂ ← t₁.writeFile tmp data
  t₂.rename tmp p

structure Sibling (tmp p : List C) : Prop where
  dir : tmp.dropLast = p.dropLast
  ne : tmp ≠ p
  left : tmp ≠ []
  right : p ≠ []

section
variable {t t' : FileTree C D} {tmp p q : List C} {data : D}

theorem any_prefix_iff : t.files.keys.any (·.isPrefixOf q) = true ↔ ∃ k, t.isFile k ∧ k <+: q := by
  simp only [any_eq_true, mem_keys_iff, isFile_iff, isPrefixOf_iff_prefix]

theorem mkdirAll_ok (hr : ∀ k, t.isFile k → ¬ k <+: q) : t.mkdirAll q = .ok { t with dirs := q :: t.dirs } := by
  rw [mkdirAll, if_neg]
  intro ha
  obtain ⟨k, hk, hp⟩ := any_prefix_iff.1 ha
  exact hr k hk hp

theorem mkdirAll_isDir (k : List C) :
    ({ t with dirs := q :: t.dirs }).isDir k = true ↔ t.isDir k = true ∨ k <+: q := by
  have hf : ∀ k, ({ t with dirs := q :: t.dirs }).isFile k = t.isFile k := fun _ => rfl
  simp only [isDir_iff, mem_cons, exists_eq_or_imp]
  constructor
  · rintro (hk | (hk | hk) | hk)
    · exact .inl (.inl hk)
    · exact .inr hk
    · exact .inl (.inr (.inl hk))
    · exact .inl (.inr (.inr hk))
  · rintro ((hk | hk | hk) | hk)
    · exact .inl hk
    · exact .inr (.inl (.inr hk))
    · exact .inr (.inr hk)
    · exact .inr (.inl (.inl hk))

theorem blocked_of_dir (hd : q.dropLast ∈ t.dirs) (hr : t.files.keys.any (·.isPrefixOf q.dropLast) = false) :
    t.blocked q = if t.isDir q then some .isDir else none := by
  have hp : t.isDir q.dropLast = true := isDir_iff.2 (.inr (.inl ⟨_, hd, prefix_refl _⟩))
  rw [blocked, hr, hp]
  rfl

theorem place_eq (h : Sibling tmp p) : t.place tmp p data =
    if t.files.keys.any (·.isPrefixOf p.dropLast) then .error .notDir
    else if t.isDir tmp || t.isDir p then .error .isDir
    else .ok ⟨((t.files.insert tmp data).erase tmp).insert p data, p.dropLast :: t.dirs⟩ := by
  unfold place mkdirAll
  split
  · rfl
  rename_i hr
  rw [Bool.not_eq_true] at hr
  have hmade : ∀ q : List C, q ≠ [] → q.dropLast = p.dropLast →
      ({ t with dirs := p.dropLast :: t.dirs }).isDir q = t.isDir q := by
    intro q hq hdir
    rw [Bool.eq_iff_iff, isDir_iff, isDir_iff]
    refine or_congr_right (or_congr_left ?_)
    simp only [mem_cons, exists_eq_or_imp]
    exact or_iff_right (hdir ▸ not_prefix_dropLast hq)
  have hwrite : ({ t with dirs := p.dropLast :: t.dirs }).blocked tmp =
      if t.isDir tmp then some .isDir else none := by
    rw [blocked_of_dir (h.dir ▸ mem_cons_self) (h.dir ▸ hr), hmade tmp h.left h.dir]
  simp only [bind, Except.bind, writeFile, hwrite]
  cases t.isDir tmp with
  | true => rfl
  | false =>
    -- the sibling is no directory above the place
    have hdir : ({ t with files := t.files.insert tmp data, dirs := p.dropLast :: t.dirs }).isDir p = t.isDir p := by
      rw [← hmade p h.right rfl, Bool.eq_iff_iff, isDir_iff, isDir_iff]
      refine or_congr_right (or_congr_right (exists_congr fun q => and_congr_left fun hq => ?_))
      have hne : q ≠ tmp := by
        rintro rfl
        exact not_prefix_dropLast h.right (h.dir ▸ prefix_dropLast hq.1 hq.2)
      rw [isFile, isFile, file?, file?, AList.lookup_insert_ne hne]
    have hroom' : ({ t with files := t.files.insert tmp data, dirs := p.dropLast :: t.dirs }).files.keys.any
        (·.isPrefixOf p.dropLast) = false := by
      rw [Bool.eq_false_iff] at hr ⊢
      intro ha
      obtain ⟨k, hk, hp⟩ := any_prefix_iff.1 ha
      have hne : k ≠ tmp := by
        rintro rfl
        exact not_prefix_dropLast h.left (h.dir ▸ hp)
      rw [isFile, file?, AList.lookup_insert_ne hne] at hk
      exact hr (any_prefix_iff.2 ⟨k, hk, hp⟩)
    have hrename : ({ t with files := t.files.insert tmp data, dirs := p.dropLast :: t.dirs }).blocked p =
        if t.isDir p then some .isDir else none := by
      rw [blocked_of_dir mem_cons_self hroom', hdir]
    simp only [Bool.false_eq_true, if_false, rename, file?, AList.lookup_insert, hrename]
    cases t.isDir p <;> rfl

theorem place_ok (h : Sibling tmp p) (hr : ∀ q, t.isFile q → ¬ q <+: p.dropLast) (ht : t.isDir tmp = false)
    (hp : t.isDir p = false) : ∃ t', t.place tmp p data = .ok t' := by
  have ha : t.files.keys.any (·.isPrefixOf p.dropLast) = false := by
    rw [Bool.eq_false_iff]
    intro ha
    obtain ⟨k, hk, hpre⟩ := any_prefix_iff.1 ha
    exact hr k hk hpre
  rw [place_eq h, ha, ht, hp]
  exact ⟨_, rfl⟩

theorem eq_of_place_ok (h : Sibling tmp p) (ht : t.place tmp p data = .ok t') : (t.isDir tmp = false ∧ t.isDir p = false) ∧
    t' = ⟨((t.files.insert tmp data).erase tmp).insert p data, p.dropLast :: t.dirs⟩ := by
  rw [place_eq h] at ht
  split at ht
  · cases ht
  split at ht <;> cases ht
  rename_i hd
  simp only [Bool.not_eq_true, Bool.or_eq_false_iff] at hd
  exact ⟨hd, rfl⟩

theorem place_file? (h : Sibling tmp p) (ht : t.place tmp p data = .ok t') (q : List C) :
    t'.file? q = if q = p then some data else if q = tmp then none else t.file? q := by
  rw [(eq_of_place_ok h ht).2, file?, file?]
  split
  · rename_i hq
    rw [hq, AList.lookup_insert]
  rename_i hq
  rw [AList.lookup_insert_ne hq]
  split
  · rename_i hq'
    rw [hq', AList.lookup_erase]
  · rename_i hq'
    rw [AList.lookup_erase_ne hq', AList.lookup_insert_ne hq']

theorem place_isDir (h : Sibling tmp p) (ht : t.place tmp p data = .ok t') (q : List C) :
    t'.isDir q = true ↔ t.isDir q = true ∨ q <+: p.dropLast := by
  have hf := place_file? h ht
  have hd : t'.dirs = p.dropLast :: t.dirs := by rw [(eq_of_place_ok h ht).2]
  rw [isDir_iff, isDir_iff, hd]
  constructor
  · rintro (hq | ⟨k, hk, hp⟩ | ⟨k, hk, hp, hne⟩)
    · exact .inl (.inl hq)
    · rcases mem_cons.1 hk with rfl | hk
      · exact .inr hp
      · exact .inl (.inr (.inl ⟨k, hk, hp⟩))
    · rw [isFile, hf] at hk
      split at hk
      · rename_i hkp
        subst hkp
        exact .inr (prefix_dropLast hp hne)
      · split at hk
        · cases hk
        · exact .inl (.inr (.inr ⟨k, hk, hp, hne⟩))
  · rintro ((hq | ⟨k, hk, hp⟩ | ⟨k, hk, hp, hne⟩) | hp)
    · exact .inl hq
    · exact .inr (.inl ⟨k, mem_cons_of_mem _ hk, hp⟩)
    · by_cases hkp : k = p
      · exact .inr (.inl ⟨_, mem_cons_self, prefix_dropLast (hkp ▸ hp) (hkp ▸ hne)⟩)
      by_cases hkt : k = tmp
      · -- the sibling was in the directory that is there
        exact .inr (.inl ⟨_, mem_cons_self, h.dir ▸ prefix_dropLast (hkt ▸ hp) (hkt ▸ hne)⟩)
      · refine .inr (.inr ⟨k, ?_, hp, hne⟩)
        rw [isFile, hf, if_neg hkp, if_neg hkt]
        exact hk
    · exact .inr (.inl ⟨_, mem_cons_self, hp⟩)

end

/-! ## Many files -/

variable (sib : List C → List C)

def placeAll : List (List C × D) → FileTree C D → Except FileErr (FileTree C D)
  | [], t => .ok t
  | a :: l, t => do
    let t' ← t.place (sib a.1) a.1 a.2
    placeAll l t'

/-- What is at a path after files were placed, when it held `v` before. -/
def placed (l : List (List C × D)) (q : List C) (v : Option D) : Option D :=
  l.foldl (fun v a => if q = a.1 then some a.2 else if q = sib a.1 then none else v) v

/-- **No two files are in each other's way**, nor is anything in theirs. -/
structure Fits (t : FileTree C D) (l : List (List C × D)) : Prop where
  room : ∀ a ∈ l, ∀ q, t.isFile q → ¬ q <+: a.1.dropLast
  tmp : ∀ a ∈ l, t.isDir (sib a.1) = false
  dir : ∀ a ∈ l, t.isDir a.1 = false
  above : ∀ a ∈ l, ∀ b ∈ l, ¬ b.1 <+: a.1.dropLast
  aboveTmp : ∀ a ∈ l, ∀ b ∈ l, ¬ sib a.1 <+: b.1.dropLast

variable {sib} {t t' : FileTree C D} {l : List (List C × D)}

theorem placeAll_ok (hs : ∀ a ∈ l, Sibling (sib a.1) a.1) (h : Fits sib t l) : ∃ t', placeAll sib l t = .ok t' := by
  induction l generalizing t with
  | nil => exact ⟨t, rfl⟩
  | cons a l ih =>
    have ha : a ∈ a :: l := mem_cons_self
    obtain ⟨t₁, ht₁⟩ : ∃ t₁, t.place (sib a.1) a.1 a.2 = .ok t₁ := place_ok (hs a ha) (h.room a ha) (h.tmp a ha) (h.dir a ha)
    have hd := place_isDir (hs a ha) ht₁
    have hm : ∀ b ∈ l, b ∈ a :: l := fun b hb => mem_cons_of_mem _ hb
    have hf : Fits sib t₁ l := by
      refine ⟨fun b hb q hq => ?_, fun b hb => ?_, fun b hb => ?_, fun b hb c hc => h.above b (hm b hb) c (hm c hc),
        fun b hb c hc => h.aboveTmp b (hm b hb) c (hm c hc)⟩
      · rw [isFile, place_file? (hs a ha) ht₁] at hq
        split at hq
        · rename_i hqa
          rw [hqa]
          exact h.above b (hm b hb) a ha
        · split at hq
          · cases hq
          · exact h.room b (hm b hb) q hq
      · rw [Bool.eq_false_iff, Ne, hd]
        exact not_or.2 ⟨Bool.eq_false_iff.1 (h.tmp b (hm b hb)), h.aboveTmp b (hm b hb) a ha⟩
      · rw [Bool.eq_false_iff, Ne, hd]
        exact not_or.2 ⟨Bool.eq_false_iff.1 (h.dir b (hm b hb)), h.above a ha b (hm b hb)⟩
    obtain ⟨t', ht'⟩ := ih (fun b hb => hs b (hm b hb)) hf
    refine ⟨t', ?_⟩
    rw [placeAll, ht₁]
    exact ht'

theorem placeAll_cons {a : List C × D} (h : placeAll sib (a :: l) t = .ok t') :
    ∃ t₁, t.place (sib a.1) a.1 a.2 = .ok t₁ ∧ placeAll sib l t₁ = .ok t' := by
  rw [placeAll] at h
  cases ht₁ : t.place (sib a.1) a.1 a.2 with
  | error =>
    rw [ht₁] at h
    cases h
  | ok t₁ =>
    rw [ht₁] at h
    exact ⟨t₁, rfl, h⟩

theorem placeAll_file? (hs : ∀ a ∈ l, Sibling (sib a.1) a.1) (h : placeAll sib l t = .ok t') (q : List C) :
    t'.file? q = placed sib l q (t.file? q) := by
  induction l generalizing t with
  | nil =>
    cases h
    rfl
  | cons a l ih =>
    obtain ⟨_, ht₁, h⟩ := placeAll_cons h
    rw [ih (fun b hb => hs b (mem_cons_of_mem _ hb)) h, place_file? (hs a mem_cons_self) ht₁]
    rfl

theorem placeAll_isDir (hs : ∀ a ∈ l, Sibling (sib a.1) a.1) (h : placeAll sib l t = .ok t') (q : List C) :
    t'.isDir q = true ↔ t.isDir q = true ∨ ∃ a ∈ l, q <+: a.1.dropLast := by
  induction l generalizing t with
  | nil =>
    cases h
    simp
  | cons a l ih =>
    obtain ⟨_, ht₁, h⟩ := placeAll_cons h
    rw [ih (fun b hb => hs b (mem_cons_of_mem _ hb)) h, place_isDir (hs a mem_cons_self) ht₁]
    simp only [mem_cons, exists_eq_or_imp, or_assoc]

theorem placeAll_blocked (hs : ∀ a ∈ l, Sibling (sib a.1) a.1) {a : List C × D} (ha : a ∈ l)
    (hd : t.isDir (sib a.1) = true ∨ t.isDir a.1 = true) (h : placeAll sib l t = .ok t') : False := by
  induction l generalizing t with
  | nil => cases ha
  | cons b l ih =>
    obtain ⟨_, ht₁, h⟩ := placeAll_cons h
    rcases mem_cons.1 ha with rfl | ha
    · obtain ⟨hf, hf'⟩ := (eq_of_place_ok (hs a mem_cons_self) ht₁).1
      rw [hf, hf'] at hd
      simp at hd
    · have hk := fun q hq => (place_isDir (hs b mem_cons_self) ht₁ q).2 (.inl hq)
      exact ih (fun b hb => hs b (mem_cons_of_mem _ hb)) ha (hd.imp (hk _) (hk _)) h

theorem placeAll_append {l₁ l₂ : List (List C × D)} :
    placeAll sib (l₁ ++ l₂) t = .ok t' ↔ ∃ t₁, placeAll sib l₁ t = .ok t₁ ∧ placeAll sib l₂ t₁ = .ok t' := by
  induction l₁ generalizing t with
  | nil =>
    refine ⟨fun h => ⟨t, rfl, h⟩, ?_⟩
    rintro ⟨_, ht₁, h⟩
    cases ht₁
    exact h
  | cons a _ ih =>
    rw [cons_append, placeAll, placeAll]
    cases t.place (sib a.1) a.1 a.2 with
    | error =>
      refine ⟨fun h => ?_, fun ⟨t₁, ht₁, _⟩ => ?_⟩
      · cases h
      · cases ht₁
    | ok => exact ih

/-! ### Reading `placed` -/

variable {q : List C} {v : Option D} {data : D}

theorem placed_cons (a : List C × D) : placed sib (a :: l) q v =
    placed sib l q (if q = a.1 then some a.2 else if q = sib a.1 then none else v) := rfl

theorem placed_eq_some (h : placed sib l q v = some data) : (∃ a ∈ l, a.1 = q ∧ a.2 = data) ∨ v = some data := by
  induction l generalizing v with
  | nil => exact .inr h
  | cons a l ih =>
    rw [placed_cons] at h
    rcases ih h with ⟨b, hb, hbq⟩ | hv
    · exact .inl ⟨b, mem_cons_of_mem _ hb, hbq⟩
    split at hv
    · rename_i hq
      exact .inl ⟨a, mem_cons_self, hq.symm, Option.some.inj hv⟩
    · split at hv
      · cases hv
      · exact .inr hv

theorem placed_of_ne (hp : ∀ a ∈ l, a.1 ≠ q) (hs : ∀ a ∈ l, sib a.1 ≠ q) : placed sib l q v = v := by
  induction l with
  | nil => rfl
  | cons a l ih =>
    rw [placed_cons, if_neg (hp a mem_cons_self).symm, if_neg (hs a mem_cons_self).symm]
    exact ih (fun b hb => hp b (mem_cons_of_mem _ hb)) fun b hb => hs b (mem_cons_of_mem _ hb)

theorem placed_append (l₁ l₂ : List (List C × D)) : placed sib (l₁ ++ l₂) q v = placed sib l₂ q (placed sib l₁ q v) :=
  foldl_append

theorem placed_eq_none (hpath : ∀ a ∈ l, a.1 ≠ q) (hs : ∃ a ∈ l, sib a.1 = q) : placed sib l q v = none := by
  obtain ⟨a, ha, haq⟩ := hs
  obtain ⟨_, l₂, rfl⟩ := append_of_mem ha
  rw [placed_append, placed_cons, if_neg (hpath a ha).symm, if_pos haq.symm]
  cases hp : placed sib l₂ q none with
  | none => rfl
  | some =>
    rcases placed_eq_some hp with ⟨b, hb, hbq, -⟩ | hv
    · exact absurd hbq (hpath b (by simp [hb]))
    · cases hv

theorem placed_of_mem (hm : ∃ a ∈ l, a.1 = q) :
    (∃ a ∈ l, a.1 = q ∧ placed sib l q v = some a.2) ∨ (placed sib l q v = none ∧ ∃ a ∈ l, sib a.1 = q) := by
  induction l generalizing v with
  | nil =>
    obtain ⟨a, ha, -⟩ := hm
    cases ha
  | cons a l ih =>
    rw [placed_cons]
    by_cases hr : ∃ b ∈ l, b.1 = q
    · rcases ih hr with
        ⟨b, hb, hbq, hp⟩ | ⟨hp, b, hb, hbq⟩
      · exact .inl ⟨b, mem_cons_of_mem _ hb, hbq, hp⟩
      · exact .inr ⟨hp, b, mem_cons_of_mem _ hb, hbq⟩
    · have hne : ∀ b ∈ l, b.1 ≠ q := fun b hb hbq => hr ⟨b, hb, hbq⟩
      have hab : a.1 = q := by
        obtain ⟨b, hb, hbq⟩ := hm
        rcases mem_cons.1 hb with rfl | hb
        · exact hbq
        · exact absurd hbq (hne b hb)
      rw [if_pos hab.symm]
      by_cases hs : ∃ c ∈ l, sib c.1 = q
      · refine .inr ⟨placed_eq_none hne hs, ?_⟩
        obtain ⟨c, hc, hcq⟩ := hs
        exact ⟨c, mem_cons_of_mem _ hc, hcq⟩
      · exact .inl ⟨a, mem_cons_self, hab, placed_of_ne hne fun c hc hcq => hs ⟨c, hc, hcq⟩⟩

end Jamsesh.FileTree
