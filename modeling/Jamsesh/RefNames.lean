import Jamsesh.HydrateRun
/-!
# RefNames — the names of refs and their paths

The manifest holds the refs by name and hydration turns the names into paths again; for the names of files both ways fit, and
JSON keeps the names and values that are well-formed.
-/
namespace Jamsesh.Objectstore

open FileTree List
open GoString (ofString coerce coerceChar Valid trimSpace)

def refPath (name : GoString) : FilePath := name.splitOn (.rune '/')

def Proper (c : GoString) : Prop := c ≠ [] ∧ c ≠ ofString "." ∧ c ≠ ofString ".." ∧ GoChar.rune '/' ∉ c

instance (c : GoString) : Decidable (Proper c) := inferInstanceAs (Decidable (_ ∧ _))

theorem slashed_refPath (name : GoString) : slashed (refPath name) = name := intercalate_splitOn _

theorem refPath_slashed {p : FilePath} (hp : p ≠ []) (hproper : ∀ c ∈ p, Proper c) : refPath (slashed p) = p :=
  splitOn_intercalate _ (fun c hc => (hproper c hc).2.2.2) hp

theorem refPath_ne_nil (name : GoString) : refPath name ≠ [] := splitOn_ne_nil _ _

theorem refPath_injective {name name' : GoString} (h : refPath name = refPath name') : name = name' := by
  rw [← slashed_refPath name, h, slashed_refPath]

theorem refPath_cons (c : GoChar) (name : GoString) :
    refPath (c :: name) = if c = .rune '/' then [] :: refPath name else (refPath name).modifyHead (List.cons c) := by
  simp only [refPath, splitOn_cons_eq_if_modifyHead, beq_iff_eq]

theorem refPath_append (name rest : GoString) : refPath (name ++ ofString "/" ++ rest) = refPath name ++ refPath rest := by
  rw [append_assoc]
  exact splitOn_append_cons_self name rest

theorem isRef_iff {name : GoString} :
    GoString.hasPrefix name (ofString "refs/") = true ↔ refsDir <+: refPath name ∧ refPath name ≠ refsDir := by
  have hs : ofString "refs/" = ofString "refs" ++ ofString "/" := rfl
  rw [GoString.hasPrefix_iff, hs]
  constructor
  · rintro ⟨rest, rfl⟩
    rw [refPath_append, show refPath (ofString "refs") = refsDir by decide]
    refine ⟨prefix_append _ _, fun h => refPath_ne_nil rest ?_⟩
    exact append_cancel_left (h.trans (append_nil refsDir).symm)
  · rintro ⟨⟨q, hq⟩, hne⟩
    refine ⟨slashed q, ?_⟩
    rw [← slashed_refPath name, ← hq]
    cases q with
    | nil => exact absurd (hq.symm.trans (append_nil _)) hne
    | cons => exact intercalate_cons_cons

theorem refPath_refs {name : GoString} (h : GoString.hasPrefix name (ofString "refs/") = true) :
    ∃ c q, refPath name = ofString "refs" :: c :: q := by
  obtain ⟨⟨q, hq⟩, hne⟩ := isRef_iff.1 h
  cases q with
  | nil => exact absurd (hq.symm.trans (append_nil _)) hne
  | cons c q => exact ⟨c, q, hq.symm⟩

/-! ## Siblings -/

theorem tmpPath_cons {a : GoString} {p : FilePath} (hp : p ≠ []) : tmpPath (a :: p) = a :: tmpPath p := by
  rw [tmpPath, tmpPath, dropLast_cons_of_ne_nil hp, List.getLast?_cons_of_ne_nil hp]
  rfl

theorem refPath_tmp (name : GoString) : refPath (name ++ ofString ".tmp") = tmpPath (refPath name) := by
  induction name with
  | nil => decide
  | cons c name ih =>
    rw [cons_append, refPath_cons, refPath_cons, ih]
    split
    · rw [tmpPath_cons (refPath_ne_nil name)]
    cases hp : refPath name with
    | nil => exact absurd hp (refPath_ne_nil name)
    | cons a p =>
      cases p with
      | nil => rfl
      | cons b p => rw [modifyHead_cons, tmpPath_cons (cons_ne_nil b p), tmpPath_cons (cons_ne_nil b p), modifyHead_cons]

/-! ## What JSON keeps -/

theorem coerceChar_eq_ascii {c : GoChar} {a : Char} (ha : a ≠ '�') : coerceChar c = .rune a ↔ c = .rune a := by
  cases c with
  | rune => rfl
  | bad =>
    constructor
    · intro h
      exact absurd (GoChar.rune.inj h).symm ha
    · intro h
      cases h

theorem refPath_coerce (name : GoString) : refPath (coerce name) = (refPath name).map coerce := by
  induction name with
  | nil => rfl
  | cons c name ih =>
    have hc : coerce (c :: name) = coerceChar c :: coerce name := rfl
    rw [hc, refPath_cons, refPath_cons, ih]
    simp only [coerceChar_eq_ascii (show '/' ≠ '�' by decide)]
    split
    · rfl
    · cases refPath name with
      | nil | cons => rfl

theorem Proper.coerce {c : GoString} (h : Proper c) : Proper (coerce c) := by
  have hd : ∀ s : GoString, (∀ x ∈ s, x = .rune '.') → GoString.coerce c = s → c = s := by
    intro s hs hcs
    subst hcs
    have hm : ∀ x ∈ c, x = .rune '.' := fun x hx =>
      (coerceChar_eq_ascii (by decide)).1 (hs _ (mem_map_of_mem hx))
    exact (map_id c).symm.trans (map_congr_left fun x hx => by rw [hm x hx]; rfl)
  obtain ⟨hne, ho, ht, hslash⟩ := h
  refine ⟨fun hn => hne (map_eq_nil_iff.1 hn), fun h => ho (hd _ (by decide) h), fun h => ht (hd _ (by decide) h),
    fun hm => hslash ?_⟩
  obtain ⟨x, hx, hxc⟩ := mem_map.1 hm
  rw [coerceChar_eq_ascii (by decide)] at hxc
  exact hxc ▸ hx

theorem joinPath_of_proper {base : FilePath} {rel : GoString} (h : ∀ c ∈ refPath rel, Proper c) :
    joinPath base rel = base ++ refPath rel := by
  have hf : ∀ (p : FilePath) (acc : FilePath), (∀ c ∈ p, Proper c) → p.foldl (fun p c =>
      if c = [] ∨ c = ofString "." then p else if c = ofString ".." then p.dropLast else p ++ [c]) acc = acc ++ p := by
    intro p
    induction p with
    | nil => exact fun acc _ => (append_nil acc).symm
    | cons c p ih =>
      intro _ hp
      obtain ⟨⟨hne, ho, ht, -⟩, hp⟩ := forall_mem_cons.1 hp
      rw [foldl_cons, if_neg (not_or.2 ⟨hne, ho⟩), if_neg ht, ih _ hp, append_assoc]
      rfl
  exact hf _ base h

/-! ## The refs of a manifest -/

def IsRefName (name : GoString) : Prop := GoString.hasPrefix name (ofString "refs/") = true ∧ ∀ c ∈ refPath name, Proper c

instance (name : GoString) : Decidable (IsRefName name) := inferInstanceAs (Decidable (_ ∧ _))

theorem IsRefName.joinPath {name : GoString} (h : IsRefName name) : Objectstore.joinPath [] name = refPath name := joinPath_of_proper h.2

variable {d : Repo}

theorem lookup_refsOf {name : GoString} : ∀ {paths : List FilePath} {refs : Refs}, (∀ p ∈ paths, p ≠ [] ∧ ∀ c ∈ p, Proper c) →
    (refsOf d paths refs).lookup name =
      if refPath name ∈ paths then some (trimSpace ((d.file? (refPath name)).getD [])) else refs.lookup name
  | [], _, _ => rfl
  | p :: paths, refs, h => by
    obtain ⟨⟨hne, hproper⟩, hpaths⟩ := forall_mem_cons.1 h
    have hc : refsOf d (p :: paths) refs = refsOf d paths (refs.insert (slashed p) (trimSpace ((d.file? p).getD []))) := rfl
    rw [hc, lookup_refsOf hpaths]
    by_cases hr : refPath name ∈ paths
    · rw [if_pos hr, if_pos (mem_cons_of_mem _ hr)]
    rw [if_neg hr]
    by_cases hp : refPath name = p
    · subst hp
      rw [if_pos mem_cons_self, slashed_refPath, AList.lookup_insert]
    · rw [if_neg (by simp [hp, hr]), AList.lookup_insert_ne]
      rintro rfl
      exact hp (refPath_slashed hne hproper)

theorem lookup_looseRefs (hproper : ∀ p, d.isFile p → ∀ c ∈ p, Proper c) {name v : GoString} :
    (looseRefs d).lookup name = some v ↔
      refsDir <+: refPath name ∧ ∃ data, d.file? (refPath name) = some data ∧ v = trimSpace data := by
  have hpaths : ∀ p ∈ d.under refsDir, p ≠ [] ∧ ∀ c ∈ p, Proper c := by
    intro p hp
    obtain ⟨hr, hf⟩ := mem_under.1 hp
    refine ⟨?_, hproper p hf⟩
    rintro rfl
    exact absurd (prefix_nil.1 hr) (cons_ne_nil _ _)
  rw [looseRefs, lookup_refsOf hpaths]
  split
  · rename_i hm
    obtain ⟨hr, hf⟩ := mem_under.1 hm
    obtain ⟨_, hd⟩ := isFile_iff.1 hf
    simp [hd, hr, eq_comm]
  · rename_i hm
    constructor
    · intro h
      cases h
    · rintro ⟨hr, data, hd, -⟩
      exact absurd (mem_under.2 ⟨hr, isFile_iff.2 ⟨data, hd⟩⟩) hm

theorem lookup_coerceRefs {refs : Refs} (h : ∀ r ∈ refs.entries, Valid r.1 ∧ Valid r.2) (name : GoString) :
    (coerceRefs refs).lookup name = refs.lookup name := by
  have hfold : ∀ (l : List (Σ _ : GoString, GoString)) (acc : Refs), l.NodupKeys → (∀ r ∈ l, Valid r.1 ∧ Valid r.2) →
      (l.foldl (fun acc e => acc.insert (coerce e.1) (coerce e.2)) acc).lookup name = (l.dlookup name).or (acc.lookup name) := by
    intro l
    induction l with
    | nil => exact fun _ _ _ => rfl
    | cons e l ih =>
      intro _ hn hv
      obtain ⟨⟨hname, hvalue⟩, hv⟩ := forall_mem_cons.1 hv
      obtain ⟨hf, hn⟩ := nodupKeys_cons.1 hn
      have hn' : coerce e.1 = e.1 := hname
      have hv' : coerce e.2 = e.2 := hvalue
      rw [foldl_cons, ih _ hn hv, hn', hv']
      by_cases hne : name = e.1
      · subst hne
        rw [dlookup_cons_eq, AList.lookup_insert, dlookup_eq_none.2 hf]
        rfl
      · rw [dlookup_cons_ne _ _ hne, AList.lookup_insert_ne hne]
  rw [coerceRefs, hfold refs.entries ∅ refs.nodupKeys h]
  exact Option.or_none

end Jamsesh.Objectstore
