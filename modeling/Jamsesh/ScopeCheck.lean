import Jamsesh.PushFrame
/-!
# ScopeCheck — what the writable scope keeps out of one commit (`prereceive/commits.go`, `prereceive/scope.go`)

`validateCommit` reports a scope violation exactly when the commit changes a path that no stored pattern matches, for every
scope that has a pattern.  One without (the empty text, `null` or `[]`) switches the check off instead of denying everything
(`scope_enforced_iff`).
-/
namespace Jamsesh.Prereceive

open Git List Trailers

/-! ## Stored patterns -/

def Covers (lib : Lib) (globs : List String) (p : Path) : Prop :=
  ∃ g ∈ globs, lib.globMatch (normalizeForDoublestar g) p = some true

theorem compileScope_ok {lib : Lib} : ∀ {globs patterns : List String}, compileScope lib globs = .ok patterns →
    patterns = globs.map normalizeForDoublestar
  | [], patterns, h => by
    cases h
    rfl
  | g :: globs, patterns, h => by
    rw [compileScope] at h
    split at h
    · cases h
    · obtain ⟨_, hr, rfl⟩ := map_eq_ok h
      rw [compileScope_ok hr, map_cons]

variable {lib : Lib} {scope : ScopeMatcher} {repo : Repo} {c : Commit}

theorem sessionScope_ok {session : Session} {globs : List String}
    (hscope : sessionScope lib session = .ok scope) (hg : parseWritableScope lib session.writableScope = .ok globs) :
    scope.patterns = globs.map normalizeForDoublestar := by
  rw [sessionScope, hg] at hscope
  simp only at hscope
  split at hscope <;> cases hscope
  rename_i hp
  exact compileScope_ok hp

theorem matchPath_iff_covers {globs : List String} (h : scope.patterns = globs.map normalizeForDoublestar) (p : Path) :
    scope.matchPath lib p = true ↔ Covers lib globs p := by
  simp [ScopeMatcher.matchPath, Covers, h]

/-! ## Changed paths -/

def firstParentTree (repo : Repo) (c : Commit) : Option Tree :=
  match c.parents with
  | [] => some Tree.empty
  | p :: _ => (repo.commitObject p).bind repo.treeOf

theorem parentTree_eq {old : Tree} (h : firstParentTree repo c = some old) : (parentTree repo c).getD Tree.empty = old := by
  unfold firstParentTree at h
  unfold parentTree
  cases hp : c.parents with
  | nil =>
    rw [hp] at h
    exact Option.some.inj h
  | cons =>
    rw [hp] at h
    simp only at h ⊢
    rw [h]
    rfl

theorem mem_changeViolations {ch : Change} {p : Path} : p ∈ changeViolations lib scope ch ↔
      p ≠ "" ∧ (ch.fromName = p ∨ ch.toName = p) ∧ scope.matchPath lib p = false := by
  unfold changeViolations
  rw [mem_append]
  constructor
  · rintro (h | h)
    · split at h
      · rename_i hv
        cases mem_singleton.1 h
        exact ⟨hv.1, .inl rfl, by simpa using hv.2⟩
      · cases h
    · split at h
      · rename_i hv
        cases mem_singleton.1 h
        exact ⟨hv.1, .inr rfl, by simpa using hv.2.2⟩
      · cases h
  · rintro ⟨hne, hn, hm⟩
    by_cases hf : ch.fromName = p
    · subst hf
      exact .inl (by simp [hne, hm])
    · have hto : ch.toName = p := hn.resolve_left hf
      subst hto
      exact .inr (by simp [hne, hm, Ne.symm hf])

theorem mem_scopeViolations (hlib : lib.diffTree.Exact)
    {t old : Tree} (ht : repo.treeOf c = some t) (hold : firstParentTree repo c = some old) {p : Path} :
    p ∈ scopeViolations lib repo c scope ↔ old.entryAt p ≠ t.entryAt p ∧ scope.matchPath lib p = false := by
  obtain ⟨_, hch⟩ := hlib.total (parentTree repo c) t
  have hs := parentTree_eq hold
  rw [scopeViolations, ht]
  simp only [hch, mem_flatMap, mem_changeViolations]
  constructor
  · rintro ⟨ch, hmem, hne, hn, hm⟩
    have hd := hlib.differs _ _ _ hch ch hmem p hne hn
    rw [hs] at hd
    exact ⟨hd, hm⟩
  · rintro ⟨hd, hm⟩
    have hne : p ≠ "" := by
      rintro rfl
      exact hd (by rw [Tree.entryAt_empty, Tree.entryAt_empty])
    obtain ⟨ch, hmem, hn⟩ := hlib.covers _ _ _ hch p (by rw [hs]; exact hd)
    exact ⟨ch, hmem, hne, hn, hm⟩

/-! ## The check -/

def ScopeRejected (rejections : List Rejection) : Prop := ∃ r ∈ rejections, r.code = .scopeViolation

theorem scopeRejected_validateCommit :
    ScopeRejected (validateCommit lib repo c scope) ↔ scope.patterns ≠ [] ∧ scopeViolations lib repo c scope ≠ [] := by
  simp only [validateCommit, ← length_pos_iff]
  constructor
  · rintro ⟨r, hr, hc⟩
    rcases mem_append.1 hr with hr | hr
    · split at hr
      · cases mem_singleton.1 hr
        cases hc
      · cases hr
    · split at hr
      · rename_i hp
        split at hr
        · rename_i hv
          exact ⟨hp, hv⟩
        · cases hr
      · cases hr
  · rintro ⟨hp, hv⟩
    rw [if_pos hp, if_pos hv]
    exact ⟨_, mem_append_right _ mem_cons_self, rfl⟩

/-- **The scope is enforced on a commit** that turns `old` into `t`: it is rejected for its scope exactly when it changes a
path that no stored pattern matches. -/
def ScopeEnforced (lib : Lib) (globs : List String) (repo : Repo) (c : Commit) (scope : ScopeMatcher) (old t : Tree) : Prop :=
  ScopeRejected (validateCommit lib repo c scope) ↔ ∃ p, old.entryAt p ≠ t.entryAt p ∧ ¬ Covers lib globs p

/-- **The scope is enforced exactly when** it has a pattern, or the commit changes nothing. -/
theorem scope_enforced_iff {lib : Lib} (hlib : lib.diffTree.Exact) (session : Session) {scope : ScopeMatcher}
    {globs : List String} (hscope : sessionScope lib session = .ok scope)
    (hglobs : parseWritableScope lib session.writableScope = .ok globs) (repo : Repo) (c : Commit) {t old : Tree}
    (ht : repo.treeOf c = some t) (hold : firstParentTree repo c = some old) :
    ScopeEnforced lib globs repo c scope old t ↔ (globs ≠ [] ∨ ∀ p, old.entryAt p = t.entryAt p) := by
  have hp := sessionScope_ok hscope hglobs
  have hv : scopeViolations lib repo c scope ≠ [] ↔ ∃ p, old.entryAt p ≠ t.entryAt p ∧ ¬ Covers lib globs p := by
    simp only [Ne, eq_nil_iff_forall_not_mem, not_forall, not_not, mem_scopeViolations hlib ht hold,
      ← matchPath_iff_covers hp, Bool.not_eq_true]
  rw [ScopeEnforced, scopeRejected_validateCommit, hv, hp]
  by_cases hn : globs = []
  · -- no pattern covers a path, and none is looked at
    subst hn
    simp [Covers]
  · simp [hn]

def dropCommit (parents : List Hash) : Commit := ⟨.ofByte 3, parents, .ofByte 12, goodMessage, "", ""⟩

theorem scope_enforced_docs :
    sessionScope docsLib docsSession = .ok ⟨["docs.md"]⟩ ∧
      (ScopeEnforced docsLib ["docs.md"] (graftRepo [.ofByte 1]) (dropCommit [.ofByte 1]) ⟨["docs.md"]⟩ secretTree
          Tree.empty ↔
        (["docs.md"] ≠ [] ∨ ∀ p, secretTree.entryAt p = Tree.empty.entryAt p)) :=
  ⟨rfl, scope_enforced_iff plainDiff_exact docsSession rfl rfl (graftRepo [.ofByte 1]) (dropCommit [.ofByte 1]) rfl rfl⟩

/-- **An empty writable scope lets everything through**: the commit removes `secret`, which no pattern matches, and there is
no rejection at all. -/
theorem empty_scope_allows :
    sessionScope docsLib ⟨"s", "o", ""⟩ = .ok ⟨[]⟩ ∧
      validateCommit docsLib (graftRepo [.ofByte 1]) (dropCommit [.ofByte 1]) ⟨[]⟩ = [] ∧
      ¬ ScopeEnforced docsLib [] (graftRepo [.ofByte 1]) (dropCommit [.ofByte 1]) ⟨[]⟩ secretTree Tree.empty := by
  have hn : validateCommit docsLib (graftRepo [.ofByte 1]) (dropCommit [.ofByte 1]) ⟨[]⟩ = [] := by decide
  refine ⟨rfl, hn, fun he => ?_⟩
  obtain ⟨r, hr, -⟩ := he.2 ⟨"secret", by decide, by rintro ⟨g, hg, -⟩; cases hg⟩
  rw [hn] at hr
  cases hr

end Jamsesh.Prereceive
