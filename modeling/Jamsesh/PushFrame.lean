import Jamsesh.PushWalk
/-!
# PushFrame — what an accepted update leaves alone

The scope is checked commit by commit, each against its first parent, while an update only has to be a fast-forward through
some chain of parents.  So paths outside the scope keep their entries along first parents (`frame_of_first_parents`), and,
where the scope leaves any path out, nowhere else (`frame_iff`).
-/
namespace Jamsesh.Prereceive

open Git List Option Walk

/-! ## What an accepted push says -/

theorem bind_eq_ok {ε α β : Type} {x : Except ε α} {f : α → Except ε β} {b : β} (h : (x >>= f) = .ok b) :
    ∃ a, x = .ok a ∧ f a = .ok b := by
  cases x with
  | error => cases h
  | ok a => exact ⟨a, rfl, h⟩

theorem map_eq_ok {ε α β : Type} {x : Except ε α} {f : α → β} {b : β} (h : x.map f = .ok b) :
    ∃ a, x = .ok a ∧ f a = b := by
  cases x with
  | error => cases h
  | ok a => exact ⟨a, rfl, Except.ok.inj h⟩

section
variable {lib : Lib} {repo : Repo} {u : RefUpdate} {scope : ScopeMatcher} {input : ValidateInput} {c : Commit}

theorem validateUpdates_ok :
    ∀ {us : List RefUpdate}, validateUpdates lib input scope us = .ok [] →
      ∀ u ∈ us, validateUpdate lib input scope u = .ok []
  | [], _, u, hu => by cases hu
  | v :: us, h, u, hu => by
    obtain ⟨_, hh, h⟩ := bind_eq_ok h
    obtain ⟨_, ht, h⟩ := bind_eq_ok h
    obtain ⟨rfl, rfl⟩ := append_eq_nil_iff.1 (Except.ok.inj h)
    rcases mem_cons.1 hu with rfl | hu
    · exact hh
    · exact validateUpdates_ok ht u hu

theorem validate_ok {limits : Limits} (h : validate lib limits input = .ok []) :
    ∃ scope, sessionScope lib input.session = .ok scope ∧
      ∀ u ∈ input.updates, validateUpdate lib input scope u = .ok [] := by
  unfold validate at h
  split at h
  · cases h
  rename_i scope hscope
  split at h
  · cases h
  rename_i hp
  have hn := Except.ok.inj h
  rw [append_eq_nil_iff, append_eq_nil_iff] at hn
  obtain ⟨⟨-, rfl⟩, -⟩ := hn
  exact ⟨scope, hscope, validateUpdates_ok hp⟩

theorem checkForcePush_none {isBase : Bool} (h : checkForcePush repo u isBase = .ok none) :
    (∃ c, repo.commitObject (newHash u.newSHA) = some c) ∧ repo.Reaches (newHash u.newSHA) (newHash u.oldSHA) := by
  unfold checkForcePush at h
  simp only at h
  split at h
  · obtain ⟨r, -, hr⟩ := map_eq_ok h
    cases hr
  split at h
  · obtain ⟨r, -, hr⟩ := map_eq_ok h
    cases hr
  rename_i c hc
  split at h
  · cases h
  · rename_i ha
    exact ⟨⟨c, hc⟩, Repo.isAncestor_true ha⟩
  · obtain ⟨_, -, h⟩ := bind_eq_ok h
    obtain ⟨_, -, h⟩ := bind_eq_ok h
    cases h

theorem validateUpdate_ok
    (hold : u.oldSHA ≠ "") (h : validateUpdate lib input scope u = .ok []) :
    (∃ c, input.repo.commitObject (newHash u.newSHA) = some c) ∧
      input.repo.Reaches (newHash u.newSHA) (newHash u.oldSHA) ∧ walkAndValidate lib input.repo u scope = [] := by
  obtain ⟨_, href, h⟩ := bind_eq_ok h
  rw [if_neg (by simp [isBaseRefFirstPush, hold])] at h
  obtain ⟨rfl, hw⟩ := append_eq_nil_iff.1 (Except.ok.inj h)
  unfold validateRef at href
  split at href
  · cases href
  rw [if_pos hold] at href
  obtain ⟨r, hr, hrn⟩ := map_eq_ok href
  cases r with
  | some => cases hrn
  | none =>
    obtain ⟨hc, hreach⟩ := checkForcePush_none hr
    exact ⟨hc, hreach, hw⟩

theorem validateCommit_of_walk (hold : u.oldSHA ≠ "")
    (hnew : ∃ c, repo.commitObject (newHash u.newSHA) = some c) (h : walkAndValidate lib repo u scope = []) :
    ∀ x ∈ beforeOld repo u, ∀ c, repo.commitObject x = some c → validateCommit lib repo c scope = [] := by
  obtain ⟨d, hd⟩ := hnew
  rw [walkAndValidate, Repo.log_eq hd] at h
  simp only at h
  split at h
  · cases h
  · rename_i hcs
    rw [Repo.collect_eq_ok hcs, takeWhile_isStop hold, flatMap_commits_nil] at h
    exact h

/-! ## One commit -/

theorem matchPath_of_changeViolations {ch : Change} {p : Path} (hp : p ≠ "")
    (h : changeViolations lib scope ch = []) (hn : ch.fromName = p ∨ ch.toName = p) : scope.matchPath lib p = true := by
  obtain ⟨hfrom, hto⟩ := append_eq_nil_iff.1 h
  have hf : ch.fromName = p → scope.matchPath lib p = true := by
    rintro rfl
    simpa [hp] using hfrom
  by_cases heq : ch.fromName = p
  · exact hf heq
  rcases hn with hn | hn
  · exact hf hn
  · subst hn
    have hne : ch.toName ≠ ch.fromName := fun h' => heq h'.symm
    simpa [hp, hne] using hto

theorem entryAt_of_scopeViolations (hlib : lib.diffTree.Exact)
    (h : scopeViolations lib repo c scope = []) :
    ∃ t, repo.treeOf c = some t ∧ ∀ p, scope.matchPath lib p = false →
      ((parentTree repo c).getD Tree.empty).entryAt p = t.entryAt p := by
  unfold scopeViolations at h
  split at h
  · cases h
  rename_i t ht
  split at h
  · cases h
  rename_i hch
  refine ⟨t, ht, fun p hp => ?_⟩
  by_contra hne
  have hpne : p ≠ "" := by
    rintro rfl
    exact hne (by rw [Tree.entryAt_empty, Tree.entryAt_empty])
  obtain ⟨ch, hmem, hn⟩ := hlib.covers _ _ _ hch p hne
  have hm := matchPath_of_changeViolations hpne (flatMap_eq_nil_iff.1 h ch hmem) hn
  rw [hp] at hm
  cases hm

theorem scopeViolations_of_same (hlib : lib.diffTree.Exact)
    {t : Tree} (ht : repo.treeOf c = some t)
    (hs : ∀ p, ((parentTree repo c).getD Tree.empty).entryAt p = t.entryAt p) :
    scopeViolations lib repo c scope = [] := by
  obtain ⟨_, hch⟩ := hlib.total (parentTree repo c) t
  rw [scopeViolations, ht]
  simp only [hch]
  rw [flatMap_eq_nil_iff]
  intro ch hm
  have hf : ch.fromName = "" := by
    by_contra hne
    exact hlib.differs _ _ _ hch ch hm _ hne (.inl rfl) (hs _)
  have hto : ch.toName = "" := by
    by_contra hne
    exact hlib.differs _ _ _ hch ch hm _ hne (.inr rfl) (hs _)
  simp [changeViolations, hf, hto]

theorem scopeViolations_of_validateCommit
    (hp : scope.patterns ≠ []) (h : validateCommit lib repo c scope = []) : scopeViolations lib repo c scope = [] := by
  have hl : scope.patterns.length > 0 := length_pos_iff.2 hp
  obtain ⟨-, hscope⟩ := append_eq_nil_iff.1 h
  rw [if_pos hl] at hscope
  by_contra hne
  simp only [length_pos_iff.2 hne] at hscope
  cases hscope

/-! ## One update -/

/-- **The frame**: a path the scope does not match has the same entry in the old and the new commit's tree. -/
def Frame (lib : Lib) (scope : ScopeMatcher) (repo : Repo) (u : RefUpdate) : Prop :=
  ∀ old new told tnew, repo.commitObject (newHash u.oldSHA) = some old → repo.commitObject (newHash u.newSHA) = some new →
    repo.treeOf old = some told → repo.treeOf new = some tnew →
    ∀ p, scope.matchPath lib p = false → told.entryAt p = tnew.entryAt p

def OnFirstParents (repo : Repo) (u : RefUpdate) : Prop :=
  Relation.ReflTransGen (FirstStep repo.parents) (newHash u.newSHA) (newHash u.oldSHA)

/-- A commit whose tree agrees with `told` outside the scope. -/
def AgreesOutside (lib : Lib) (scope : ScopeMatcher) (repo : Repo) (told : Tree) (h : Hash) : Prop :=
  ∃ c t, repo.commitObject h = some c ∧ repo.treeOf c = some t ∧
    ∀ p, scope.matchPath lib p = false → told.entryAt p = t.entryAt p

theorem AgreesOutside.step (hlib : lib.diffTree.Exact) {told : Tree}
    {y z : Hash} (hyz : FirstStep repo.parents y z)
    (hy : ∀ c, repo.commitObject y = some c → scopeViolations lib repo c scope = [])
    (hz : AgreesOutside lib scope repo told z) : AgreesOutside lib scope repo told y := by
  obtain ⟨l, hl⟩ := hyz
  obtain ⟨c, hc, hpar⟩ := map_eq_some_iff.1 hl
  obtain ⟨d, s, hd, hs, hag⟩ := hz
  obtain ⟨t, ht, hf⟩ := entryAt_of_scopeViolations hlib (hy c hc)
  have hparent : parentTree repo c = some s := by simp [parentTree, hpar, hd, hs]
  refine ⟨c, t, hc, ht, fun p hp => ?_⟩
  rw [hag p hp, ← hf p hp, hparent]
  rfl

theorem frame_of_first_parents (hlib : lib.diffTree.Exact)
    (hp : scope.patterns ≠ []) (hchain : OnFirstParents repo u)
    (hv : ∀ x ∈ beforeOld repo u, ∀ c, repo.commitObject x = some c → validateCommit lib repo c scope = []) :
    Frame lib scope repo u := by
  intro old _ told _ hold hn htold htnew
  have hag : AgreesOutside lib scope repo told (newHash u.newSHA) := by
    refine first_chain_induction repo.parents repo.hashes repo.nodup Repo.mem_hashes _ _ hchain
      ⟨old, told, hold, htold, fun _ _ => rfl⟩ (fun y z hyz hm hz => ?_)
    exact hz.step hlib hyz (fun c hc => scopeViolations_of_validateCommit hp (hv y hm c hc))
  obtain ⟨c, t, hc, ht, h⟩ := hag
  rw [hn] at hc
  cases hc
  rw [htnew] at ht
  cases ht
  exact h

theorem frame_of_all_paths
    (hall : ∀ p, IsPath p → scope.matchPath lib p = true) : Frame lib scope repo u := by
  intro _ _ _ _ _ _ _ _ p hp
  have hn : ∀ t : Tree, t.entryAt p = none := by
    intro t
    by_contra hs
    have := hall p ⟨t, isSome_iff_ne_none.2 hs⟩
    rw [hp] at this
    cases this
  rw [hn, hn]

/-! ## Nowhere else -/

theorem checkForcePush_forward (isBase : Bool) (hnew : repo.Complete (newHash u.newSHA))
    (ha : repo.Reaches (newHash u.newSHA) (newHash u.oldSHA)) : checkForcePush repo u isBase = .ok none := by
  obtain ⟨_, hcn⟩ := Repo.parents_isSome (hnew _ Relation.ReflTransGen.refl)
  obtain ⟨_, hco⟩ := Repo.parents_isSome (hnew _ ha)
  have hm := (Repo.mem_history hnew _).2 ha
  simp [checkForcePush, hco, hcn, Repo.isAncestor_complete hnew, hm]

theorem validateRef_forward {sessionID account : String}
    (hns : (checkRefNamespace repo sessionID account u.ref).1 = true) (hnew : repo.Complete (newHash u.newSHA))
    (ha : u.oldSHA ≠ "" → repo.Reaches (newHash u.newSHA) (newHash u.oldSHA)) :
    validateRef repo sessionID account u = .ok [] := by
  unfold validateRef
  cases hc : checkRefNamespace repo sessionID account u.ref with
  | mk _ isBase =>
    rw [hc] at hns
    cases hns
    by_cases hold : u.oldSHA = ""
    · simp only [hold, ne_eq, not_true_eq_false, if_false]
    · simp only [if_pos hold, checkForcePush_forward isBase hnew (ha hold)]
      rfl

theorem validate_single (limits : Limits) {session : Session} {account : String}
    (hscope : sessionScope lib session = .ok scope)
    (hns : (checkRefNamespace repo session.id account u.ref).1 = true) (hnew : repo.Complete (newHash u.newSHA))
    (ha : repo.Reaches (newHash u.newSHA) (newHash u.oldSHA)) (hw : walkAndValidate lib repo u scope = []) :
    validate lib limits ⟨repo, session, account, [u], 0, 0⟩ = .ok [] := by
  have hr := validateRef_forward hns hnew (fun _ => ha)
  have hu : validateUpdate lib ⟨repo, session, account, [u], 0, 0⟩ scope u = .ok [] := by
    unfold validateUpdate
    simp only [hr, hw]
    split <;> rfl
  have hp : checkPackSize 0 limits.maxPackBytes = none := by
    unfold checkPackSize
    split
    · rfl
    · rw [if_neg (by omega)]
  have hc : checkPlaygroundCaps limits session 0 0 = none := by
    unfold checkPlaygroundCaps
    split
    · rfl
    · split
      · rfl
      · rw [if_neg (by simp [int64]; omega)]
  unfold validate
  simp only [hscope, validateUpdates, hu, hp, hc]
  rfl

theorem validateCommit_nil (hm : c.message = goodMessage)
    (h : scope.patterns ≠ [] → scopeViolations lib repo c scope = []) : validateCommit lib repo c scope = [] := by
  unfold validateCommit
  rw [hm, goodMessage_trailers]
  by_cases hp : scope.patterns = []
  · simp [hp]
  · simp [h hp]

theorem walk_relabel_nil (tree : Hash → Tree)
    (hold : u.oldSHA ≠ "") (hnew : repo.Complete (newHash u.newSHA))
    (h : scope.patterns ≠ [] → ∀ x, x ≠ newHash u.oldSHA → repo.Reaches (newHash u.newSHA) x →
      ∀ c, (repo.relabel (fun _ => goodMessage) tree).commitObject x = some c →
        scopeViolations lib (repo.relabel (fun _ => goodMessage) tree) c scope = []) :
    walkAndValidate lib (repo.relabel (fun _ => goodMessage) tree) u scope = [] := by
  have hs := repo.relabel_sameGraph (fun _ => goodMessage) tree
  rw [walkAndValidate_nil_iff lib scope hold (hs.complete hnew)]
  intro x hx c hc
  rw [beforeOld, hs.history] at hx
  have hne : x ≠ newHash u.oldSHA := by simpa using mem_takeWhile_imp hx
  have hr := Repo.history_sound ((takeWhile_sublist _).subset hx)
  exact validateCommit_nil (Repo.relabel_commitObject hc).1 (fun hp => h hp x hne hr c hc)

theorem not_frame_relabel {tree : Hash → Tree} {q : Path}
    (hnew : repo.Complete (newHash u.newSHA)) (ha : repo.Reaches (newHash u.newSHA) (newHash u.oldSHA))
    (hq : scope.matchPath lib q = false)
    (hne : (tree (newHash u.oldSHA)).entryAt q ≠ (tree (newHash u.newSHA)).entryAt q) :
    ¬ Frame lib scope (repo.relabel (fun _ => goodMessage) tree) u := by
  intro hframe
  have hs := repo.relabel_sameGraph (fun _ => goodMessage) tree
  have hf : ∀ x, repo.Reaches (newHash u.newSHA) x →
      ∃ c, (repo.relabel (fun _ => goodMessage) tree).commitObject x = some c := fun x hx =>
    Repo.parents_isSome (by rw [hs.parents]; exact hnew x hx)
  obtain ⟨old, hold⟩ := hf _ ha
  obtain ⟨new, hn'⟩ := hf _ Relation.ReflTransGen.refl
  exact hne (hframe old new _ _ hold hn' (Repo.relabel_commitObject hold).2 (Repo.relabel_commitObject hn').2 q hq)

/-- The tree `t` on the commits from which first parents lead to `old`, nothing elsewhere. -/
noncomputable def chainTree (repo : Repo) (old : Hash) (t : Tree) (x : Hash) : Tree :=
  open Classical in if Relation.ReflTransGen (FirstStep repo.parents) x old then t else Tree.empty

theorem chainTree_first {old x y : Hash} {t : Tree} (hx : x ≠ old) (hxy : FirstStep repo.parents x y) :
    chainTree repo old t x = chainTree repo old t y := by
  have hi : Relation.ReflTransGen (FirstStep repo.parents) x old ↔
      Relation.ReflTransGen (FirstStep repo.parents) y old := by
    constructor
    · intro h
      rcases Relation.ReflTransGen.cases_head h with rfl | ⟨z, hxz, hz⟩
      · exact absurd rfl hx
      · exact (hxy.unique hxz) ▸ hz
    · exact fun h => Relation.ReflTransGen.head hxy h
  unfold chainTree
  by_cases h : Relation.ReflTransGen (FirstStep repo.parents) x old
  · rw [if_pos h, if_pos (hi.1 h)]
  · rw [if_neg h, if_neg (fun h' => h (hi.2 h'))]

theorem chainTree_root {old x : Hash} {t : Tree} (hx : x ≠ old) (hr : repo.parents x = some []) :
    chainTree repo old t x = Tree.empty := by
  unfold chainTree
  rw [if_neg]
  intro h
  rcases Relation.ReflTransGen.cases_head h with rfl | ⟨z, ⟨l, hl⟩, -⟩
  · exact hx rfl
  · rw [hr] at hl
    cases hl

theorem chainTree_scopeViolations (hlib : lib.diffTree.Exact)
    {t : Tree} (hnew : repo.Complete (newHash u.newSHA)) {x : Hash} (hx : x ≠ newHash u.oldSHA)
    (hr : repo.Reaches (newHash u.newSHA) x)
    (hc : (repo.relabel (fun _ => goodMessage) (chainTree repo (newHash u.oldSHA) t)).commitObject x = some c) :
    scopeViolations lib (repo.relabel (fun _ => goodMessage) (chainTree repo (newHash u.oldSHA) t)) c scope = [] := by
  have hs := repo.relabel_sameGraph (fun _ => goodMessage) (chainTree repo (newHash u.oldSHA) t)
  have hp : repo.parents x = some c.parents := by
    rw [← hs.parents, Repo.parents, hc]
    rfl
  refine scopeViolations_of_same hlib (Repo.relabel_commitObject hc).2 (fun p => ?_)
  cases hcp : c.parents with
  | nil =>
    rw [hcp] at hp
    rw [chainTree_root hx hp, parentTree, hcp]
    rfl
  | cons y l =>
    rw [hcp] at hp
    have hxy : FirstStep repo.parents x y := ⟨l, hp⟩
    have hy := hnew y (hr.tail hxy.edge)
    rw [← hs.parents] at hy
    obtain ⟨d, hd⟩ := Repo.parents_isSome hy
    rw [chainTree_first hx hxy, parentTree, hcp]
    simp only [hd, bind_some, (Repo.relabel_commitObject hd).2, getD_some]

/-- The frame holds of every accepted push that contains the update, whatever its other updates, its size and the contents
of its commits. -/
def FrameAlways (lib : Lib) (limits : Limits) (repo : Repo) (session : Session) (account : String) (scope : ScopeMatcher)
    (u : RefUpdate) : Prop :=
  ∀ input : ValidateInput, input.session = session → input.accountID = account → repo.SameGraph input.repo →
    u ∈ input.updates → validate lib limits input = .ok [] → Frame lib scope input.repo u

end

section
variable {lib : Lib} (hlib : lib.diffTree.Exact) (limits : Limits) (repo : Repo) (session : Session) (account : String)
  (u : RefUpdate) {scope : ScopeMatcher} (hscope : sessionScope lib session = .ok scope) (hold : u.oldSHA ≠ "")

include hscope in
theorem not_frameAlways (hns : (checkRefNamespace repo session.id account u.ref).1 = true)
    (hnew : repo.Complete (newHash u.newSHA)) (hanc : repo.Reaches (newHash u.newSHA) (newHash u.oldSHA)) {q : Path}
    (hq : scope.matchPath lib q = false) {tree : Hash → Tree}
    (hw : walkAndValidate lib (repo.relabel (fun _ => goodMessage) tree) u scope = [])
    (hne : (tree (newHash u.oldSHA)).entryAt q ≠ (tree (newHash u.newSHA)).entryAt q) :
    ¬ FrameAlways lib limits repo session account scope u := by
  intro ha
  have hs := repo.relabel_sameGraph (fun _ => goodMessage) tree
  have hn' : (checkRefNamespace (repo.relabel (fun _ => goodMessage) tree) session.id account u.ref).1 = true := hns
  have ha' : (repo.relabel (fun _ => goodMessage) tree).Reaches (newHash u.newSHA) (newHash u.oldSHA) := by
    rw [Repo.Reaches, hs.parents]
    exact hanc
  have hv := validate_single limits hscope hn' (hs.complete hnew) ha' hw
  exact not_frame_relabel hnew hanc hq hne (ha _ rfl rfl hs mem_cons_self hv)

include hlib hscope hold in
/-- **The frame holds of every accepted update of this shape exactly when** the scope matches every path, or the old commit
is on the new one's first-parent chain and the scope has a pattern (or the update moves nothing). -/
theorem frame_iff (hns : (checkRefNamespace repo session.id account u.ref).1 = true)
    (hnew : repo.Complete (newHash u.newSHA)) (hanc : repo.Reaches (newHash u.newSHA) (newHash u.oldSHA)) :
    FrameAlways lib limits repo session account scope u ↔ ((∀ p, IsPath p → scope.matchPath lib p = true) ∨
        (OnFirstParents repo u ∧ (scope.patterns ≠ [] ∨ newHash u.oldSHA = newHash u.newSHA))) := by
  constructor
  · intro ha
    by_contra hcond
    rw [not_or, not_and_or, not_or] at hcond
    obtain ⟨hpath, hshape⟩ := hcond
    simp only [not_forall, Bool.not_eq_true] at hpath
    obtain ⟨q, ⟨t, ht⟩, hq⟩ := hpath
    have hs : t.entryAt q ≠ none := isSome_iff_ne_none.1 ht
    rcases hshape with hchain | ⟨hpat, hm⟩
    · -- off the first-parent chain: the old commit's file is never seen to go
      refine not_frameAlways limits repo session account u hscope hns hnew hanc hq
        (walk_relabel_nil (chainTree repo (newHash u.oldSHA) t) hold hnew fun _ x hx hr c hc =>
          chainTree_scopeViolations hlib hnew hx hr hc) ?_ ha
      unfold OnFirstParents at hchain
      rw [chainTree, if_pos Relation.ReflTransGen.refl, chainTree, if_neg hchain]
      exact hs
    · -- no pattern: nothing is looked at
      refine not_frameAlways limits repo session account u hscope hns hnew hanc hq
        (walk_relabel_nil (fun x => if x = newHash u.oldSHA then t else Tree.empty) hold hnew fun hp => absurd hp hpat)
        ?_ ha
      rw [if_pos rfl, if_neg (fun h => hm h.symm)]
      exact hs
  · rintro hcond input rfl rfl hsame hu hv
    obtain ⟨scope', hs', hupdates⟩ := validate_ok hv
    rw [hscope] at hs'
    cases hs'
    obtain ⟨hc, -, hw⟩ := validateUpdate_ok hold (hupdates u hu)
    rcases hcond with ha | ⟨hchain, hpat | hm⟩
    · exact frame_of_all_paths ha
    · refine frame_of_first_parents hlib hpat ?_ (validateCommit_of_walk hold hc hw)
      rw [OnFirstParents, hsame.parents]
      exact hchain
    intro old new told tnew hold hnew htold htnew p _
    rw [hm, hnew] at hold
    cases hold
    rw [htnew] at htold
    cases htold
    rfl

end

/-! ## A merge that starts from an unrelated root -/

def docsLib : Lib where
  diffTree := fun parent t => .ok (plainDiff parent t)
  validatePattern := fun _ => true
  globMatch := fun pat p => some (decide (pat = p))
  unmarshal := fun raw => if raw = "[\"docs.md\"]" then .ok ["docs.md"] else .error "unexpected input"

def docsSession : Session := ⟨"s", "o", "[\"docs.md\"]"⟩

def noLimits : Limits := ⟨0, 0⟩

theorem docsSession_scope : sessionScope docsLib docsSession = .ok ⟨["docs.md"]⟩ := rfl

def secretTree : Tree := ⟨.file "secret" ⟨.ofByte 9, .regular⟩ .nil, by decide⟩

def graftRepo (parents : List Hash) : Repo where
  commits := [⟨.ofByte 1, [], .ofByte 11, goodMessage, "", ""⟩, ⟨.ofByte 2, [], .ofByte 12, goodMessage, "", ""⟩,
    ⟨.ofByte 3, parents, .ofByte 12, goodMessage, "", ""⟩]
  nodup := threeIds_nodup
  nonzero := threeIds_nonzero
  tree := fun h => if h = .ofByte 11 then some secretTree else if h = .ofByte 12 then some Tree.empty else none
  references := .ok []
  head := .error .referenceNotFound

theorem frame_iff_linear :
    (graftRepo [.ofByte 1]).Complete (newHash mergePush.newSHA) ∧
      (graftRepo [.ofByte 1]).Reaches (newHash mergePush.newSHA) (newHash mergePush.oldSHA) ∧
      (FrameAlways docsLib noLimits (graftRepo [.ofByte 1]) docsSession "a" ⟨["docs.md"]⟩ mergePush ↔
        ((∀ p, IsPath p → ScopeMatcher.matchPath docsLib ⟨["docs.md"]⟩ p = true) ∨
          (OnFirstParents (graftRepo [.ofByte 1]) mergePush ∧
            (["docs.md"] ≠ [] ∨ newHash mergePush.oldSHA = newHash mergePush.newSHA)))) := by
  have hc : (graftRepo [.ofByte 1]).Closed := by decide
  have hn : (graftRepo [.ofByte 1]).Complete (newHash mergePush.newSHA) := hc.complete (by decide)
  have ha : (graftRepo [.ofByte 1]).Reaches (newHash mergePush.newSHA) (newHash mergePush.oldSHA) :=
    Relation.ReflTransGen.single ⟨[.ofByte 1], by decide, by decide⟩
  exact ⟨hn, ha, frame_iff plainDiff_exact noLimits _ docsSession "a" mergePush docsSession_scope (by decide)
    (by decide) hn ha⟩

/-- **A merge whose first parent is an unrelated root drops a file outside the scope**, and is accepted. -/
theorem graft_breaks_frame :
    ¬ (validate docsLib noLimits ⟨graftRepo [.ofByte 2, .ofByte 1], docsSession, "a", [mergePush], 0, 0⟩ = .ok [] →
      Frame docsLib ⟨["docs.md"]⟩ (graftRepo [.ofByte 2, .ofByte 1]) mergePush) := by
  intro hc
  have hv : validate docsLib noLimits ⟨graftRepo [.ofByte 2, .ofByte 1], docsSession, "a", [mergePush], 0, 0⟩
      = .ok [] := rfl
  have hf := hc hv _ _ secretTree Tree.empty rfl rfl rfl rfl "secret" (by decide)
  exact absurd hf (by decide)

end Jamsesh.Prereceive
