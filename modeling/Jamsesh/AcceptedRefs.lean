import Jamsesh.PushFrame
import Jamsesh.ReceivePack
/-!
# AcceptedRefs — the refs an accepted push may move

An accepted push moves branches of the pusher's own and, in a repository without refs, the base.  Each update names a commit of
the repository, except where the first push of the base is not walked or a walk starts at HEAD for the zero id
(`accepted_lawful_iff`).
-/
namespace Jamsesh.Prereceive

open Git Githttp List Text

/-! ## The law -/

def sessionRef (session name : Text) : Text := refPrefix ++ session ++ '/' :: name

def NoTraversal (branch : Text) : Prop :=
  ¬ "..".toList <:+: branch ∧ ¬ "%2e%2e".toList <:+: branch.map lower ∧ ¬ "%252e%252e".toList <:+: branch.map lower

def OwnBranch (session account : String) (ref : String) : Prop :=
  ∃ branch, ref.toList = sessionRef session.toList (account.toList ++ '/' :: branch) ∧ branch ≠ [] ∧ NoTraversal branch

def NoConcreteRefs (repo : Repo) : Prop := ∃ refs, repo.references = .ok refs ∧ ∀ r ∈ refs, ∀ h, r.target ≠ .hash h

/-- **What the policy promises of an update**: its ref, that it is nobody else's, and where it moves. -/
structure Lawful (input : ValidateInput) (u : RefUpdate) : Prop where
  ref : OwnBranch input.session.id input.accountID u.ref ∨ (u.ref = baseRefName input.session.id ∧ NoConcreteRefs input.repo)
  notDraft : u.ref ≠ draftRefName input.session.id
  session : ∀ session name, '/' ∉ session → u.ref.toList = sessionRef session name → session = input.session.id.toList
  account : ∀ session account branch, '/' ∉ session → '/' ∉ account →
    u.ref.toList = sessionRef session (account ++ '/' :: branch) → account = input.accountID.toList
  resolves : ∃ c, input.repo.commitObject (newHash u.newSHA) = some c
  forward : u.oldSHA = "" ∨ input.repo.Reaches (newHash u.newSHA) (newHash u.oldSHA)

/-! ## Refs of a session -/

theorem sessionRef_injective {session session' name name' : Text} (h : '/' ∉ session) (h' : '/' ∉ session')
    (heq : sessionRef session name = sessionRef session' name') : session = session' ∧ name = name' := by
  rw [sessionRef, sessionRef, append_assoc, append_assoc] at heq
  have hsplit := append_cancel_left heq
  have h₁ := splitAtMost_append h 0 name
  rw [hsplit, splitAtMost_append h' 0 name'] at h₁
  have hs : session' = session := (List.cons.inj h₁).1
  exact ⟨hs.symm, ((List.cons.inj (List.cons.inj h₁).2).1).symm⟩

theorem sessionRef_toList (session : String) {last : String} {name : Text} (h : last.toList = '/' :: name) :
    ("refs/heads/jam/" ++ session ++ last).toList = sessionRef session.toList name := by
  rw [String.toList_append, String.toList_append, h]
  rfl

theorem baseRefName_toList (session : String) : (baseRefName session).toList = sessionRef session.toList "base".toList :=
  sessionRef_toList session (by decide)

theorem draftRefName_toList (session : String) : (draftRefName session).toList = sessionRef session.toList "draft".toList :=
  sessionRef_toList session (by decide)

theorem noTraversal_of_safe {branch : Text} (h : refSegmentSafe branch = true) : NoTraversal branch := by
  simp only [refSegmentSafe, Bool.and_eq_true, Bool.not_eq_true', ← Bool.not_eq_true, contains_iff] at h
  refine ⟨h.1.1, h.1.2, fun hin => h.2 (List.IsInfix.trans ?_ hin)⟩
  exact ⟨[], "%252e".toList, by decide⟩

theorem noConcreteRefs_of_empty {repo : Repo} (h : repoIsEmpty repo = .ok true) : NoConcreteRefs repo := by
  obtain ⟨refs, hrefs, ha⟩ := map_eq_ok h
  refine ⟨refs, hrefs, fun r hr _ ht => ?_⟩
  have hs := all_eq_true.1 ha r hr
  rw [ht] at hs
  cases hs

/-- **The refs the namespace check lets through**: a branch of the account's own, or the base of a session without refs. -/
theorem allowed_ref {repo : Repo} {session account ref : String} (h : (checkRefNamespace repo session account ref).1 = true) :
    ('/' ∉ session.toList ∧ '/' ∉ account.toList ∧ OwnBranch session account ref) ∨
      ('/' ∉ session.toList ∧ ref = baseRefName session ∧ NoConcreteRefs repo) := by
  unfold checkRefNamespace at h
  split at h
  · cases h
  rename_i hpre
  obtain ⟨_, hr⟩ := hasPrefix_iff.1 (by simpa using hpre)
  rw [← hr, drop_left] at h
  split at h
  · rename_i hp
    obtain ⟨hslash, ⟨hn, -⟩ | ⟨tail, rfl, ht⟩⟩ := splitAtMost_eq_cons hp
    · cases hn
    obtain ⟨ho, hm⟩ := splitAtMost_eq_cons ht.symm
    split at h
    · cases h
    rename_i hs
    rw [not_not] at hs
    subst hs
    split at h
    · rename_i hbase
      have htail' : tail = "base".toList := by
        rcases hm with ⟨-, ht⟩ | ⟨_, -, hn⟩
        · exact ht.trans hbase.1
        · rw [hbase.2, splitAtMost] at hn
          cases hn
      have href : ref = baseRefName session := by
        rw [← String.toList_inj, ← hr, htail', baseRefName_toList, sessionRef, append_assoc]
      cases he : repoIsEmpty repo with
      | error => rw [he] at h; cases h
      | ok empty =>
        cases empty with
        | false => rw [he] at h; cases h
        | true => exact .inr ⟨hslash, href, noConcreteRefs_of_empty he⟩
    · split at h
      · cases h
      rename_i branch _ _
      split at h
      · cases h
      rename_i ha
      rw [not_not] at ha
      subst ha
      split at h
      · cases h
      rename_i hb
      rw [not_or, Bool.not_eq_true', Bool.not_eq_false] at hb
      rcases hm with ⟨hn, -⟩ | ⟨_, rfl, hp'⟩
      · cases hn
      rw [splitAtMost] at hp'
      obtain ⟨rfl, -⟩ := List.cons.inj hp'
      refine .inl ⟨hslash, ho, branch, ?_, hb.1, noTraversal_of_safe hb.2⟩
      rw [← hr, sessionRef, append_assoc]
  · cases h

/-! ## Accepted updates -/

theorem validateRef_nil {repo : Repo} {session account : String} {u : RefUpdate}
    (h : validateRef repo session account u = .ok []) : (checkRefNamespace repo session account u.ref).1 = true := by
  unfold validateRef at h
  split at h
  · cases h
  · rename_i hns
    rw [hns]

theorem resolves_of_walk {lib : Lib} {repo : Repo} {u : RefUpdate} {scope : ScopeMatcher}
    (h : walkAndValidate lib repo u scope = []) (hz : newHash u.newSHA ≠ .zero) :
    ∃ c, repo.commitObject (newHash u.newSHA) = some c := by
  cases hc : repo.commitObject (newHash u.newSHA) with
  | some c => exact ⟨c, rfl⟩
  | none =>
    have hl : repo.log (newHash u.newSHA) = .error .objectNotFound := by simp [Repo.log, hz, hc]
    rw [walkAndValidate, hl] at h
    cases h

theorem lawful_of_allowed {input : ValidateInput} {u : RefUpdate}
    (h : (checkRefNamespace input.repo input.session.id input.accountID u.ref).1 = true)
    (hr : ∃ c, input.repo.commitObject (newHash u.newSHA) = some c)
    (hf : u.oldSHA = "" ∨ input.repo.Reaches (newHash u.newSHA) (newHash u.oldSHA)) : Lawful input u := by
  obtain ⟨hslash, name, href, hn⟩ : '/' ∉ input.session.id.toList ∧ ∃ name,
      u.ref.toList = sessionRef input.session.id.toList name ∧
        (name = "base".toList ∨ ∃ branch, '/' ∉ input.accountID.toList ∧ name = input.accountID.toList ++ '/' :: branch) := by
    rcases allowed_ref h with ⟨hs, ha, branch, href, -, -⟩ | ⟨hs, href, -⟩
    · exact ⟨hs, _, href, .inr ⟨branch, ha, rfl⟩⟩
    · exact ⟨hs, _, by rw [href, baseRefName_toList], .inl rfl⟩
  refine ⟨?_, ?_, ?_, ?_, hr, hf⟩
  · rcases allowed_ref h with ⟨-, -, ho⟩ | ⟨-, hb⟩
    · exact .inl ho
    · exact .inr hb
  · intro hd
    rw [hd, draftRefName_toList] at href
    obtain ⟨-, heq⟩ := sessionRef_injective hslash hslash href
    rcases hn with rfl | ⟨_, -, rfl⟩
    · exact absurd heq (by decide)
    · have hm : '/' ∈ "draft".toList := by rw [heq]; simp
      exact absurd hm (by decide)
  · intro _ _ hs heq
    exact (sessionRef_injective hs hslash (heq.symm.trans href)).1
  · intro _ _ branch hs ha heq
    obtain ⟨-, he'⟩ := sessionRef_injective hs hslash (heq.symm.trans href)
    rcases hn with rfl | ⟨branch', ha', rfl⟩
    · have hm : '/' ∈ "base".toList := by rw [← he']; simp
      exact absurd hm (by decide)
    · have hsplit := splitAtMost_append ha 0 branch
      rw [he', splitAtMost_append ha' 0 branch'] at hsplit
      exact (List.cons.inj hsplit).1.symm

theorem not_lawful_zero {input : ValidateInput} {ref old new : String} (hz : newHash new = .zero) :
    ¬ Lawful input ⟨ref, old, new⟩ := by
  intro hl
  obtain ⟨c, hc⟩ := hl.resolves
  obtain ⟨hm, hh⟩ := Repo.commitObject_eq_some hc
  exact input.repo.nonzero (mem_map.2 ⟨c, hm, hh.trans hz⟩)

/-- **An accepted push keeps the law exactly when the refs it creates name commits**: the base one that is there, any other
ref an id that is not read as the zero id. -/
theorem accepted_lawful_iff (lib : Lib) (limits : Limits) (input : ValidateInput) (hok : validate lib limits input = .ok []) :
    (∀ u ∈ input.updates, Lawful input u) ↔ ∀ u ∈ input.updates, u.oldSHA = "" →
        if u.ref = baseRefName input.session.id then ∃ c, input.repo.commitObject (newHash u.newSHA) = some c
        else newHash u.newSHA ≠ .zero := by
  obtain ⟨_, -, ha⟩ := validate_ok hok
  constructor
  · intro hl u hu _
    split
    · exact (hl u hu).resolves
    · exact fun hz => not_lawful_zero hz (hl u hu)
  · intro hc u hu
    obtain ⟨refPart, href, hr⟩ := bind_eq_ok (ha u hu)
    have hnil : refPart = [] := by
      split at hr
      · exact Except.ok.inj hr
      · exact (append_eq_nil_iff.1 (Except.ok.inj hr)).1
    subst hnil
    have hns := validateRef_nil href
    by_cases ho : u.oldSHA = ""
    · refine lawful_of_allowed hns ?_ (.inl ho)
      have hn := hc u hu ho
      split at hn
      · exact hn
      rename_i hb
      have hf : isBaseRefFirstPush input.session.id u = false := by
        rw [isBaseRefFirstPush, decide_eq_false_iff_not]
        exact fun h => hb h.2
      rw [hf, if_neg Bool.false_ne_true] at hr
      exact resolves_of_walk (Except.ok.inj hr) hn
    · obtain ⟨hresolves, hreaches, -⟩ := validateUpdate_ok ho (ha u hu)
      exact lawful_of_allowed hns hresolves (.inr hreaches)

/-! ## Two pushes -/

def headRepo : Repo where
  commits := [⟨.ofByte 1, [], .zero, goodMessage, "", ""⟩]
  nodup := by decide
  nonzero := by decide
  tree := fun _ => none
  references := .ok [⟨"refs/heads/main", .hash (.ofByte 1)⟩]
  head := .ok (.ofByte 1)

def branchInput (newSHA : String) : ValidateInput :=
  ⟨headRepo, ⟨"s", "o", ""⟩, "a", [⟨"refs/heads/jam/s/a/b", "", newSHA⟩], 0, 0⟩

theorem accepted_lawful_branch : validate silentLib noLimits (branchInput mergePush.oldSHA) = .ok [] ∧
    ∀ u ∈ (branchInput mergePush.oldSHA).updates, Lawful (branchInput mergePush.oldSHA) u := by
  have hok : validate silentLib noLimits (branchInput mergePush.oldSHA) = .ok [] := by decide
  refine ⟨hok, (accepted_lawful_iff silentLib noLimits _ hok).2 (forall_mem_singleton.2 fun _ => ?_)⟩
  rw [if_neg (by decide)]
  decide

def zeroSHA : String := "0000000000000000000000000000000000000000"

def missingBase : ValidateInput :=
  ⟨{ headRepo with references := .ok [], head := .error .referenceNotFound }, ⟨"s", "o", ""⟩, "a",
    [⟨"refs/heads/jam/s/base", "", zeroSHA⟩], 0, 0⟩

/-- **A deletion passes**: of a branch while HEAD names a commit, and of the base of a session without refs. -/
theorem deletions_accepted :
    (validate silentLib noLimits (branchInput zeroSHA) = .ok [] ∧
      ¬ ∀ u ∈ (branchInput zeroSHA).updates,
        Lawful (branchInput zeroSHA) u) ∧
      validate silentLib noLimits missingBase = .ok [] ∧ ¬ ∀ u ∈ missingBase.updates, Lawful missingBase u := by
  have hz : newHash zeroSHA = .zero := by decide
  refine ⟨⟨by decide, fun hl => ?_⟩, by decide, fun hl => ?_⟩
  · exact not_lawful_zero hz (hl ⟨"refs/heads/jam/s/a/b", "", _⟩ mem_cons_self)
  · exact not_lawful_zero hz (hl ⟨"refs/heads/jam/s/base", "", _⟩ mem_cons_self)

end Jamsesh.Prereceive
