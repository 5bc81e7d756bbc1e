import Jamsesh.Prereceive
/-!
# PushWalk — which of the new commits of a push are checked

`walkAndValidate` walks the history of the new commit in pre-order and ends at the first sight of the old one.  It checks every
new commit exactly when none comes behind the old one in the walk (`walkAndValidate_covers_iff`), which fails as soon as a
merge lists the old commit before a side branch.
-/
namespace Jamsesh.Prereceive

open Git

def beforeOld (repo : Repo) (u : RefUpdate) : List Hash :=
  (Walk.visited (repo.history (newHash u.newSHA))).takeWhile (fun h => decide (h ≠ newHash u.oldSHA))

/-- **The new commits of an update**: in the history of the new commit and not in that of the old one. -/
def IsNew (repo : Repo) (u : RefUpdate) (h : Hash) : Prop :=
  repo.Reaches (newHash u.newSHA) h ∧ ¬ repo.Reaches (newHash u.oldSHA) h

theorem takeWhile_isStop {u : RefUpdate} (hold : u.oldSHA ≠ "") (l : List Hash) :
    l.takeWhile (fun h => !isStop u h) = l.takeWhile (fun h => decide (h ≠ newHash u.oldSHA)) := by
  congr 1
  funext h
  simp [isStop, hold]

theorem takeWhile_isStop_create {u : RefUpdate} (hold : u.oldSHA = "") (l : List Hash) :
    l.takeWhile (fun h => !isStop u h) = l := by
  rw [List.takeWhile_eq_self_iff]
  intro h _
  simp [isStop, hold]

theorem walkAndValidate_eq (lib : Lib) {repo : Repo} {u : RefUpdate} (scope : ScopeMatcher)
    (hnew : repo.Complete (newHash u.newSHA)) :
    walkAndValidate lib repo u scope
      = (((Walk.visited (repo.history (newHash u.newSHA))).takeWhile (fun h => !isStop u h)).filterMap
          repo.commitObject).flatMap (fun c => validateCommit lib repo c scope) := by
  obtain ⟨c, hc⟩ := Repo.parents_isSome (hnew _ Relation.ReflTransGen.refl)
  rw [walkAndValidate, Repo.log_eq hc]
  simp only
  rw [Repo.collect_history hnew]

theorem flatMap_commits_nil {repo : Repo} {f : Commit → List Rejection} {l : List Hash} :
    (l.filterMap repo.commitObject).flatMap f = [] ↔ ∀ h ∈ l, ∀ c, repo.commitObject h = some c → f c = [] := by
  rw [List.flatMap_eq_nil_iff]
  constructor
  · intro ha h hh c hc
    exact ha c (List.mem_filterMap.2 ⟨h, hh, hc⟩)
  · intro ha c hc
    obtain ⟨h, hh, hc⟩ := List.mem_filterMap.1 hc
    exact ha h hh c hc

theorem walkAndValidate_nil_iff (lib : Lib) {repo : Repo} {u : RefUpdate} (scope : ScopeMatcher) (hold : u.oldSHA ≠ "")
    (hnew : repo.Complete (newHash u.newSHA)) :
    walkAndValidate lib repo u scope = [] ↔
      ∀ h ∈ beforeOld repo u, ∀ c, repo.commitObject h = some c → validateCommit lib repo c scope = [] := by
  rw [walkAndValidate_eq lib scope hnew, takeWhile_isStop hold, flatMap_commits_nil]
  rfl

/-! ## The shapes of graph for which the check covers the push -/

def goodMessage : String := "m\n\nJam-Session: s\nJam-Turn: t\nJam-Author: a"

theorem goodMessage_trailers : Trailers.checkRequiredTrailers goodMessage.toList requiredTrailers = [] := by decide

theorem emptyMessage_trailers : Trailers.checkRequiredTrailers "".toList requiredTrailers ≠ [] := by decide

theorem validateCommit_no_patterns (lib : Lib) (repo : Repo) (c : Commit) :
    validateCommit lib repo c ⟨[]⟩ = [] ↔ Trailers.checkRequiredTrailers c.message.toList requiredTrailers = [] := by
  cases h : Trailers.checkRequiredTrailers c.message.toList requiredTrailers <;> simp [validateCommit, h]

/-- **The walk covers a push exactly when no new commit comes behind the old one in pre-order**; on any other graph there are
commit messages with which an unchecked commit goes through. -/
theorem walkAndValidate_covers_iff (lib : Lib) (repo : Repo) (u : RefUpdate) (hold : u.oldSHA ≠ "")
    (hnew : repo.Complete (newHash u.newSHA)) :
    (∀ (repo' : Repo) (scope : ScopeMatcher), repo.SameGraph repo' → walkAndValidate lib repo' u scope = [] →
        ∀ h, IsNew repo' u h → ∀ c, repo'.commitObject h = some c → validateCommit lib repo' c scope = []) ↔
      ∀ h, IsNew repo u h → h ∈ beforeOld repo u := by
  constructor
  · intro ha h hh
    by_contra hbehind
    -- the commits before the old one carry their trailers, all others an empty message
    let message := fun x => if x ∈ beforeOld repo u then goodMessage else ""
    have hs := repo.relabel_sameGraph message (fun _ => Tree.empty)
    have hb : beforeOld (repo.relabel message (fun _ => Tree.empty)) u = beforeOld repo u := by
      rw [beforeOld, hs.history, beforeOld]
    have hp : walkAndValidate lib (repo.relabel message (fun _ => Tree.empty)) u ⟨[]⟩ = [] := by
      rw [walkAndValidate_nil_iff lib _ hold (hs.complete hnew), hb]
      intro x hx c hc
      rw [validateCommit_no_patterns, (Repo.relabel_commitObject hc).1]
      simp only [message, if_pos hx]
      exact goodMessage_trailers
    have hparents : ((repo.relabel message (fun _ => Tree.empty)).parents h).isSome := by
      rw [hs.parents]
      exact hnew h hh.1
    obtain ⟨c, hc⟩ := Repo.parents_isSome hparents
    have hn' : IsNew (repo.relabel message (fun _ => Tree.empty)) u h := by
      rw [IsNew, Repo.Reaches, hs.parents]
      exact hh
    have hv := ha _ ⟨[]⟩ hs hp h hn' c hc
    rw [validateCommit_no_patterns, (Repo.relabel_commitObject hc).1] at hv
    simp only [message, if_neg hbehind] at hv
    exact emptyMessage_trailers hv
  · intro hcover repo' _ hs hp h hh c hc
    have hb : beforeOld repo' u = beforeOld repo u := by rw [beforeOld, hs.history, beforeOld]
    rw [walkAndValidate_nil_iff lib _ hold (hs.complete hnew), hb] at hp
    rw [IsNew, Repo.Reaches, hs.parents] at hh
    exact hp h (hcover h hh) c hc

theorem threeIds_nodup : [Hash.ofByte 1, Hash.ofByte 2, Hash.ofByte 3].Nodup := by decide

theorem threeIds_nonzero : Hash.zero ∉ [Hash.ofByte 1, Hash.ofByte 2, Hash.ofByte 3] := by decide

/-- A root `01…`, a second root `02…` with the given message, and a merge `03…` of the two. -/
def mergeRepo (sideMessage : String) (parents : List Hash) : Repo where
  commits := [⟨.ofByte 1, [], .zero, goodMessage, "", ""⟩, ⟨.ofByte 2, [], .zero, sideMessage, "", ""⟩,
    ⟨.ofByte 3, parents, .zero, goodMessage, "", ""⟩]
  nodup := threeIds_nodup
  nonzero := threeIds_nonzero
  tree := fun _ => none
  references := .ok []
  head := .error .referenceNotFound

def mergePush : RefUpdate :=
  ⟨"refs/heads/jam/s/a/b", "0101010101010101010101010101010101010101", "0303030303030303030303030303030303030303"⟩

def silentLib : Lib := ⟨fun _ _ => .ok [], fun _ => true, fun _ _ => none, fun _ => .ok []⟩

theorem walkAndValidate_covers_merge : mergePush.oldSHA ≠ "" ∧ ∀ (repo' : Repo) (scope : ScopeMatcher),
    (mergeRepo "" [.ofByte 2, .ofByte 1]).SameGraph repo' → walkAndValidate silentLib repo' mergePush scope = [] →
      ∀ h, IsNew repo' mergePush h → ∀ c, repo'.commitObject h = some c → validateCommit silentLib repo' c scope = [] := by
  have ho : mergePush.oldSHA ≠ "" := by decide
  have hc : (mergeRepo "" [.ofByte 2, .ofByte 1]).Closed := by decide
  have hn : (mergeRepo "" [.ofByte 2, .ofByte 1]).Complete (newHash mergePush.newSHA) := hc.complete (by decide)
  refine ⟨ho, (walkAndValidate_covers_iff silentLib _ mergePush ho hn).2 fun h ⟨hreach, hnew⟩ => ?_⟩
  have hm : ∀ x ∈ Walk.visited ((mergeRepo "" [.ofByte 2, .ofByte 1]).history (newHash mergePush.newSHA)),
      x = newHash mergePush.oldSHA ∨ x ∈ beforeOld (mergeRepo "" [.ofByte 2, .ofByte 1]) mergePush := by decide
  exact (hm h ((Repo.mem_history hn h).2 hreach)).resolve_left fun heq => hnew (heq ▸ .refl)

/-- **A side branch behind the old commit goes unchecked**: the merge lists the old commit first, and its second parent, which
carries no trailer, is accepted. -/
theorem side_branch_unchecked :
    (mergeRepo "" [.ofByte 1, .ofByte 2]).Reaches (newHash mergePush.newSHA) (newHash mergePush.oldSHA) ∧
      ¬ (walkAndValidate silentLib (mergeRepo "" [.ofByte 1, .ofByte 2]) mergePush ⟨[]⟩ = [] →
        ∀ h, IsNew (mergeRepo "" [.ofByte 1, .ofByte 2]) mergePush h →
          ∀ c, (mergeRepo "" [.ofByte 1, .ofByte 2]).commitObject h = some c →
            validateCommit silentLib (mergeRepo "" [.ofByte 1, .ofByte 2]) c ⟨[]⟩ = []) := by
  have hc : (mergeRepo "" [.ofByte 1, .ofByte 2]).Closed := by decide
  have hnew : (mergeRepo "" [.ofByte 1, .ofByte 2]).Complete (newHash mergePush.newSHA) := hc.complete (by decide)
  have hold : (mergeRepo "" [.ofByte 1, .ofByte 2]).Complete (newHash mergePush.oldSHA) := hc.complete (by decide)
  refine ⟨(Repo.mem_history hnew _).1 (by decide), fun hv => ?_⟩
  have hs : IsNew (mergeRepo "" [.ofByte 1, .ofByte 2]) mergePush (.ofByte 2) :=
    ⟨(Repo.mem_history hnew _).1 (by decide), fun hr => absurd ((Repo.mem_history hold _).2 hr) (by decide)⟩
  exact absurd (hv (by decide) (.ofByte 2) hs _ rfl) (by decide)

end Jamsesh.Prereceive
