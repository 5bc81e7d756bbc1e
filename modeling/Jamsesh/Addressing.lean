import Jamsesh.ThreeWay
/-!
# Addressing — to whom a conflict is addressed (`automerger/addressing.go`)

A conflict is addressed to the owner of the source ref and to the author of the latest commit of the draft that changed each
of its files.  The commits' changes go by the names that `Change.Files` gives, so these are the right authors exactly as far
as those names stand for the paths (`addressed_iff`).
-/
namespace Jamsesh.Automerger

open Git List

def parseSourceRefOwner (sourceRef : String) : String :=
  let heads := "refs/heads/".toList
  let rel := if Text.hasPrefix sourceRef.toList heads then sourceRef.toList.drop heads.length else sourceRef.toList
  match Text.splitAtMost '/' 3 rel with
  | [jam, _, user, branch] => if jam = "jam".toList then String.ofList ('@' :: user ++ '/' :: branch) else ""
  | _ => ""

def sortedKeys (set : Finset String) : List String := set.sort (· ≤ ·)

/-! ## The walk over the draft -/

/-- The changes of a commit against its first parent; none where something cannot be read. -/
def commitChanges (world : World) (repo : Repo) (c : Commit) : List Change :=
  let parentTree := match c.parents with
    | [] => some none
    | p :: _ => ((repo.commitObject p).bind repo.treeOf).map some
  match parentTree, repo.treeOf c with
  | some parent, some tree => (world.diffTree parent tree).toOption.getD []
  | _, _ => []

/-- The names under which the walk sees the changes of a commit. -/
def changedFiles (world : World) (repo : Repo) (c : Commit) : List String :=
  (commitChanges world repo c).filterMap (fun ch =>
    (changeFiles world.hasBlob ch).toOption.map (fun files => ((files.2.or files.1).map (·.name)).getD ""))

structure Search where
  set : Finset String
  needFiles : Finset String

def Search.modified (email : String) (s : Search) (path : String) : Search :=
  if path ∈ s.needFiles then ⟨insert email s.set, s.needFiles.erase path⟩ else s

/-- The callback over the items of the log, at most `n` times. -/
def searchLog (repo : Repo) (changed : Commit → List String) : Nat → Search → List (Except Hash Hash) → Search × Option GitErr
  | _, s, [] => (s, none)
  | _, s, .error _ :: _ => (s, some .objectNotFound)
  | n, s, .ok h :: items =>
    if n = 0 ∨ s.needFiles = ∅ then (s, none)
    else searchLog repo changed (n - 1)
      ((repo.commitObject h).elim s fun c => (changed c).foldl (Search.modified c.authorEmail) s) items

def ownerSet (sourceRef : String) : Finset String :=
  if parseSourceRefOwner sourceRef ≠ "" then {parseSourceRefOwner sourceRef} else ∅

/-- `computeAddressedTo`, which returns what it has along with an error. -/
def computeAddressedTo (world : World) (repo : Repo) (draftTip : Hash) (conflicts : List Conflict) (sourceRef : String) :
    List String × Option GitErr :=
  if conflicts = [] then (sortedKeys (ownerSet sourceRef), none)
  else match repo.log draftTip with
    | .error e => (sortedKeys (ownerSet sourceRef), some e)
    | .ok items =>
      let out := searchLog repo (changedFiles world repo) 100 ⟨ownerSet sourceRef, (conflicts.map (·.file)).toFinset⟩ items
      (sortedKeys out.1.set, out.2)

/-! ## The latest authors -/

/-- The first `n` commits of the log, up to an item that cannot be read. -/
def recent (repo : Repo) (n : Nat) (items : List (Except Hash Hash)) : List Commit :=
  ((items.takeWhile (·.isOk)).take n).filterMap (fun item => item.toOption.bind repo.commitObject)

def latestAuthor (changed : Commit → List String) (commits : List Commit) (p : Path) : Option String :=
  (commits.find? (p ∈ changed ·)).map (·.authorEmail)

variable {world : World} {repo : Repo} {changed : Commit → List String} {email : String}

theorem modified_all (email : String) (e : String) : ∀ (paths : List String) (s : Search),
    (e ∈ (paths.foldl (Search.modified email) s).set ↔ e ∈ s.set ∨ e = email ∧ ∃ p ∈ s.needFiles, p ∈ paths) ∧
      ∀ p, p ∈ (paths.foldl (Search.modified email) s).needFiles ↔ p ∈ s.needFiles ∧ p ∉ paths
  | [], s => by simp
  | path :: paths, s => by
    obtain ⟨hs, hn⟩ := modified_all email e paths (s.modified email path)
    by_cases hpath : path ∈ s.needFiles
    · rw [Search.modified, if_pos hpath] at hs hn
      rw [foldl_cons, Search.modified, if_pos hpath]
      refine ⟨hs.trans ?_, fun p => (hn p).trans ?_⟩
      · simp only [Finset.mem_insert, Finset.mem_erase, mem_cons]
        constructor
        · rintro ((rfl | he) | ⟨rfl, p, ⟨-, hp⟩, hm⟩)
          · exact .inr ⟨rfl, path, hpath, .inl rfl⟩
          · exact .inl he
          · exact .inr ⟨rfl, p, hp, .inr hm⟩
        · rintro (he | ⟨rfl, -⟩)
          · exact .inl (.inr he)
          · exact .inl (.inl rfl)
      · simp only [Finset.mem_erase, mem_cons]
        tauto
    · have hne : ∀ p ∈ s.needFiles, p ≠ path := fun p hp heq => hpath (heq ▸ hp)
      rw [Search.modified, if_neg hpath] at hs hn
      rw [foldl_cons, Search.modified, if_neg hpath]
      refine ⟨hs.trans ?_, fun p => (hn p).trans ?_⟩
      · refine or_congr_right (and_congr_right fun _ => exists_congr fun p => and_congr_right fun hp => ?_)
        simp only [mem_cons, hne p hp, false_or]
      · refine and_congr_right fun hp => ?_
        simp only [mem_cons, hne p hp, false_or]

theorem recent_cons (n : Nat) (h : Hash) (items : List (Except Hash Hash)) :
    recent repo (n + 1) (.ok h :: items) = (repo.commitObject h).toList ++ recent repo n items := by
  rw [recent, takeWhile_cons_of_pos rfl, take_succ_cons, filterMap_cons]
  cases hc : repo.commitObject h with
  | none | some => simp [Except.toOption, hc, recent]

/-- **The walk adds the latest author of each file that is looked for.** -/
theorem mem_searchLog : ∀ (items : List (Except Hash Hash)) (n : Nat) (s : Search),
    email ∈ (searchLog repo changed n s items).1.set ↔
      email ∈ s.set ∨ ∃ p ∈ s.needFiles, latestAuthor changed (recent repo n items) p = some email
  | [], n, s => by simp [searchLog, recent, latestAuthor]
  | .error x :: items, n, s => by simp [searchLog, recent, latestAuthor, Except.toBool]
  | .ok h :: items, n, s => by
    rw [searchLog]
    split
    · rename_i hs
      rcases hs with rfl | hn
      · simp [recent, latestAuthor]
      · simp [hn]
    · rename_i hgo
      obtain ⟨k, rfl⟩ := Nat.exists_eq_succ_of_ne_zero (not_or.1 hgo).1
      rw [mem_searchLog items, Nat.succ_sub_one, recent_cons]
      cases repo.commitObject h with
      | none => rfl
      | some c =>
        obtain ⟨hset, hneed⟩ := modified_all c.authorEmail email (changed c) s
        simp only [Option.elim_some, hset, hneed, or_assoc, Option.toList_some, singleton_append]
        refine or_congr_right ?_
        constructor
        · rintro (⟨rfl, p, hp, hm⟩ | ⟨p, ⟨hp, hm⟩, hl⟩)
          · exact ⟨p, hp, by simp [latestAuthor, hm]⟩
          · exact ⟨p, hp, by simpa [latestAuthor, hm] using hl⟩
        · rintro ⟨p, hp, ha⟩
          by_cases hm : p ∈ changed c
          · simp only [latestAuthor, List.find?_cons, hm, decide_true, Option.map_some, Option.some.injEq] at ha
            exact .inl ⟨ha.symm, p, hp, hm⟩
          · simp only [latestAuthor, List.find?_cons, hm] at ha
            exact .inr ⟨p, ⟨hp, hm⟩, ha⟩

def draftCommits (repo : Repo) (draftTip : Hash) : List Commit := recent repo 100 ((repo.log draftTip).toOption.getD [])

theorem mem_ownerSet {sourceRef : String} :
    email ∈ ownerSet sourceRef ↔ parseSourceRefOwner sourceRef ≠ "" ∧ email = parseSourceRefOwner sourceRef := by
  unfold ownerSet
  split <;> simp_all

theorem mem_computeAddressedTo {draftTip : Hash} {conflicts : List Conflict} {sourceRef : String} :
    email ∈ (computeAddressedTo world repo draftTip conflicts sourceRef).1 ↔
      email ∈ ownerSet sourceRef ∨ ∃ p ∈ conflicts.map (·.file),
        latestAuthor (changedFiles world repo) (draftCommits repo draftTip) p = some email := by
  unfold computeAddressedTo draftCommits
  split
  · rename_i hn
    simp [hn, sortedKeys]
  · cases repo.log draftTip with
    | error => simp [sortedKeys, Except.toOption, recent, latestAuthor]
    | ok => simp only [sortedKeys, Finset.mem_sort, mem_searchLog, mem_toFinset, Except.toOption, Option.getD_some]

/-! ## Names and paths -/

def changedPaths (world : World) (repo : Repo) (c : Commit) : List Path :=
  (commitChanges world repo c).flatMap (fun ch => (ch.fromEntry.toList ++ ch.toEntry.toList).map (·.name))

/-- **Each file's latest author is addressed, and nobody else** but the owner of the ref. -/
structure Addressed (world : World) (repo : Repo) (draftTip : Hash) (files : List Path) (sourceRef : String)
    (result : List String) : Prop where
  latest : ∀ p ∈ files, ∀ e, latestAuthor (changedPaths world repo) (draftCommits repo draftTip) p = some e → e ∈ result
  only : ∀ e ∈ result, e ∈ ownerSet sourceRef ∨
    ∃ p ∈ files, latestAuthor (changedPaths world repo) (draftCommits repo draftTip) p = some e

/-- **The latest authors are addressed exactly when the names that the walk sees lead to the same authors as the paths**, the
owner of the ref left aside. -/
theorem addressed_iff (world : World) (repo : Repo) (draftTip : Hash) (conflicts : List Conflict) (sourceRef : String) :
    Addressed world repo draftTip (conflicts.map (·.file)) sourceRef (computeAddressedTo world repo draftTip conflicts sourceRef).1 ↔
      ∀ e, e ∉ ownerSet sourceRef →
        ((∃ p ∈ conflicts.map (·.file), latestAuthor (changedFiles world repo) (draftCommits repo draftTip) p = some e) ↔
          ∃ p ∈ conflicts.map (·.file), latestAuthor (changedPaths world repo) (draftCommits repo draftTip) p = some e) := by
  constructor
  · rintro ⟨hl, honly⟩ e ho
    constructor
    · intro hf
      exact (honly e (mem_computeAddressedTo.2 (.inr hf))).resolve_left ho
    · rintro ⟨p, hp, he⟩
      exact (mem_computeAddressedTo.1 (hl p hp e he)).resolve_left ho
  · intro hs
    refine ⟨fun p hp e he => mem_computeAddressedTo.2 ?_, fun e he => ?_⟩
    · by_cases ho : e ∈ ownerSet sourceRef
      · exact .inl ho
      · exact .inr ((hs e ho).2 ⟨p, hp, he⟩)
    · by_cases ho : e ∈ ownerSet sourceRef
      · exact .inl ho
      · exact .inr ((hs e ho).1 ((mem_computeAddressedTo.1 he).resolve_left ho))

/-! ## A file in a directory -/

def nestedRepo : Repo where
  commits := [⟨.ofByte 1, [], .ofByte 1, "", "ada", "ada@example"⟩]
  nodup := by decide
  nonzero := by decide
  tree := fun _ => some ⟨.dir "d" (.file "f" ⟨.ofByte 2, .regular⟩ .nil) .nil, rfl⟩
  references := .ok []
  head := .error .referenceNotFound

/-- **The author of a file in a directory is not addressed**: the walk looks for `d/f` and sees `f`. -/
theorem nested_author_missed :
    latestAuthor (changedPaths entryWorld nestedRepo) (draftCommits nestedRepo (.ofByte 1)) "d/f" = some "ada@example" ∧
      "ada@example" ∉ (computeAddressedTo entryWorld nestedRepo (.ofByte 1) [⟨"d/f", []⟩] "refs/heads/jam/s/u/b").1 ∧
      ¬ Addressed entryWorld nestedRepo (.ofByte 1) ["d/f"] "refs/heads/jam/s/u/b"
        (computeAddressedTo entryWorld nestedRepo (.ofByte 1) [⟨"d/f", []⟩] "refs/heads/jam/s/u/b").1 := by
  have hl : latestAuthor (changedPaths entryWorld nestedRepo) (draftCommits nestedRepo (.ofByte 1)) "d/f" =
      some "ada@example" := by decide
  have hn : "ada@example" ∉
      (computeAddressedTo entryWorld nestedRepo (.ofByte 1) [⟨"d/f", []⟩] "refs/heads/jam/s/u/b").1 := by
    have hf : latestAuthor (changedFiles entryWorld nestedRepo) (draftCommits nestedRepo (.ofByte 1)) "d/f" = none := by decide
    have ho : "ada@example" ≠ parseSourceRefOwner "refs/heads/jam/s/u/b" := by decide
    rw [mem_computeAddressedTo, mem_ownerSet]
    rintro (⟨-, ho'⟩ | ⟨p, hp, ha⟩)
    · exact ho ho'
    · cases mem_singleton.1 hp
      rw [hf] at ha
      cases ha
  exact ⟨hl, hn, fun h => hn (h.latest "d/f" (mem_singleton_self _) _ hl)⟩

end Jamsesh.Automerger
