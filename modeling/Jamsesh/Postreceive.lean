import Jamsesh.PushWalk
import Jamsesh.WalkOrder
import Mathlib.Data.Set.Card
/-!
# Postreceive — the events of the commits that arrived (`postreceive/emitter.go`)

`EmitForUpdates` walks the history of the new commit in pre-order, stops at the old commit or the base, and emits what it has
met in reverse.  That is every new commit once, ancestors first, exactly on histories that the walk lists in order and whose
old part it enters by one of the two stops (`emitForUpdates_exact_iff`).
-/
namespace Jamsesh.Postreceive

open Git List Walk
open Prereceive (RefUpdate)

/-! ## The source -/

def maxCommitsPerUpdate : Nat := 1000

structure CommitArrivedPayload where
  sha : String
  ref : String
  summary : String
  authorId : String
deriving DecidableEq

structure DraftEvent where
  type : String
  payload : CommitArrivedPayload
deriving DecidableEq

/-- `commitSummary`: the first line, trimmed. -/
def commitSummary (message : Text) : Text := Text.trimSpace (Text.beforeNewline message)

/-- `commitAuthorID`: the `Jam-Author` trailer, or the author's address where it is absent or blank. -/
def commitAuthorID (message authorEmail : Text) : Text :=
  match Trailers.lookup message "Jam-Author".toList with
  | some v => if Text.trimSpace v ≠ [] then v else authorEmail
  | none => authorEmail

def draftOf (update : RefUpdate) (c : Commit) : DraftEvent :=
  ⟨"commit.arrived", ⟨c.hash.string, update.ref, String.ofList (commitSummary c.message.toList),
    String.ofList (commitAuthorID c.message.toList c.authorEmail.toList)⟩⟩

def stops (update : RefUpdate) (baseSHA : String) : List Hash :=
  (if update.oldSHA ≠ "" then [newHash update.oldSHA] else []) ++
    if baseSHA ≠ "" ∧ baseSHA ≠ update.newSHA then [newHash baseSHA] else []

/-- `iter.ForEach` with the callback that collects `newestFirst`: it stops before a stop, and with a full slice where there are
no stops. -/
def collectNew (stops : List Hash) : List Hash → List (Except Hash Hash) → Except GitErr (List Hash)
  | newestFirst, [] => .ok newestFirst
  | _, .error _ :: _ => .error .objectNotFound
  | newestFirst, .ok h :: rest =>
    if h ∈ stops then .ok newestFirst
    else if stops = [] ∧ (newestFirst ++ [h]).length ≥ maxCommitsPerUpdate then .ok (newestFirst ++ [h])
    else collectNew stops (newestFirst ++ [h]) rest

/-- `emitForUpdate` up to the call of `EmitBatch`: the drafts, none where it makes no call. -/
def draftsForUpdate (repo : Repo) (baseSHA : String) (update : RefUpdate) : Except String (List DraftEvent) :=
  -- no new commits: the ref has not moved, or it is the base itself
  if update.oldSHA ≠ "" ∧ update.oldSHA = update.newSHA then .ok []
  else if baseSHA ≠ "" ∧ baseSHA = update.newSHA then .ok []
  else
    match repo.log (newHash update.newSHA) with
    | .error e => .error ("postreceive: log from " ++ update.newSHA ++ ": " ++ e.text)
    | .ok items =>
      match collectNew (stops update baseSHA) [] items with
      | .error e => .error ("postreceive: walk commits for " ++ update.ref ++ ": " ++ e.text)
      | .ok newestFirst => .ok ((newestFirst.reverse.filterMap repo.commitObject).map (draftOf update))

/-- **`EmitForUpdates`**: the batches that were emitted, one for each update that was handled, and how it ended.  `emitBatch`
and `sync` are the answers of the event log and of the mirroring. -/
def emitForUpdates (emitBatch : List DraftEvent → Except String Unit) (sync : Except String Unit) (repo : Repo) (baseSHA : String) :
    List RefUpdate → List (List DraftEvent) × Except String Unit
  | [] => ([], sync)
  | update :: updates =>
    match draftsForUpdate repo baseSHA update with
    | .error e => ([], .error e)
    | .ok drafts =>
      match if drafts = [] then .ok () else emitBatch drafts with
      | .error e => ([], .error e)
      | .ok () =>
        let (batches, result) := emitForUpdates emitBatch sync repo baseSHA updates
        (drafts :: batches, result)

/-! ## What is to be emitted -/

/-- A commit of the history before the push: in that of the old commit or of the base. -/
def IsOld (repo : Repo) (baseSHA : String) (update : RefUpdate) (h : Hash) : Prop :=
  (update.oldSHA ≠ "" ∧ repo.Reaches (newHash update.oldSHA) h) ∨ (baseSHA ≠ "" ∧ repo.Reaches (newHash baseSHA) h)

def isStop (baseSHA : String) (update : RefUpdate) (h : Hash) : Bool :=
  (update.oldSHA ≠ "" ∧ h = newHash update.oldSHA) ∨ (baseSHA ≠ "" ∧ h = newHash baseSHA)

/-- **The events are exactly those of the new commits**, one for each, and an ancestor's comes before its descendants'. -/
def ExactlyNew (repo : Repo) (baseSHA : String) (update : RefUpdate) (drafts : List DraftEvent) : Prop :=
  (∀ d ∈ drafts, d.type = "commit.arrived" ∧ d.payload.ref = update.ref) ∧
  ∃ hs : List Hash, drafts.map (·.payload.sha) = hs.map Hash.string ∧ hs.Nodup ∧
    (∀ h, h ∈ hs ↔ repo.Reaches (newHash update.newSHA) h ∧ ¬ IsOld repo baseSHA update h) ∧
    hs.Pairwise (fun a b => ¬ repo.Reaches a b)

/-- **A history that is walked in order**: each list of parents is tidy, the old part is entered by one of its ends, and
without one there are no more commits than are emitted at most. -/
structure WalkedInOrder (repo : Repo) (baseSHA : String) (update : RefUpdate) : Prop where
  tidy : Tidy repo.parents (IsOld repo baseSHA update) (newHash update.newSHA)
  enters : Enters repo.parents (IsOld repo baseSHA update) (isStop baseSHA update) (newHash update.newSHA)
  bounded : update.oldSHA = "" → baseSHA = "" → {h | repo.Reaches (newHash update.newSHA) h}.ncard ≤ maxCommitsPerUpdate

/-! ## What is emitted -/

theorem collectNew_bounded {stops : List Hash} (hstops : stops ≠ []) : ∀ (items : List (Except Hash Hash)) (acc : List Hash),
    (∀ x, Except.error x ∉ items) →
      collectNew stops acc items = .ok (acc ++ (visited items).takeWhile (fun h => decide (h ∉ stops)))
  | [], acc, _ => by simp [collectNew]
  | .error h :: _, _, he => absurd mem_cons_self (he h)
  | .ok h :: items, acc, he => by
    have ih := collectNew_bounded hstops items (acc ++ [h]) fun x hx => he x (mem_cons_of_mem _ hx)
    rw [collectNew, visited_ok, takeWhile_cons]
    by_cases hs : h ∈ stops
    · simp [hs]
    · simp [hs, hstops, ih]

theorem collectNew_unbounded : ∀ (items : List (Except Hash Hash)) (acc : List Hash), acc.length < maxCommitsPerUpdate →
    (∀ x, Except.error x ∉ items) → collectNew [] acc items = .ok ((acc ++ visited items).take maxCommitsPerUpdate)
  | [], acc, ha, _ => by
    rw [collectNew, visited_nil, append_nil, take_of_length_le (Nat.le_of_lt ha)]
  | .error h :: _, _, _, he => absurd mem_cons_self (he h)
  | .ok h :: items, acc, ha, he => by
    have hi : ∀ x, Except.error x ∉ items := fun x hx => he x (mem_cons_of_mem _ hx)
    rw [collectNew, if_neg not_mem_nil, visited_ok, append_cons acc h (visited items)]
    by_cases hf : (acc ++ [h]).length ≥ maxCommitsPerUpdate
    · rw [if_pos ⟨rfl, hf⟩, take_append_of_le_length hf, take_of_length_le]
      rw [length_append, length_singleton]
      exact ha
    · rw [if_neg fun hb => hf hb.2]
      exact collectNew_unbounded items (acc ++ [h]) (Nat.lt_of_not_ge hf) hi

def arrivals (repo : Repo) (baseSHA : String) (update : RefUpdate) : List Hash :=
  if (update.oldSHA ≠ "" ∧ update.oldSHA = update.newSHA) ∨ (baseSHA ≠ "" ∧ baseSHA = update.newSHA) then []
  else if stops update baseSHA = [] then
    ((visited (repo.history (newHash update.newSHA))).take maxCommitsPerUpdate).reverse
  else ((visited (repo.history (newHash update.newSHA))).takeWhile (fun h => decide (h ∉ stops update baseSHA))).reverse

section
variable {repo : Repo} {baseSHA : String} {update : RefUpdate} (hnew : repo.Complete (newHash update.newSHA))

include hnew

theorem draftsForUpdate_eq : draftsForUpdate repo baseSHA update =
    .ok (((arrivals repo baseSHA update).filterMap repo.commitObject).map (draftOf update)) := by
  obtain ⟨c, hc⟩ := Repo.parents_isSome (hnew _ .refl)
  unfold draftsForUpdate arrivals
  by_cases ho : update.oldSHA ≠ "" ∧ update.oldSHA = update.newSHA
  · rw [if_pos ho, if_pos (.inl ho)]
    rfl
  by_cases hb : baseSHA ≠ "" ∧ baseSHA = update.newSHA
  · rw [if_neg ho, if_pos hb, if_pos (.inr hb)]
    rfl
  rw [if_neg ho, if_neg hb, if_neg (not_or.2 ⟨ho, hb⟩), Repo.log_eq hc]
  by_cases hs : stops update baseSHA = []
  · rw [if_pos hs, hs]
    simp only
    rw [collectNew_unbounded _ [] (by decide) (Repo.history_no_error hnew), nil_append]
  · rw [if_neg hs]
    simp only
    rw [collectNew_bounded hs _ [] (Repo.history_no_error hnew), nil_append]

theorem arrivals_subset {h : Hash} (hh : h ∈ arrivals repo baseSHA update) : repo.Reaches (newHash update.newSHA) h := by
  unfold arrivals at hh
  split at hh
  · cases hh
  refine (Repo.mem_history hnew h).1 ?_
  split at hh
  · exact mem_of_mem_take (mem_reverse.1 hh)
  · exact (takeWhile_sublist _).subset (mem_reverse.1 hh)

theorem drafts_shas : (((arrivals repo baseSHA update).filterMap repo.commitObject).map (draftOf update)).map (·.payload.sha) =
    (arrivals repo baseSHA update).map Hash.string := by
  have ha : ∀ l : List Hash, (∀ h ∈ l, (repo.parents h).isSome) →
      ((l.filterMap repo.commitObject).map (draftOf update)).map (·.payload.sha) = l.map Hash.string := by
    intro l
    induction l with
    | nil => exact fun _ => rfl
    | cons h l ih =>
      intro hl
      obtain ⟨hh, hl⟩ := forall_mem_cons.1 hl
      obtain ⟨c, hc⟩ := Repo.parents_isSome hh
      rw [filterMap_cons_some hc, map_cons, map_cons, map_cons, ih hl, ← (Repo.commitObject_eq_some hc).2]
      rfl
  exact ha _ fun h hh => hnew h (arrivals_subset hnew hh)

theorem exactlyNew_iff : ExactlyNew repo baseSHA update (((arrivals repo baseSHA update).filterMap repo.commitObject).map
      (draftOf update)) ↔ (arrivals repo baseSHA update).Nodup ∧
    (∀ h, h ∈ arrivals repo baseSHA update ↔ repo.Reaches (newHash update.newSHA) h ∧ ¬ IsOld repo baseSHA update h) ∧
    (arrivals repo baseSHA update).Pairwise (fun a b => ¬ repo.Reaches a b) := by
  constructor
  · rintro ⟨-, _, hs, hr⟩
    rw [drafts_shas hnew] at hs
    rw [map_injective_iff.2 (fun _ _ => Hash.string_injective) hs]
    exact hr
  · intro hr
    refine ⟨fun d hd => ?_, _, drafts_shas hnew, hr⟩
    obtain ⟨c, -, rfl⟩ := mem_map.1 hd
    exact ⟨rfl, rfl⟩

theorem history_lists : Lists repo.parents [newHash update.newSHA] []
    (visited (repo.history (newHash update.newSHA))) := walk_lists repo.nodup Repo.mem_hashes hnew

omit hnew in
theorem isOld_edge (a b : Hash) (hab : Edge repo.parents a b) (ha : IsOld repo baseSHA update a) :
    IsOld repo baseSHA update b :=
  ha.imp (fun ⟨hne, hr⟩ => ⟨hne, hr.tail hab⟩) (fun ⟨hne, hr⟩ => ⟨hne, hr.tail hab⟩)

omit hnew in
theorem isOld_of_isStop (repo : Repo) (h : Hash) (hs : isStop baseSHA update h = true) : IsOld repo baseSHA update h := by
  simp only [isStop, decide_eq_true_eq] at hs
  rcases hs with ⟨hne, rfl⟩ | ⟨hne, rfl⟩
  · exact .inl ⟨hne, .refl⟩
  · exact .inr ⟨hne, .refl⟩

omit hnew in
theorem mem_stops (hbase : ¬ (baseSHA ≠ "" ∧ baseSHA = update.newSHA)) (h : Hash) :
    h ∈ stops update baseSHA ↔ isStop baseSHA update h = true := by
  simp only [stops, isStop, decide_eq_true_eq, mem_append]
  refine or_congr ?_ ?_
  · split
    · rename_i hne
      simp [hne]
    · rename_i hne
      simp [hne]
  · by_cases hne : baseSHA = ""
    · simp [hne]
    · have hm : baseSHA ≠ update.newSHA := fun heq => hbase ⟨hne, heq⟩
      simp [hne, hm]

omit hnew in
theorem stops_eq_nil (hbase : ¬ (baseSHA ≠ "" ∧ baseSHA = update.newSHA)) :
    stops update baseSHA = [] ↔ update.oldSHA = "" ∧ baseSHA = "" := by
  simp only [eq_nil_iff_forall_not_mem, mem_stops hbase, isStop, decide_eq_true_eq, not_or, forall_and]
  simp

theorem ncard_history : {h | repo.Reaches (newHash update.newSHA) h}.ncard =
    (visited (repo.history (newHash update.newSHA))).length := by
  have hs : {h | repo.Reaches (newHash update.newSHA) h} = ((visited (repo.history (newHash update.newSHA))).toFinset) := by
    ext h
    simp [Repo.mem_history hnew]
  rw [hs, Set.ncard_coe_finset, toFinset_card_of_nodup (history_lists hnew).nodup]

theorem arrivals_iff (hacyclic : Acyclic repo.parents) : ((arrivals repo baseSHA update).Nodup ∧
    (∀ h, h ∈ arrivals repo baseSHA update ↔ repo.Reaches (newHash update.newSHA) h ∧ ¬ IsOld repo baseSHA update h) ∧
    (arrivals repo baseSHA update).Pairwise (fun a b => ¬ repo.Reaches a b)) ↔ WalkedInOrder repo baseSHA update := by
  have hmem := Repo.mem_history hnew
  have hcard := ncard_history hnew
  have hlists := history_lists hnew
  have hcut := hlists.cut_iff hacyclic isOld_edge (fun h (hs : isStop baseSHA update h = true) => isOld_of_isStop repo h hs)
  unfold arrivals
  generalize visited (repo.history (newHash update.newSHA)) = listed at *
  split
  · rename_i hn
    have hstop : isStop baseSHA update (newHash update.newSHA) = true := by
      simp only [isStop, decide_eq_true_eq]
      rcases hn with ⟨hne, heq⟩ | ⟨hne, heq⟩
      · exact .inl ⟨hne, by rw [heq]⟩
      · exact .inr ⟨hne, by rw [heq]⟩
    have hold : ∀ h, repo.Reaches (newHash update.newSHA) h → ¬ ¬ IsOld repo baseSHA update h := fun h hh hf =>
      hf (old_of_reach isOld_edge hh (isOld_of_isStop repo _ hstop))
    refine iff_of_true ⟨nodup_nil, fun h => ⟨fun hh => absurd hh not_mem_nil, fun hh => absurd hh.2 (hold h hh.1)⟩, .nil⟩
      ⟨fun m hm hf => absurd hf (hold m hm), ⟨fun _ => hstop, fun m hm hf => absurd hf (hold m hm)⟩, ?_⟩
    intro hno hn'
    simp [isStop, hno, hn'] at hstop
  rename_i hsome
  obtain ⟨-, hb⟩ := not_or.1 hsome
  split
  · rename_i hnil
    obtain ⟨hno, hn'⟩ := (stops_eq_nil hb).1 hnil
    have hall : listed.takeWhile (fun h => !isStop baseSHA update h) = listed := by
      rw [takeWhile_eq_self_iff]
      intro h _
      simp [isStop, hno, hn']
    rw [hall] at hcut
    simp only [nodup_reverse, mem_reverse, pairwise_reverse]
    constructor
    · rintro ⟨-, he, ho⟩
      -- with no old commits everything is new, and only so many are kept
      have hkept : listed ⊆ listed.take maxCommitsPerUpdate := fun h hh =>
        (he h).2 ⟨(hmem h).1 hh, by simp [IsOld, hno, hn']⟩
      have hlen := (hlists.nodup.subperm hkept).length_le.trans (length_take_le _ _)
      rw [take_of_length_le hlen] at he ho
      obtain ⟨ht, henters⟩ := hcut.1 ⟨he, ho⟩
      exact ⟨ht, henters, fun _ _ => hcard ▸ hlen⟩
    · intro h
      rw [take_of_length_le (hcard ▸ h.bounded hno hn')]
      exact ⟨hlists.nodup, hcut.2 ⟨h.tidy, h.enters⟩⟩
  · rename_i hstops
    have hsame : (fun h => decide (h ∉ stops update baseSHA)) = fun h => !isStop baseSHA update h := by
      funext h
      rw [Bool.eq_iff_iff, decide_eq_true_eq, mem_stops hb]
      simp
    rw [hsame]
    simp only [nodup_reverse, mem_reverse, pairwise_reverse]
    constructor
    · rintro ⟨-, he⟩
      obtain ⟨ht, henters⟩ := hcut.1 he
      exact ⟨ht, henters, fun hno hn' => absurd ((stops_eq_nil hb).2 ⟨hno, hn'⟩) hstops⟩
    · intro h
      exact ⟨hlists.nodup.sublist (takeWhile_sublist _), hcut.2 ⟨h.tidy, h.enters⟩⟩

end

/-! ## A push -/

section
variable {emitBatch : List DraftEvent → Except String Unit} {sync : Except String Unit} {repo : Repo} {baseSHA : String}
  (hlog : ∀ drafts, emitBatch drafts = .ok ())

include hlog in
theorem emitForUpdates_batches : ∀ (updates : List RefUpdate), (∀ u ∈ updates, repo.Complete (newHash u.newSHA)) →
    emitForUpdates emitBatch sync repo baseSHA updates =
      (updates.map (fun u => ((arrivals repo baseSHA u).filterMap repo.commitObject).map (draftOf u)), sync)
  | [], _ => rfl
  | update :: updates, hnew => by
    obtain ⟨hu, hnew⟩ := forall_mem_cons.1 hnew
    rw [emitForUpdates, draftsForUpdate_eq hu]
    simp only [hlog, ite_self]
    rw [emitForUpdates_batches updates hnew]
    rfl

end

theorem acyclic_of_rank {repo : Repo} (rank : Hash → Nat) (h : ∀ c ∈ repo.commits, ∀ p ∈ c.parents, rank p < rank c.hash) :
    Acyclic repo.parents := by
  have he : ∀ a b, Edge repo.parents a b → rank b < rank a := by
    rintro a b ⟨l, hl, hb⟩
    obtain ⟨c, hc, rfl⟩ := Option.map_eq_some_iff.1 hl
    obtain ⟨hm, rfl⟩ := Repo.commitObject_eq_some hc
    exact h c hm b hb
  have hp : ∀ a b, Relation.TransGen (Edge repo.parents) a b → rank b < rank a := by
    intro a b hab
    induction hab with
    | single hab => exact he _ _ hab
    | tail _ hbc ih => exact (he _ _ hbc).trans ih
  exact fun a ha => Nat.lt_irrefl _ (hp a a ha)

open Prereceive (mergeRepo mergePush)

theorem mergeRepo_acyclic (parents : List Hash) (h : ∀ p ∈ parents, p = .ofByte 1 ∨ p = .ofByte 2) :
    Acyclic (mergeRepo "" parents).parents := by
  refine acyclic_of_rank (fun h => (h.bytes.headD 0).val) fun c hc p hp => ?_
  simp only [mergeRepo, mem_cons, not_mem_nil, or_false] at hc
  rcases hc with rfl | rfl | rfl
  · cases hp
  · cases hp
  · have hm : ∀ p ∈ [Hash.ofByte 1, Hash.ofByte 2], (p.bytes.headD 0).val < ((Hash.ofByte 3).bytes.headD 0).val := by decide
    exact hm p (by simpa using h p hp)

theorem mergeRepo_walkedInOrder : WalkedInOrder (mergeRepo "" [.ofByte 2, .ofByte 1]) "" mergePush := by
  have hclosed : (mergeRepo "" [.ofByte 2, .ofByte 1]).Closed := by decide
  have hnew : (mergeRepo "" [.ofByte 2, .ofByte 1]).Complete (newHash mergePush.newSHA) := hclosed.complete (by decide)
  have hold : (mergeRepo "" [.ofByte 2, .ofByte 1]).Complete (newHash mergePush.oldSHA) := hclosed.complete (by decide)
  have hside : (mergeRepo "" [.ofByte 2, .ofByte 1]).Complete (.ofByte 2) := hclosed.complete (by decide)
  refine (arrivals_iff hnew (mergeRepo_acyclic _ (by decide))).1 ⟨by decide, fun h => ?_, ?_⟩
  · have hnot : mergePush.oldSHA ≠ "" ∧ Hash.ofByte 2 ≠ .ofByte 1 ∧ Hash.ofByte 3 ≠ .ofByte 1 := by decide
    rw [IsOld, ← Repo.mem_history hnew, ← Repo.mem_history hold]
    change h ∈ [Hash.ofByte 2, .ofByte 3] ↔ h ∈ [Hash.ofByte 3, .ofByte 2, .ofByte 1] ∧ ¬ (_ ∧ h ∈ [Hash.ofByte 1] ∨ _)
    grind
  · change List.Pairwise _ [Hash.ofByte 2, .ofByte 3]
    rw [pairwise_pair, ← Repo.mem_history hside]
    decide

/-- **A push emits exactly one event for each new commit of each update, ancestors first, exactly when the history of every
update is walked in order.** -/
theorem emitForUpdates_exact_iff {emitBatch : List DraftEvent → Except String Unit} {sync : Except String Unit} {repo : Repo}
    {baseSHA : String} (hlog : ∀ drafts, emitBatch drafts = .ok ()) (hacyclic : Acyclic repo.parents)
    (updates : List RefUpdate) (hnew : ∀ u ∈ updates, repo.Complete (newHash u.newSHA)) :
    List.Forall₂ (ExactlyNew repo baseSHA) updates (emitForUpdates emitBatch sync repo baseSHA updates).1 ↔
      ∀ u ∈ updates, WalkedInOrder repo baseSHA u := by
  rw [emitForUpdates_batches hlog updates hnew, forall₂_map_right_iff, forall₂_same]
  refine forall₂_congr fun u hu => ?_
  rw [exactlyNew_iff (hnew u hu), arrivals_iff (hnew u hu) hacyclic]

theorem emitForUpdates_merge : (mergeRepo "" [.ofByte 2, .ofByte 1]).Complete (newHash mergePush.newSHA) ∧
    List.Forall₂ (ExactlyNew (mergeRepo "" [.ofByte 2, .ofByte 1]) "") [mergePush]
      (emitForUpdates (fun _ => .ok ()) (.ok ()) (mergeRepo "" [.ofByte 2, .ofByte 1]) "" [mergePush]).1 := by
  have hc : (mergeRepo "" [.ofByte 2, .ofByte 1]).Closed := by decide
  have hnew : (mergeRepo "" [.ofByte 2, .ofByte 1]).Complete (newHash mergePush.newSHA) := hc.complete (by decide)
  refine ⟨hnew, (emitForUpdates_exact_iff (fun _ => rfl) (mergeRepo_acyclic _ (by decide)) [mergePush] ?_).2 ?_⟩
  · exact fun u hu => mem_singleton.1 hu ▸ hnew
  · exact fun u hu => mem_singleton.1 hu ▸ mergeRepo_walkedInOrder

/-- **A side branch behind the old commit is not announced**: the merge lists the old commit first and the walk stops there. -/
theorem side_branch_not_emitted : Acyclic (mergeRepo "" [.ofByte 1, .ofByte 2]).parents ∧
    (mergeRepo "" [.ofByte 1, .ofByte 2]).Complete (newHash mergePush.newSHA) ∧
    ¬ List.Forall₂ (ExactlyNew (mergeRepo "" [.ofByte 1, .ofByte 2]) "") [mergePush]
      (emitForUpdates (fun _ => .ok ()) (.ok ()) (mergeRepo "" [.ofByte 1, .ofByte 2]) "" [mergePush]).1 := by
  have hc : (mergeRepo "" [.ofByte 1, .ofByte 2]).Closed := by decide
  have hnew : (mergeRepo "" [.ofByte 1, .ofByte 2]).Complete (newHash mergePush.newSHA) := hc.complete (by decide)
  refine ⟨mergeRepo_acyclic _ (by decide), hnew, fun h => ?_⟩
  rw [emitForUpdates_batches (fun _ => rfl) [mergePush] fun u hu => mem_singleton.1 hu ▸ hnew] at h
  obtain ⟨-, hexact, -⟩ := (exactlyNew_iff hnew).1 (forall₂_cons.1 h).1
  refine absurd ((hexact (.ofByte 2)).2 ⟨(Repo.mem_history hnew _).1 (by decide), ?_⟩) (by decide)
  rintro (⟨-, hr⟩ | ⟨hne, -⟩)
  · exact absurd ((Repo.mem_history (hc.complete (by decide)) _).2 hr) (by decide)
  · exact hne rfl

end Jamsesh.Postreceive
