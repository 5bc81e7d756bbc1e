import Jamsesh.Machine
import Jamsesh.Worker
/-!
# DraftRuns — the draft under the auto-merger

Of the writes of `processEvent` one moves the draft, to a merge commit of the tip that was read and the arrived commit.  A
commit that the draft has already cuts the merge short and keeps the draft's tree.  Git's part is assumed: merge bases are best
common ancestors, and an id names one commit.
-/
namespace Jamsesh.Automerger

open Git Githttp List Machine

/-! ## Merge bases -/

/-- **A best common ancestor**: no other common ancestor descends from it. -/
structure BestCommon (repo : Repo) (a b x : Hash) : Prop where
  left : repo.Reaches a x
  right : repo.Reaches b x
  best : ∀ y, repo.Reaches a y → repo.Reaches b y → repo.Reaches y x → y = x

variable {repo disk disk' : Repo} {a : Answers} {x : Hash} {α : Type} {e : Arrived} {p : Prepared}

theorem BestCommon.eq_of_reaches {a b : Hash} (h : BestCommon repo a b x) (hab : repo.Reaches b a) : a = x :=
  h.best a Relation.ReflTransGen.refl hab h.left

/-- **What git promises for an event**: the merge bases are best common ancestors of the arrived commit and the draft's tip, and
the id of the merge commit is its own. -/
structure Answers.Honest (a : Answers) (e : Arrived) (disk : Repo) : Prop where
  mergeBase : ∀ payload tip, e.payload = some payload → disk.reference (draftRefName e.sessionID) = .ok tip →
    ∀ b ∈ a.mergeBase, BestCommon disk (newHash payload.sha) tip b.hash
  mergeID : a.mergeID ≠ .zero
  addressed : ∀ p result, prepare a e disk = .ok p → merge a.world disk p.source p.draft p.ancestor a.order = .ok result →
    ∀ c ∈ disk.commits, c.hash = a.mergeID → c = mergeCommit a p result

/-! ## What an event does to the repository -/

theorem readObject_ok {site : WorkSite} {failure : Handled} {found : Option α} {x : α}
    (h : readObject a site failure found = .ok x) : found = some x := by
  unfold readObject at h
  split at h <;> cases h
  rfl

theorem bind_ok {ε β : Type} {m : Except ε α} {f : α → Except ε β} {b : β} (h : (m >>= f) = .ok b) :
    ∃ x, m = .ok x ∧ f x = .ok b := by
  cases m with
  | error => cases h
  | ok x => exact ⟨x, rfl, h⟩

theorem toOption_ok {ε : Type} {m : Except ε α} {x : α} (h : m.toOption = some x) : m = .ok x := by
  cases m with
  | error => cases h
  | ok =>
    cases h
    rfl

structure Read (a : Answers) (e : Arrived) (disk : Repo) (p : Prepared) (payload : CommitArrived) : Prop where
  decoded : e.payload = some payload
  ref : p.ref = payload.ref
  source : disk.commitObject (newHash payload.sha) = some p.source
  draftTip : disk.reference (draftRefName e.sessionID) = .ok p.draftTip
  draft : disk.commitObject p.draftTip = some p.draft
  ancestor : p.ancestor ∈ a.mergeBase

theorem prepare_ok (h : prepare a e disk = .ok p) : ∃ payload, Read a e disk p payload := by
  obtain ⟨payload, hpayload, h⟩ := bind_ok h
  obtain ⟨_, -, h⟩ := bind_ok h
  obtain ⟨_, -, h⟩ := bind_ok h
  split at h
  · cases h
  obtain ⟨_, -, h⟩ := bind_ok h
  obtain ⟨_, hs, h⟩ := bind_ok h
  obtain ⟨_, ht, h⟩ := bind_ok h
  obtain ⟨_, hdraft, h⟩ := bind_ok h
  obtain ⟨_, ha, h⟩ := bind_ok h
  cases h
  have hd : e.payload = some payload := by
    cases hp : e.payload with
    | none =>
      rw [hp] at hpayload
      cases hpayload
    | some =>
      rw [hp] at hpayload
      cases hpayload
      rfl
  exact ⟨payload, hd, rfl, readObject_ok hs, toOption_ok (readObject_ok ht), readObject_ok hdraft,
    mem_of_mem_head? (Option.mem_def.2 (readObject_ok ha))⟩

theorem Read.source_hash {payload : CommitArrived}
    (h : Read a e disk p payload) : p.source.hash = newHash payload.sha := (Repo.commitObject_eq_some h.source).2

/-- **Objects are only added**, and the references stay. -/
structure Grows (disk disk' : Repo) : Prop where
  commits : ∀ c ∈ disk.commits, c ∈ disk'.commits
  references : disk'.references = disk.references

theorem Grows.refl (disk : Repo) : Grows disk disk := ⟨fun _ h => h, rfl⟩

theorem Grows.trees (disk : Repo) (trees : Hash → Option Tree) : Grows disk (storeTrees disk trees) := ⟨fun _ h => h, rfl⟩

theorem Grows.store (h : Grows disk disk') (c : Commit) : Grows disk (store disk' c) := by
  unfold Automerger.store
  split
  · exact ⟨fun d hd => mem_cons_of_mem _ (h.commits d hd), h.references⟩
  · exact h

theorem Grows.reference (h : Grows disk disk') (name : String) : disk'.reference name = disk.reference name := by
  rw [Repo.reference, Repo.reference, h.references]

theorem Grows.commitObject (h : Grows disk disk') {c : Commit}
    (hc : disk.commitObject x = some c) : disk'.commitObject x = some c := by
  obtain ⟨hm, hh⟩ := Repo.commitObject_eq_some hc
  rw [← hh]
  exact Repo.commitObject_self (h.commits c hm)

theorem announce_disk (s : Desk) (notice : Notice) (answers : List EmitAnswer) : (s.announce notice answers).1.disk = s.disk := rfl

theorem tryResolveConflict_disk (a : Answers) (sessionID eventID : String) (s : Desk) :
    (tryResolveConflict a sessionID eventID s).1.disk = s.disk := by
  unfold tryResolveConflict
  split
  · rfl
  · rfl
  split
  · rfl
  · split
    · rfl
    · rfl

theorem announceSuccess_disk (a : Answers) (e : Arrived) (p : Prepared) (s : Desk) :
    (announceSuccess a e p s).1.disk = s.disk := by
  unfold announceSuccess
  split
  · rename_i h
    exact (congrArg (fun out => out.1.disk) h).symm.trans (announce_disk s _ _)
  rename_i s' h
  have hd : s'.disk = s.disk := (congrArg (fun out => out.1.disk) h).symm.trans (announce_disk s _ _)
  dsimp only
  split
  · exact (tryResolveConflict_disk a _ _ s').trans hd
  · exact hd

theorem applyConflict_disk (a : Answers) (e : Arrived) (p : Prepared) (result : MergeResult) (s : Desk) :
    (applyConflict a e p result s).1.disk = s.disk := by
  unfold applyConflict
  dsimp only
  split
  · rfl
  split
  · rename_i h
    exact (congrArg (fun out => out.1.disk) h).symm
  · rename_i h
    exact (congrArg (fun out => out.1.disk) h).symm

def advanced (a : Answers) (e : Arrived) (p : Prepared) (result : MergeResult) (disk : Repo) : Repo :=
  Server.setReference (store (storeTrees disk a.trees) (mergeCommit a p result)) (draftRefName e.sessionID) a.mergeID

theorem applySuccess_disk (a : Answers) (e : Arrived) (p : Prepared) (result : MergeResult) (s : Desk) (disk : Repo)
    (hs : s.disk = storeTrees disk a.trees) :
    Grows disk (applySuccess a e p result s).1.disk ∨ (applySuccess a e p result s).1.disk = advanced a e p result disk := by
  have hg : Grows disk s.disk := hs ▸ Grows.trees disk a.trees
  unfold applySuccess
  split
  · exact .inl hg
  split
  · exact .inl hg
  · exact .inl hg
  split
  · exact .inl hg
  dsimp only
  split
  · exact .inl (hg.store _)
  · refine .inr ?_
    rw [announceSuccess_disk, hs]
    rfl

theorem processEvent_disk (a : Answers) (e : Arrived) (s : Desk) :
    Grows s.disk (processEvent a e s).1.disk ∨ ∃ p result failure, prepare a e s.disk = .ok p ∧
      merge a.world s.disk p.source p.draft p.ancestor a.order = .ok result ∧ result.kind ≠ .hardConflict ∧
        (processEvent a e s).2 = .applied result failure ∧ (processEvent a e s).1.disk = advanced a e p result s.disk := by
  unfold processEvent
  cases prepare a e s.disk with
  | error => exact .inl (.refl _)
  | ok p =>
    dsimp only
    cases hm : merge a.world s.disk p.source p.draft p.ancestor a.order with
    | error => exact .inl (.trees _ _)
    | ok result =>
      dsimp only
      by_cases hk : result.kind = .hardConflict
      · refine .inl ?_
        simp only [apply, if_pos hk, applyConflict_disk]
        exact .trees _ _
      simp only [apply, if_neg hk]
      obtain hg | ha := applySuccess_disk a e p result { s with disk := storeTrees s.disk a.trees } s.disk rfl
      · exact .inl hg
      · exact .inr ⟨p, result, _, rfl, hm, hk, rfl, ha⟩

/-! ## The draft -/

theorem reference_setReference {name : String} {h h' : Hash} (hold : repo.reference name = .ok h') :
    (Server.setReference repo name h).reference name = .ok h := by
  unfold Repo.reference at hold
  split at hold
  · cases hold
  rename_i refs hr
  have href : (Server.setReference repo name h).references =
      .ok (⟨name, .hash h⟩ :: refs.filter (fun r => r.name ≠ name)) := by
    rw [Server.setReference, hr]
    rfl
  rw [Repo.reference, href]
  simp [Repo.resolve]

theorem commitObject_store {c : Commit} (hz : c.hash ≠ .zero)
    (ha : ∀ d ∈ repo.commits, d.hash = c.hash → d = c) : (store repo c).commitObject c.hash = some c := by
  unfold store
  split
  · exact Repo.commitObject_self mem_cons_self
  rename_i h
  rw [not_and_or, not_not, not_not] at h
  obtain ⟨d, hd, hh⟩ := mem_map.1 (h.resolve_right hz)
  rw [ha d hd hh] at hd
  exact Repo.commitObject_self hd

theorem merge_of_source_eq {world : World} {source draft ancestor : Commit} {order : List Path} {result : MergeResult}
    (hbase : source.hash = ancestor.hash) (h : merge world repo source draft ancestor order = .ok result) :
    result.mergedTreeSHA = some draft.treeHash := by
  unfold merge tryShortCircuit at h
  simp only [if_pos hbase] at h
  cases ht : repo.treeOf draft with
  | none =>
    rw [ht] at h
    cases h
  | some =>
    rw [ht] at h
    cases h
    rfl

/-- **What an event may do to the draft**: nothing, or move it to a commit over the tip before and the arrived commit; a
conflict leaves it, and a commit that the draft has already leaves its tree. -/
structure Advances (e : Arrived) (disk : Repo) (handled : Handled) (disk' : Repo) : Prop where
  step : disk'.reference (draftRefName e.sessionID) = disk.reference (draftRefName e.sessionID) ∨
    ∃ payload tip c, e.payload = some payload ∧ disk.reference (draftRefName e.sessionID) = .ok tip ∧
      disk'.reference (draftRefName e.sessionID) = .ok c.hash ∧ disk'.commitObject c.hash = some c ∧
        c.parents.head? = some tip ∧ disk'.Reaches c.hash (newHash payload.sha)
  conflict : ∀ result failure, handled = .applied result failure → result.kind = .hardConflict →
    disk'.reference (draftRefName e.sessionID) = disk.reference (draftRefName e.sessionID)
  kept : ∀ payload tip c, e.payload = some payload → disk.reference (draftRefName e.sessionID) = .ok tip →
    disk.commitObject tip = some c → disk.Reaches tip (newHash payload.sha) →
      ∃ tip' c', disk'.reference (draftRefName e.sessionID) = .ok tip' ∧ disk'.commitObject tip' = some c' ∧
        c'.treeHash = c.treeHash

theorem processEvent_advances {s : Desk} (h : a.Honest e s.disk) :
    Advances e s.disk (processEvent a e s).2 (processEvent a e s).1.disk := by
  obtain hg | ⟨p, result, _, hp, hm, hk, hh, hd⟩ := processEvent_disk a e s
  · refine ⟨.inl (hg.reference _), fun _ _ _ _ => hg.reference _, fun _ tip c _ htip hc _ => ?_⟩
    exact ⟨tip, c, (hg.reference _).trans htip, hg.commitObject hc, rfl⟩
  obtain ⟨payload, hr⟩ := prepare_ok hp
  have ho : (store (storeTrees s.disk a.trees) (mergeCommit a p result)).reference (draftRefName e.sessionID) =
      .ok p.draftTip := (((Grows.trees s.disk a.trees).store _).reference _).trans hr.draftTip
  have hs : (store (storeTrees s.disk a.trees) (mergeCommit a p result)).commitObject (mergeCommit a p result).hash =
      some (mergeCommit a p result) := commitObject_store h.mergeID (h.addressed p result hp hm)
  have htip : (processEvent a e s).1.disk.reference (draftRefName e.sessionID) = .ok a.mergeID := by
    rw [hd]
    exact reference_setReference ho
  have hcommit : (processEvent a e s).1.disk.commitObject a.mergeID = some (mergeCommit a p result) := by
    rw [hd]
    exact hs
  refine ⟨.inr ⟨payload, p.draftTip, mergeCommit a p result, hr.decoded, hr.draftTip, htip, hcommit, rfl, ?_⟩,
    fun _ _ ha hhard => ?_, fun _ _ c hpayload ht' hc hreaches => ?_⟩
  · refine Relation.ReflTransGen.single ⟨[p.draftTip, p.source.hash], ?_, ?_⟩
    · rw [Repo.parents]
      exact congrArg (Option.map (·.parents)) hcommit
    · rw [hr.source_hash]
      exact mem_cons_of_mem _ mem_cons_self
  · rw [hh] at ha
    cases ha
    exact absurd hhard hk
  · rw [hr.decoded] at hpayload
    cases hpayload
    rw [hr.draftTip] at ht'
    cases ht'
    rw [hr.draft] at hc
    cases hc
    refine ⟨a.mergeID, _, htip, hcommit, ?_⟩
    -- the arrived commit is the merge base, so the merge is cut short
    have hb := (h.mergeBase payload p.draftTip hr.decoded hr.draftTip p.ancestor hr.ancestor).eq_of_reaches hreaches
    have ht := merge_of_source_eq (hr.source_hash.trans hb) hm
    simp only [mergeCommit, ht, Option.getD_some]

/-! ## Runs -/

/-- One turn of a session's worker: what others have done to the repository before it, and the event. -/
structure WorkTurn where
  found : Repo
  event : Arrived
  answers : Answers

def workStep (s : Desk) (turn : WorkTurn) : Option Desk :=
  some (processEvent turn.answers turn.event { s with disk := turn.found }).1

/-- **What others may do between events of a session**: add objects and move references other than the draft; and git keeps its
promises. -/
structure WorkTurn.Fair (sessionID : String) (s : Desk) (turn : WorkTurn) : Prop where
  session : turn.event.sessionID = sessionID
  commits : ∀ c ∈ s.disk.commits, c ∈ turn.found.commits
  draft : turn.found.reference (draftRefName sessionID) = s.disk.reference (draftRefName sessionID)
  honest : turn.answers.Honest turn.event turn.found

theorem reaches_mono (h : ∀ c ∈ disk.commits, c ∈ disk'.commits) {y : Hash} (hr : disk.Reaches x y) :
    disk'.Reaches x y := by
  refine Relation.ReflTransGen.mono (fun u v huv => ?_) _ _ hr
  obtain ⟨l, hl, hv⟩ := huv
  obtain ⟨c, hc, rfl⟩ := Option.map_eq_some_iff.1 hl
  obtain ⟨hm, hh⟩ := Repo.commitObject_eq_some hc
  refine ⟨c.parents, ?_, hv⟩
  rw [Repo.parents, ← hh, Repo.commitObject_self (h c hm)]
  rfl

theorem processEvent_commits (a : Answers) (e : Arrived) (s : Desk) :
    ∀ c ∈ s.disk.commits, c ∈ (processEvent a e s).1.disk.commits := by
  obtain hg | ⟨p, _, -, -, -, -, -, hd⟩ := processEvent_disk a e s
  · exact hg.commits
  · rw [hd]
    exact ((Grows.trees s.disk a.trees).store _).commits

theorem Advances.forward {handled : Handled} (h : Advances e disk handled disk') {tip : Hash}
    (ht : disk.reference (draftRefName e.sessionID) = .ok tip) :
    ∃ tip', disk'.reference (draftRefName e.sessionID) = .ok tip' ∧ disk'.Reaches tip' tip := by
  obtain hs | ⟨_, _, c, -, ht₁, hd, hc, hf, -⟩ := h.step
  · exact ⟨tip, hs.trans ht, Relation.ReflTransGen.refl⟩
  rw [ht] at ht₁
  cases ht₁
  refine ⟨c.hash, hd, Relation.ReflTransGen.single ⟨c.parents, ?_, mem_of_mem_head? (Option.mem_def.2 hf)⟩⟩
  rw [Repo.parents, hc]
  rfl

/-- **Along every run of a session's events, each does to the draft only what it may, and the draft at the end has that at the
start in its history.** -/
theorem draft_advances (sessionID : String) (s₀ s : Desk) (turns : List WorkTurn)
    (hfair : Along workStep (WorkTurn.Fair sessionID) s₀ turns) (hrun : exec workStep s₀ turns = some s) :
    Along workStep (fun s turn => ∀ s', workStep s turn = some s' →
        Advances turn.event turn.found (processEvent turn.answers turn.event { s with disk := turn.found }).2 s'.disk) s₀ turns ∧
      ∀ tip₀, s₀.disk.reference (draftRefName sessionID) = .ok tip₀ →
        ∃ tip, s.disk.reference (draftRefName sessionID) = .ok tip ∧ s.disk.Reaches tip tip₀ := by
  have hs : ∀ s turn s', WorkTurn.Fair sessionID s turn → workStep s turn = some s' →
      Advances turn.event turn.found (processEvent turn.answers turn.event { s with disk := turn.found }).2 s'.disk := by
    intro s turn _ ht hs'
    cases hs'
    exact processEvent_advances (s := { s with disk := turn.found }) ht.honest
  refine ⟨along_of_invariant (fun _ _ _ _ _ _ => trivial)
    (fun s turn _ ht s' hs' => hs s turn s' ht hs') trivial hfair, fun tip₀ ht₀ => ?_⟩
  refine invariant (I := fun s => ∃ tip, s.disk.reference (draftRefName sessionID) = .ok tip ∧ s.disk.Reaches tip tip₀)
    (fun s turn s' hI ht hs' => ?_) ⟨tip₀, ht₀, Relation.ReflTransGen.refl⟩ hfair hrun
  obtain ⟨_, htip, hr⟩ := hI
  obtain ⟨tip', ht', hf⟩ := (hs s turn s' ht hs').forward (by rw [ht.session, ht.draft]; exact htip)
  rw [ht.session] at ht'
  cases hs'
  refine ⟨tip', ht', hf.trans (reaches_mono (fun c hc => ?_) hr)⟩
  exact processEvent_commits turn.answers turn.event { s with disk := turn.found } c (ht.commits c hc)

/-! ### A delivery and its repetition -/

def stillWorld : World where
  diffTree := fun _ _ => .error .objectNotFound
  hasBlob := fun _ => false
  readBlob := fun _ _ _ => .error .objectNotFound
  writeBlob := fun _ _ _ => .error .objectNotFound
  writeTree := fun _ _ _ => .error .objectNotFound
  mergeFile := fun _ _ _ _ => .error "killed"
  diff := fun _ _ => .error "killed"

def baseCommit : Commit := ⟨.ofByte 1, [], .ofByte 11, "base", "Ada", "ada@x"⟩

def workCommit : Commit := ⟨.ofByte 2, [.ofByte 1], .ofByte 12, "work", "Ada", "ada@x"⟩

def pushedDesk : Desk where
  disk :=
    { commits := [workCommit, baseCommit]
      nodup := by decide
      nonzero := by decide
      tree := fun _ => some Tree.empty
      references := .ok [⟨draftRefName "s", .hash (.ofByte 1)⟩]
      head := .error .referenceNotFound }
  conflictEvents := []
  log := []

def delivery : Arrived :=
  ⟨"acme", "s", some ⟨"0202020202020202020202020202020202020202", "refs/heads/jam/s/ada/main", "work", "ada"⟩⟩

def mergedOver (base : Commit) (id : Hash) : Answers where
  down := fun _ => none
  session := some "sync"
  refMode := none
  mergeBase := [base]
  world := stillWorld
  order := []
  trees := fun _ => none
  mergeID := id
  emit := [.ok]
  emitResolved := []
  newID := "conflict"

def firstDelivery : WorkTurn := ⟨pushedDesk.disk, delivery, mergedOver baseCommit (.ofByte 3)⟩

def mergedDesk : Desk := (processEvent firstDelivery.answers delivery pushedDesk).1

def secondDelivery : WorkTurn := ⟨mergedDesk.disk, delivery, mergedOver workCommit (.ofByte 4)⟩

theorem addressed_of_new (h : a.mergeID ∉ disk.hashes) {result : MergeResult} :
    ∀ c ∈ disk.commits, c.hash = a.mergeID → c = mergeCommit a p result :=
  fun _ hc hh => absurd (hh ▸ mem_map_of_mem hc) h

theorem firstDelivery_honest : firstDelivery.answers.Honest delivery pushedDesk.disk where
  mergeBase payload tip hp ht b hb := by
    cases hp
    cases ht
    cases mem_singleton.1 hb
    refine ⟨Relation.ReflTransGen.single ⟨[.ofByte 1], rfl, mem_singleton_self _⟩, Relation.ReflTransGen.refl, ?_⟩
    exact fun y _ hy _ => Walk.Reach.of_no_successor rfl hy
  mergeID := by decide
  addressed _ _ _ _ := addressed_of_new (by decide)

theorem secondDelivery_honest : secondDelivery.answers.Honest delivery mergedDesk.disk where
  mergeBase payload tip hp ht b hb := by
    cases hp
    cases ht
    cases mem_singleton.1 hb
    refine ⟨Relation.ReflTransGen.refl, Relation.ReflTransGen.single ⟨[.ofByte 1, .ofByte 2], rfl, ?_⟩, ?_⟩
    · exact mem_cons_of_mem _ mem_cons_self
    · intro y hy _ hback
      obtain heq | ⟨z, ⟨l, hl, hz⟩, hzy⟩ := Relation.ReflTransGen.cases_head hy
      · exact heq.symm
      cases hl
      cases mem_singleton.1 hz
      cases Walk.Reach.of_no_successor rfl hzy
      exact absurd (Walk.Reach.of_no_successor rfl hback) (by decide)
  mergeID := by decide
  addressed _ _ _ _ := addressed_of_new (by decide)

theorem draft_advances_redelivery :
    Along workStep (fun s turn => ∀ s', workStep s turn = some s' →
        Advances turn.event turn.found (processEvent turn.answers turn.event { s with disk := turn.found }).2 s'.disk)
        pushedDesk [firstDelivery, secondDelivery] ∧
      ∀ s, exec workStep pushedDesk [firstDelivery, secondDelivery] = some s →
        ∃ tip, s.disk.reference (draftRefName "s") = .ok tip ∧ s.disk.Reaches tip (.ofByte 1) := by
  have hf : Along workStep (WorkTurn.Fair "s") pushedDesk [firstDelivery, secondDelivery] := by
    have hfirst : workStep pushedDesk firstDelivery = some mergedDesk := rfl
    refine .cons_of_step ⟨rfl, fun _ h => h, rfl, firstDelivery_honest⟩ hfirst ?_
    exact .cons_of_step ⟨rfl, fun _ h => h, rfl, secondDelivery_honest⟩ rfl trivial
  have hr : exec workStep pushedDesk [firstDelivery, secondDelivery] = some _ := rfl
  refine ⟨(draft_advances "s" pushedDesk _ _ hf hr).1, fun s hs => ?_⟩
  exact (draft_advances "s" pushedDesk s _ hf hs).2 _ rfl

end Jamsesh.Automerger
