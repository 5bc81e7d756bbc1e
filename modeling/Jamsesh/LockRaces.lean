import Jamsesh.LockPointer
import Jamsesh.SessionRuns
/-!
# LockRaces — finalize locks while calls interleave

An idle lock is released by a statement that looks at its activity again, and the unique index turns away a second active
row.  So at most one lock of a session is active, a lock in use is ended by an override only, and a call that does not get the
lock leaves every table as it was.
-/
namespace Jamsesh.Portal

open List

section
variable {db db' : Db} {p p' : Phase} {w : List String}

theorem LockTable.lockSession (h : LockTable db) (r : AcquireFinalizeLock) (accountID : String) (session : Session) :
    LockTable (lockSession db r accountID session) := by
  have hp : LockTable (Portal.updateSession db r.orgID r.sessionID (fun s => { s with finalizeLockedBy := some accountID })) :=
    h.updateSession (fun _ => rfl)
  simp only [Portal.lockSession]
  split
  · exact hp.updateSession (fun _ => rfl)
  · exact hp

theorem Move.table (h : Move db p db' p' w) (hp : p.Sound db) (ht : LockTable db) : LockTable db' := by
  cases h with
  | reads => exact ht
  | columns hg => exact ht.updateSession (fun s => (hg s).1)
  | lock hf => exact ht.map (fun l _ => .ite (fun _ => hf l))
  | finalizing => exact ht.updateSession (fun _ => rfl)
  | ending =>
    unfold endSession
    exact ht.updateSession (fun _ => rfl)
  | reason =>
    unfold setEndReason
    exact ht.updateSession (fun _ => rfl)
  | acquired ha =>
    obtain ⟨⟨s, hs⟩, hw, -⟩ := hp
    obtain ⟨f, hafter⟩ := ha.locksAfter hw.row
    exact (hafter.table ht hs).lockSession _ _ _

theorem locks_lockSession (db : Db) (r : AcquireFinalizeLock) (accountID : String) (session : Session) :
    (lockSession db r accountID session).finalizeLocks = db.finalizeLocks := by
  simp only [lockSession]
  split
  · rw [locks_updateSession, locks_updateSession]
  · rw [locks_updateSession]

theorem Move.acquires (h : Move db p db' p' w) (hp : p.Sound db) {r : AcquireFinalizeLock} (hr : p.acquiring = some r) :
    db' = db ∨ p' = .done (.locked r.lockID) ∧ ∃ accountID existing db₁ f, LocksAfter r accountID existing db db₁ f ∧
      db'.finalizeLocks = db₁.finalizeLocks ∧
        ∀ lock, existing = some lock → isLockExpired lock.lastActivityAt r.ctx.now = true ∨ r.override = true := by
  cases h with
  | reads => exact .inl rfl
  | columns _ hn | lock _ hn | ending _ _ hn | reason _ hn =>
    rw [hn] at hr
    cases hr
  | finalizing => cases hr
  | acquired ha =>
    cases hr
    obtain ⟨f, hafter⟩ := ha.locksAfter hp.2.1.row
    exact .inr ⟨rfl, _, _, _, f, hafter, locks_lockSession _ _ _ _, hp.2.2⟩

theorem isLockExpired_of_lt {lastActivity now : Int} (h : lastActivity < now - finalizeLockTTL) :
    isLockExpired lastActivity now = true := by
  unfold isLockExpired finalizeLockTTL at *
  rw [if_neg (by omega), decide_eq_true_iff]
  omega

theorem LocksAfter.expired {r : AcquireFinalizeLock} {accountID : String} {existing : Option FinalizeLock} {db₁ : Db}
    {f : FinalizeLock → FinalizeLock} (h : LocksAfter r accountID existing db db₁ f) (ht : LockTable db)
    (he : ∀ lock, existing = some lock → isLockExpired lock.lastActivityAt r.ctx.now = true) {l l' : FinalizeLock}
    (hl : l ∈ db.finalizeLocks) (ha : l.active = true) (hl' : l' ∈ db₁.finalizeLocks) (hid : l'.id = l.id)
    (hover : l'.active = false) : isLockExpired l.lastActivityAt r.ctx.now = true := by
  rw [h.eq] at hl'
  rcases mem_append.1 hl' with ho | hn
  · obtain ⟨m, hm, rfl⟩ := mem_map.1 ho
    have hml : m = l := ht.eq_of_id hm hl ((h.kept m hm).id.symm.trans hid)
    subst hml
    obtain heq | ⟨lock, hlock, -, hlast⟩ := h.only m hm
    · rw [heq, ha] at hover
      cases hover
    · exact isLockExpired_of_lt (hlast (he lock hlock))
  · rw [mem_singleton.1 hn] at hover
    cases hover

theorem LockTable.active_le_one (h : LockTable db) (sessionID : String) :
    (db.finalizeLocks.filter (fun l => l.sessionID = sessionID && l.active)).length ≤ 1 := by
  have hn : (db.finalizeLocks.filter (fun l => l.sessionID = sessionID && l.active)).Nodup :=
    (List.Nodup.of_map _ h.ids).filter _
  have hmem : ∀ l ∈ db.finalizeLocks.filter (fun l => l.sessionID = sessionID && l.active),
      l ∈ db.finalizeLocks ∧ l.sessionID = sessionID ∧ l.active = true := by
    intro l hl
    obtain ⟨hl, ht⟩ := mem_filter.1 hl
    obtain ⟨hs, ha⟩ := Bool.and_eq_true_iff.1 ht
    exact ⟨hl, of_decide_eq_true hs, ha⟩
  rcases hlist : db.finalizeLocks.filter (fun l => l.sessionID = sessionID && l.active) with _ | ⟨l, _ | ⟨m, _⟩⟩
  · rw [hlist]
    exact Nat.zero_le _
  · rw [hlist]
    exact Nat.le_refl _
  rw [hlist] at hn hmem
  obtain ⟨hl, hls, hla⟩ := hmem l mem_cons_self
  obtain ⟨hm, hms, hma⟩ := hmem m (mem_cons_of_mem _ mem_cons_self)
  have heq := h.one l hl m hm hla hma (hls.trans hms.symm)
  exact absurd (heq ▸ mem_cons_self) (nodup_cons.1 hn).1

structure LocksSound (s : FlowState) : Prop where
  sound : s.Sound
  table : LockTable s.db

theorem LocksSound.step {env : Env} {unmarshal : String → Option (List String)} {s s' : FlowState} {a : FlowAct}
    (h : LocksSound s) (hs : s.step env unmarshal a = some s') : LocksSound s' := by
  refine ⟨h.sound.step hs, ?_⟩
  obtain ⟨_, rfl, rfl⟩ | ⟨i, p, _, _, rfl, hp, hm, rfl⟩ := step_cases hs
  · exact h.table
  · exact hm.table (h.sound p (mem_of_getElem? hp)) h.table

end

/-- **Whatever the interleaving, a session has at most one active lock; a lock within its time is not ended by an acquire
without override; and an acquire changes nothing unless it gets the lock.** -/
theorem lock_races (env : Env) (unmarshal : String → Option (List String)) (s₀ s : FlowState) (as : List FlowAct)
    (hlocks : LockTable s₀.db) (hcalls : s₀.calls = []) (hrun : Machine.exec (FlowState.step env unmarshal) s₀ as = some s) :
    (∀ sessionID, (s.db.finalizeLocks.filter (fun l => l.sessionID = sessionID && l.active)).length ≤ 1) ∧
      ∀ i p r s', s.calls[i]? = some p → p.acquiring = some r → s.step env unmarshal (.go i) = some s' →
        (r.override = false → ∀ l ∈ s.db.finalizeLocks, l.active = true →
          (∃ l' ∈ s'.db.finalizeLocks, l'.id = l.id ∧ l'.active = false) → isLockExpired l.lastActivityAt r.ctx.now = true) ∧
        (s'.db = s.db ∨ s'.calls[i]? = some (.done (.locked r.lockID))) := by
  have hstart : LocksSound s₀ := ⟨fun q hq => absurd (hcalls ▸ hq) not_mem_nil, hlocks⟩
  have h : LocksSound s := Machine.always (fun _ _ _ h hs => h.step hs) hstart hrun
  refine ⟨h.table.active_le_one, fun i p r _ hp hr hs => ?_⟩
  obtain ⟨_, hgo, -⟩ | ⟨j, q, _, _, hgo, hq, hm, rfl⟩ := step_cases hs
  · cases hgo
  cases hgo
  rw [hp] at hq
  cases hq
  have hlt : i < s.calls.length := (List.getElem?_eq_some_iff.1 hp).1
  obtain rfl | ⟨rfl, _, _, _, f, hafter, hsame, he⟩ :=
    hm.acquires (h.sound p (mem_of_getElem? hp)) hr
  · refine ⟨fun _ l hl ha ho => ?_, .inl rfl⟩
    -- the row itself would have to be both
    obtain ⟨_, hl', hid, ho⟩ := ho
    rw [h.table.eq_of_id hl' hl hid, ha] at ho
    cases ho
  · refine ⟨fun hoverride l hl ha ho => ?_, .inr (List.getElem?_set_self hlt)⟩
    obtain ⟨_, hl', hid, ho⟩ := ho
    refine hafter.expired h.table (fun lock hlock => ?_) hl ha (hsame ▸ hl') hid ho
    refine (he lock hlock).resolve_right ?_
    rw [hoverride]
    decide

def shipFlow : FlowState := ⟨shipDb, [], []⟩

def refreshedRun : List FlowAct :=
  [.start (.acquire ⟨atMinute "ada" 0, "acme", "plans", false, "first"⟩), .go 0, .go 0, .go 0, .go 0,
    .start (.acquire ⟨atMinute "bob" 31, "acme", "plans", false, "second"⟩), .go 1, .go 1, .go 1,
    .start (.patchLock ⟨atMinute "ada" 29, "acme", "plans", "first", some curation⟩), .go 2, .go 2, .go 2]

theorem lock_races_refreshedRun :
    ∃ s s', Machine.exec (FlowState.step demoEnv (fun _ => none)) shipFlow refreshedRun = some s ∧
      s.step demoEnv (fun _ => none) (.go 1) = some s' ∧ s'.db = s.db := by
  have hr : Machine.exec (FlowState.step demoEnv (fun _ => none)) shipFlow refreshedRun = some _ := rfl
  have hraces := lock_races demoEnv (fun _ => none) shipFlow _ refreshedRun shipDb_consistent.table rfl hr
  exact ⟨_, _, hr, rfl, ((hraces.2 1 _ _ _ rfl rfl rfl).2).resolve_right nofun⟩

end Jamsesh.Portal
