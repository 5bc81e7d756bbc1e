import Jamsesh.LockRows
import Jamsesh.Machine
/-!
# LockPointer — the session's pointer to the holder of its finalize lock

A session has a column with the holder of its finalize lock.  Acquiring writes it in one transaction with the row; releasing
and shipping write the row first; the expiry in `PatchFinalizeLock` writes the row only.  So it is right as long as no holder
comes back to a lock that was idle for too long, and the store answers the writes (`pointer_matches`).
-/
namespace Jamsesh.Portal

open Finmap List Machine

/-! ## Pointers -/

/-- **The pointer of a session is set exactly when there is an active lock, and then it is on its holder.** -/
def Pointed (db : Db) (sessionID : String) : Prop :=
  ∀ s, db.sessions.lookup sessionID = some s →
    (s.finalizeLockedBy.isSome = true ↔ ∃ l ∈ db.finalizeLocks, l.sessionID = sessionID ∧ l.active = true) ∧
      ∀ l ∈ db.finalizeLocks, l.sessionID = sessionID → l.active = true → s.finalizeLockedBy = some l.acquiredBy

variable {lock : FinalizeLock} {db' : Db} {accountID : String} {existing : Option FinalizeLock}

section
variable {db : Db} {sessionID orgID : String}

theorem Pointed.map (h : Pointed db sessionID) {f : FinalizeLock → FinalizeLock} (hf : ∀ l ∈ db.finalizeLocks, LockKept l (f l))
    (hk : ∀ l ∈ db.finalizeLocks, l.sessionID = sessionID → l.active = true → (f l).active = true) :
    Pointed { db with finalizeLocks := db.finalizeLocks.map f } sessionID := by
  intro s hs
  obtain ⟨hset, hh⟩ := h s hs
  refine ⟨hset.trans ⟨?_, ?_⟩, ?_⟩
  · rintro ⟨l, hl, hsession, ha⟩
    exact ⟨f l, mem_map_of_mem hl, (hf l hl).sessionID.trans hsession, hk l hl hsession ha⟩
  · rintro ⟨_, hl', hsession, ha⟩
    obtain ⟨l, hl, rfl⟩ := mem_map.1 hl'
    exact ⟨l, hl, (hf l hl).sessionID.symm.trans hsession, (hf l hl).active ha⟩
  · intro _ hl' hsession ha
    obtain ⟨l, hl, rfl⟩ := mem_map.1 hl'
    rw [(hf l hl).acquiredBy]
    exact hh l hl ((hf l hl).sessionID.symm.trans hsession) ((hf l hl).active ha)

theorem Pointed.append (h : Pointed db sessionID) (hother : lock.sessionID ≠ sessionID) :
    Pointed { db with finalizeLocks := db.finalizeLocks ++ [lock] } sessionID := by
  intro s hs
  obtain ⟨hset, hh⟩ := h s hs
  have ho : ∀ l ∈ db.finalizeLocks ++ [lock], l.sessionID = sessionID → l ∈ db.finalizeLocks := by
    intro l hl hsession
    rcases mem_append.1 hl with hl | hl
    · exact hl
    · rw [mem_singleton.1 hl] at hsession
      exact absurd hsession hother
  refine ⟨hset.trans ⟨?_, ?_⟩, fun l hl hsession => hh l (ho l hl hsession) hsession⟩
  · rintro ⟨l, hl, h⟩
    exact ⟨l, mem_append_left _ hl, h⟩
  · rintro ⟨l, hl, hsession, ha⟩
    exact ⟨l, ho l hl hsession, hsession, ha⟩

theorem Pointed.updateSession {k : String} (h : Pointed db k) {g : Session → Session}
    (hg : k = sessionID → ∀ s, (g s).finalizeLockedBy = s.finalizeLockedBy) :
    Pointed (updateSession db orgID sessionID g) k := by
  obtain heq | ⟨s, hs, heq⟩ := updateSession_cases db orgID sessionID g
  · rw [heq]
    exact h
  rw [heq]
  intro s' hs'
  by_cases hk : k = sessionID
  · subst hk
    rw [lookup_insert] at hs'
    cases hs'
    rw [hg rfl s]
    exact h s hs
  · rw [lookup_insert_of_ne _ hk] at hs'
    exact h s' hs'

end

variable {db : Db} {orgID sessionID : String}

theorem LocksAfter.pointed {r : AcquireFinalizeLock}
    {f : FinalizeLock → FinalizeLock} (h : LocksAfter r accountID existing db db' f) (ht : LockTable db)
    (hw : InTheWay db r.sessionID existing) {k : String} (hk : k ≠ r.sessionID) (hp : Pointed db k) : Pointed db' k := by
  rw [h.eq]
  refine (hp.map h.kept (fun l hl hs ha => ?_)).append hk.symm
  obtain heq | ⟨lock, rfl, hid, -⟩ := h.only l hl
  · rw [heq]
    exact ha
  · obtain ⟨_, hl₀, hi₀, hs₀⟩ := hw lock rfl
    rw [ht.eq_of_id hl hl₀ (hid.trans hi₀.symm), hs₀] at hs
    exact absurd hs.symm hk

theorem pointed_set {s : Session} {holder : Option String} (hs : getSession db orgID sessionID = .ok s)
    (hset : holder.isSome = true ↔ ∃ l ∈ db.finalizeLocks, l.sessionID = sessionID ∧ l.active = true)
    (hh : ∀ l ∈ db.finalizeLocks, l.sessionID = sessionID → l.active = true → holder = some l.acquiredBy) :
    Pointed (updateSession db orgID sessionID (fun s => { s with finalizeLockedBy := holder })) sessionID := by
  rw [updateSession_of_ok hs]
  intro _ hs'
  rw [lookup_insert] at hs'
  cases hs'
  exact ⟨hset, hh⟩

/-! ## The operations -/

inductive FinalizeOp where
  | acquire (r : AcquireFinalizeLock)
  | patch (r : PatchFinalizeLock)
  | release (r : ReleaseFinalizeLock)
  | markShipped (r : MarkSessionShipped)

def FinalizeOp.run (env : Env) (db : Db) : FinalizeOp → Db
  | acquire r => (acquireFinalizeLock env db r).1
  | patch r => (patchFinalizeLock db r).1
  | release r => (releaseLock db r).1
  | markShipped r => (markSessionShipped db r).1

inductive Did (db : Db) : FinalizeOp → Db → Prop where
  | nothing (op : FinalizeOp) : Did db op db
  | acquired {r : AcquireFinalizeLock} {accountID : String} {session : Session} {existing : Option FinalizeLock} {db' : Db} :
      getSession db r.orgID r.sessionID = .ok session →
        (∀ lock, existing = some lock → getActiveFinalizeLock db r.sessionID = .ok lock) →
        Acquired r accountID db existing db' → Did db (.acquire r) (lockSession db' r accountID session)
  | curated {r : PatchFinalizeLock} (lock : FinalizeLock) (body : Curation) (mode : PlanMode) :
      Did db (.patch r) (updateFinalizeLockCuration db lock.id body mode r.ctx.now)
  | expired {r : PatchFinalizeLock} {lock : FinalizeLock} : getFinalizeLockByID db r.lockID = .ok lock →
      r.ctx.caller = some lock.acquiredBy → lock.active = true → isLockExpired lock.lastActivityAt r.ctx.now = true →
        Did db (.patch r) (releaseFinalizeLock db lock.id r.ctx.now)
  | released {r : ReleaseFinalizeLock} {lock : FinalizeLock} : getFinalizeLockByID db r.lockID = .ok lock →
      lock.sessionID = r.sessionID → lock.orgID = r.orgID → lock.releasedAt = none →
        Did db (.release r) (clearPointer (releaseFinalizeLock db lock.id r.ctx.now) r lock)
  | ended {r : MarkSessionShipped} : Did db (.markShipped r) (endSession db r.orgID r.sessionID)
  | shipped {r : MarkSessionShipped} {session : Session} : getSession db r.orgID r.sessionID = .ok session →
      Did db (.markShipped r) (releaseOnShip
        (setEndReason (endSession db r.orgID r.sessionID) r.orgID r.sessionID "shipped" r.ctx.now) r session).1

theorem findLock_ok {ctx : Ctx} {lockID : String} (h : findLock db ctx orgID sessionID lockID = .ok lock) :
    getFinalizeLockByID db lockID = .ok lock ∧ lock.sessionID = sessionID ∧ lock.orgID = orgID := by
  unfold findLock at h
  split at h
  · cases h
  · cases h
  rename_i hc
  split at h <;> cases h
  rename_i hs
  simp only [not_or, not_not] at hs
  exact ⟨(call_ok.1 hc).2, hs⟩

theorem checkHolder_none (h : checkHolder lock accountID = none) : lock.acquiredBy = accountID ∧ lock.active = true := by
  unfold checkHolder at h
  split at h
  · cases h
  rename_i hh
  split at h
  · cases h
  rename_i hs
  split at h
  · cases h
  · rename_i hr
    refine ⟨not_not.1 hh, active_iff.2 ⟨hs, ?_⟩⟩
    simpa using hr

theorem requireAccount_caller {ctx : Ctx} {acc : Account}
    (h : requireAccount db ctx = some (accountID, acc)) : ctx.caller = some accountID := by
  obtain ⟨_, hid, ha⟩ := Option.bind_eq_some_iff.1 h
  obtain ⟨_, -, heq⟩ := Option.map_eq_some_iff.1 ha
  cases heq
  exact hid

theorem acquireFinalizeLock_did (env : Env) (db : Db) (r : AcquireFinalizeLock) :
    Did db (.acquire r) (acquireFinalizeLock env db r).1 :=
  acquireFinalizeLock_ind (P := fun out => Did db _ out.1) (fun _ _ => .nothing _) (fun _ _ _ _ _ => .nothing _)
    fun _ hs he _ ha => .acquired hs (fun lock hl => (he lock).1 hl) ha

theorem patchFinalizeLock_did (db : Db) (r : PatchFinalizeLock) : Did db (.patch r) (patchFinalizeLock db r).1 := by
  refine patchFinalizeLock_ind (.nothing _) (fun hc hf hcheck he => ?_) fun _ => .curated _ _ _
  obtain ⟨hh, ha⟩ := checkHolder_none hcheck
  exact .expired (findLock_ok hf).1 (by rw [requireAccount_caller hc, hh]) ha he

theorem releaseLock_did (db : Db) (r : ReleaseFinalizeLock) : Did db (.release r) (releaseLock db r).1 := by
  refine releaseLock_ind (.nothing _) fun hf hr => ?_
  obtain ⟨hg, hs, ho⟩ := findLock_ok hf
  exact .released hg hs ho hr

theorem markSessionShipped_did (db : Db) (r : MarkSessionShipped) : Did db (.markShipped r) (markSessionShipped db r).1 := by
  unfold markSessionShipped
  split
  · exact .nothing _
  split
  · exact .nothing _
  split
  · exact .nothing _
  · exact .nothing _
  rename_i hsession
  split
  · exact .nothing _
  split
  · exact .nothing _
  rename_i hstatus
  cases (call_ok.1 hstatus).2
  split
  · exact .ended
  rename_i hr
  cases (call_ok.1 hr).2
  have hs := Did.shipped (call_ok.1 hsession).2
  unfold setEndReason endSession at hs
  split
  · rename_i heq
    rw [heq] at hs
    exact hs
  · rename_i heq
    rw [heq] at hs
    exact hs

theorem FinalizeOp.did (env : Env) (db : Db) : ∀ op : FinalizeOp, Did db op (op.run env db)
  | acquire r => acquireFinalizeLock_did env db r
  | patch r => patchFinalizeLock_did db r
  | release r => releaseLock_did db r
  | markShipped r => markSessionShipped_did db r

/-! ## The invariant -/

structure Consistent (db : Db) : Prop where
  table : LockTable db
  pointed : ∀ sessionID, Pointed db sessionID

theorem consistent_of_noLocks (hlocks : db.finalizeLocks = [])
    (hsessions : ∀ sessionID s, db.sessions.lookup sessionID = some s → s.finalizeLockedBy = none) : Consistent db := by
  have hn : ∀ l, l ∉ db.finalizeLocks := fun l hl => not_mem_nil (hlocks ▸ hl)
  refine ⟨⟨?_, fun l hl => absurd hl (hn l), fun l hl => absurd hl (hn l), fun l hl => absurd hl (hn l)⟩, ?_⟩
  · rw [hlocks]
    exact nodup_nil
  · intro sessionID s hs
    rw [hsessions sessionID s hs]
    refine ⟨⟨fun h => (by cases h), ?_⟩, fun l hl => absurd hl (hn l)⟩
    rintro ⟨l, hl, -⟩
    exact absurd hl (hn l)

section
variable {db : Db}

theorem Consistent.updateSession (h : Consistent db) {g : Session → Session}
    (hg : ∀ s, (g s).orgID = s.orgID) (hp : ∀ s, (g s).finalizeLockedBy = s.finalizeLockedBy) :
    Consistent (updateSession db orgID sessionID g) :=
  ⟨h.table.updateSession hg, fun k => (h.pointed k).updateSession (fun _ => hp)⟩

theorem Consistent.statusEnded (h : Consistent db) : Consistent (endSession db orgID sessionID) := by
  unfold endSession
  exact h.updateSession (fun _ => rfl) (fun _ => rfl)

theorem Consistent.reasonSet (h : Consistent db) {reason : String} {now : Int} :
    Consistent (setEndReason db orgID sessionID reason now) := by
  unfold setEndReason
  exact h.updateSession (fun _ => rfl) (fun _ => rfl)

theorem Consistent.acquired (h : Consistent db) {r : AcquireFinalizeLock} {session : Session}
    (hsession : getSession db r.orgID r.sessionID = .ok session)
    (he : ∀ lock, existing = some lock → getActiveFinalizeLock db r.sessionID = .ok lock)
    (hacquired : Acquired r accountID db existing db') : Consistent (lockSession db' r accountID session) := by
  have hw : InTheWay db r.sessionID existing := by
    intro lock hlock
    obtain ⟨hm, hs, -⟩ := getActiveFinalizeLock_ok (he lock hlock)
    exact ⟨lock, hm, rfl, hs⟩
  obtain ⟨f, ha⟩ := hacquired.locksAfter (fun lock hlock =>
    (hw lock hlock).imp (fun l hl => ⟨hl.1, hl.2.1⟩))
  have hs' : getSession db' r.orgID r.sessionID = .ok session := by
    rw [ha.eq]
    exact hsession
  have hset : Consistent (Portal.updateSession db' r.orgID r.sessionID (fun s => { s with finalizeLockedBy := some accountID })) := by
    refine ⟨(ha.table h.table hsession).updateSession (fun _ => rfl), fun k => ?_⟩
    by_cases hk : k = r.sessionID
    · subst hk
      have hn : newLock r accountID ∈ db'.finalizeLocks := by
        rw [ha.eq]
        exact mem_append_right _ (mem_singleton.2 rfl)
      refine pointed_set hs' ⟨fun _ => ⟨_, hn, rfl, rfl⟩, fun _ => rfl⟩ (fun l hl hs hactive => ?_)
      rw [ha.active hl hs hactive]
      rfl
    · exact (ha.pointed h.table hw hk (h.pointed k)).updateSession (fun hk' => absurd hk' hk)
  unfold lockSession
  split
  · exact hset.updateSession (fun _ => rfl) (fun _ => rfl)
  · exact hset

theorem Consistent.curated (h : Consistent db) (id : String) (body : Curation) (mode : PlanMode) (now : Int) :
    Consistent (updateFinalizeLockCuration db id body mode now) := by
  have hk : ∀ l : FinalizeLock, LockKept l (if l.id = id then { l with
      selectedCommitSHAs := marshal body.selectedCommitSHAs
      targetBranch := body.targetBranch
      baseSHA := body.baseSHA
      mode := mode
      commitMessage := if body.commitMessage ≠ "" then some body.commitMessage else none
      lastActivityAt := now } else l) :=
    fun l => .ite (fun _ => ⟨rfl, rfl, rfl, rfl, fun h => h, fun h => h⟩)
  refine ⟨h.table.map (fun l _ => hk l), fun k => (h.pointed k).map (fun l _ => hk l) (fun l _ _ ha => ?_)⟩
  split
  · exact ha
  · exact ha

theorem Consistent.cleared (h : Consistent db) (now : Int) (hlock : lock ∈ db.finalizeLocks) (ha : lock.active = true) :
    Consistent (Portal.updateSession (releaseFinalizeLock db lock.id now) lock.orgID lock.sessionID
      (fun s => { s with finalizeLockedBy := none })) := by
  have hkept : ∀ l : FinalizeLock, LockKept l (if l.id = lock.id then
      if l.releasedAt.isNone then { l with releasedAt := some now } else l else l) :=
    fun l => .ite (fun _ => .ite (fun _ => .release l now))
  refine ⟨(h.table.map (fun l _ => hkept l)).updateSession (fun _ => rfl), fun k => ?_⟩
  by_cases hk : k = lock.sessionID
  · subst hk
    have hn : ¬ ∃ l ∈ (releaseFinalizeLock db lock.id now).finalizeLocks,
        l.sessionID = lock.sessionID ∧ l.active = true := by
      rintro ⟨_, hl', hsession, ha'⟩
      obtain ⟨l, hl, rfl⟩ := mem_map.1 hl'
      -- it would be the lock that was released
      have heq := h.table.one l hl lock hlock ((hkept l).active ha') ha ((hkept l).sessionID.symm.trans hsession)
      subst heq
      simp only [(active_iff.1 ha).2] at ha'
      cases (active_iff.1 ha').2
    obtain ⟨s, hs⟩ := h.table.owned lock hlock
    refine pointed_set (getSession_ok.2 hs) ⟨fun h => (by cases h), fun h => absurd h hn⟩
      (fun l hl hsession ha' => ?_)
    exact absurd ⟨l, hl, hsession, ha'⟩ hn
  · refine ((h.pointed k).map (fun l _ => hkept l) (fun l hl hsession ha' => ?_)).updateSession
      (fun hk' => absurd hk' hk)
    by_cases hid : l.id = lock.id
    · rw [h.table.eq_of_id hl hlock hid] at hsession
      exact absurd hsession.symm hk
    · rw [if_neg hid]
      exact ha'

theorem Consistent.holder (h : Consistent db) {s : Session} (hl : lock ∈ db.finalizeLocks)
    (ha : lock.active = true) (hs : db.sessions.lookup lock.sessionID = some s) :
    s.finalizeLockedBy = some lock.acquiredBy := (h.pointed lock.sessionID s hs).2 lock hl rfl ha

theorem Consistent.released (h : Consistent db) {r : ReleaseFinalizeLock} (hl : lock ∈ db.finalizeLocks)
    (hsession : lock.sessionID = r.sessionID) (horg : lock.orgID = r.orgID) (hreleased : lock.releasedAt = none)
    (hg : r.ctx.down .getSession = none) (hclear : r.ctx.down .clearSessionLock = none) :
    Consistent (clearPointer (releaseFinalizeLock db lock.id r.ctx.now) r lock) := by
  have ha : lock.active = true := by
    refine active_iff.2 ⟨?_, hreleased⟩
    cases hsuperseded : lock.supersededBy with
    | none => rfl
    | some =>
      have := h.table.ended lock hl (by rw [hsuperseded]; rfl)
      rw [hreleased] at this
      cases this
  obtain ⟨s, hs, ho⟩ := h.table.owned lock hl
  have hc := h.cleared r.ctx.now hl ha
  have hr : getSession (releaseFinalizeLock db lock.id r.ctx.now) r.orgID r.sessionID = .ok s := by
    rw [← hsession, ← horg]
    exact getSession_ok.2 ⟨hs, ho⟩
  rw [clearPointer, call_ok.2 ⟨hg, hr⟩]
  simp only [h.holder hl ha hs, call_ok.2 ⟨hclear, rfl⟩]
  rw [← hsession, ← horg]
  exact hc

theorem Consistent.shipped (h : Consistent db) {r : MarkSessionShipped} {session : Session}
    (hsession : getSession db r.orgID r.sessionID = .ok session) (hclear : r.ctx.down .clearSessionLock = none) :
    Consistent (releaseOnShip
      (setEndReason (endSession db r.orgID r.sessionID) r.orgID r.sessionID "shipped" r.ctx.now) r session).1 := by
  have he : Consistent (setEndReason (endSession db r.orgID r.sessionID) r.orgID r.sessionID "shipped" r.ctx.now) :=
    h.statusEnded.reasonSet
  unfold releaseOnShip
  split
  · exact he
  · exact he
  rename_i lock hlock
  split
  · exact he
  rename_i hr
  cases (call_ok.1 hr).2
  obtain ⟨hm, hsame, ha⟩ := getActiveFinalizeLock_ok (call_ok.1 hlock).2
  obtain ⟨hl, horg⟩ := getSession_ok.1 hsession
  have hm' : lock ∈ db.finalizeLocks := by
    rw [setEndReason, endSession, locks_updateSession, locks_updateSession] at hm
    exact hm
  have hh : session.finalizeLockedBy = some lock.acquiredBy := h.holder hm' ha (hsame ▸ hl)
  obtain ⟨s, hs, ho⟩ := h.table.owned lock hm'
  rw [hsame, hl] at hs
  cases hs
  have hc := he.cleared r.ctx.now hm ha
  simp only [hh, call_ok.2 ⟨hclear, rfl⟩]
  rw [← ho, horg, hsame] at hc
  exact hc

/-- **The condition on an operation**: a lock is not patched by its holder after it has been idle for too long, and the store
answers what releasing and shipping ask of the session. -/
def FinalizeOp.Settles (db : Db) : FinalizeOp → Prop
  | acquire _ => True
  | patch r => ∀ l ∈ db.finalizeLocks, l.id = r.lockID → l.active = true → r.ctx.caller = some l.acquiredBy →
      isLockExpired l.lastActivityAt r.ctx.now = false
  | release r => r.ctx.down .getSession = none ∧ r.ctx.down .clearSessionLock = none
  | markShipped r => r.ctx.down .clearSessionLock = none

theorem Consistent.did (h : Consistent db) {op : FinalizeOp} (hd : Did db op db') (hop : op.Settles db) :
    Consistent db' := by
  cases hd with
  | nothing => exact h
  | acquired hs hexisting ha => exact h.acquired hs hexisting ha
  | curated lock body mode => exact h.curated lock.id body mode _
  | expired hg hc hactive he =>
    obtain ⟨hm, hid⟩ := getFinalizeLockByID_ok hg
    rw [hop _ hm hid hactive hc] at he
    cases he
  | released hg hs ho hr =>
    exact h.released (getFinalizeLockByID_ok hg).1 hs ho hr hop.1 hop.2
  | ended => exact h.statusEnded
  | shipped hs => exact h.shipped hs hop

end

def finalizeStep (env : Env) (db : Db) (op : FinalizeOp) : Option Db := some (op.run env db)

/-- **In every run of operations that settle what they change, each session's pointer is on the holder of its active lock, and
empty without one.** -/
theorem pointer_matches (env : Env) (db db' : Db) (ops : List FinalizeOp) (h : Consistent db)
    (hops : Along (finalizeStep env) (fun db op => op.Settles db) db ops)
    (hrun : exec (finalizeStep env) db ops = some db') (sessionID : String) : Pointed db' sessionID := by
  refine (invariant (fun db op _ h hop hs => ?_) h hops hrun).pointed sessionID
  cases hs
  exact h.did (op.did env db) hop

def shipDb : Db where
  accounts := ((∅ : Table String Account).insert "ada" ⟨"ada@x", "Ada"⟩).insert "bob" ⟨"bob@x", "Bob"⟩
  orgs := (∅ : Table String Org).insert "acme" ⟨"Acme", "acme", .membersOnly⟩
  orgMembers := ((∅ : Table (String × String) Role).insert ("acme", "ada") .creator).insert ("acme", "bob") .member
  orgInvites := ∅
  sessions := (∅ : Table String Session).insert "plans" ⟨"acme", "plans", "ship", "", "sync", "active", none, none, none⟩
  sessionMembers := ((∅ : Table (String × String) SessionMember).insert ("plans", "ada") ⟨"acme", .creator⟩).insert
    ("plans", "bob") ⟨"acme", .member⟩
  sessionInvites := ∅
  finalizeLocks := []

theorem shipDb_consistent : Consistent shipDb := by
  refine consistent_of_noLocks rfl (fun sessionID s hs => ?_)
  by_cases hk : sessionID = "plans"
  · subst hk
    rw [shipDb, lookup_insert] at hs
    cases hs
    rfl
  · rw [shipDb, lookup_insert_of_ne _ hk, lookup_empty] at hs
    cases hs

def curation : Curation := ⟨[], "main", "0303030303030303030303030303030303030303", "squash", ""⟩

def shippedRun : List FinalizeOp :=
  [.acquire ⟨atMinute "ada" 0, "acme", "plans", false, "first"⟩,
    .patch ⟨atMinute "ada" 20, "acme", "plans", "first", some curation⟩,
    .acquire ⟨atMinute "bob" 30, "acme", "plans", true, "second"⟩,
    .markShipped ⟨atMinute "bob" 40, "acme", "plans"⟩]

theorem pointer_matches_shippedRun :
    ∃ db', exec (finalizeStep demoEnv) shipDb shippedRun = some db' ∧ Pointed db' "plans" := by
  have hr : exec (finalizeStep demoEnv) shipDb shippedRun = some _ := rfl
  refine ⟨_, hr, pointer_matches demoEnv shipDb _ shippedRun shipDb_consistent ?_ hr "plans"⟩
  refine .cons_of_step trivial rfl (.cons_of_step ?_ rfl (.cons_of_step trivial rfl (.cons_of_step rfl rfl trivial)))
  unfold FinalizeOp.Settles
  decide

def idleRun : List FinalizeOp :=
  [.acquire ⟨atMinute "ada" 0, "acme", "plans", false, "first"⟩,
    .patch ⟨atMinute "ada" 31, "acme", "plans", "first", some curation⟩]

/-- **A lock that expires under its holder's hands leaves the pointer on them**: the row is released, the session is not told. -/
theorem pointer_left_on_expiry : Consistent shipDb ∧
    ∃ db', exec (finalizeStep demoEnv) shipDb idleRun = some db' ∧ ¬ Pointed db' "plans" := by
  refine ⟨shipDb_consistent, _, rfl, fun h => ?_⟩
  have hp : ((exec (finalizeStep demoEnv) shipDb idleRun).bind (fun db => db.sessions.lookup "plans")).map
      (·.finalizeLockedBy) = some (some "ada") := by decide
  have hlocks : (exec (finalizeStep demoEnv) shipDb idleRun).any
      (fun db => db.finalizeLocks.all (fun l => !l.active)) = true := by decide
  obtain ⟨s, hs, hh⟩ := Option.map_eq_some_iff.1 hp
  obtain ⟨l, hl, -, ha⟩ := (h s hs).1.1 (by rw [hh]; rfl)
  have ho := all_eq_true.1 hlocks l hl
  rw [ha] at ho
  cases ho

end Jamsesh.Portal
