import Jamsesh.LockRaces
/-!
# Reacquire — a lock that is answered and then curated (`finalize/lock_acquire.go`, `lock_patch.go`)

A caller who has the active lock gets its id back, whatever its age; the patch looks at the age.  So the id that is answered can
be used at once exactly when the caller's own lock is not idle (`acquired_patchable_iff`).
-/
namespace Jamsesh.Portal

/-- The reply refuses a lock as expired, released or superseded. -/
def Reply.refusesLock : Reply → Bool
  | .conflict error _ _ => error ∈ ["finalize.lock_expired", "finalize.lock_released", "finalize.lock_superseded"]
  | _ => false

section
variable {env : Env} {db db' : Db} {r : AcquireFinalizeLock} {p : PatchFinalizeLock} {accountID : String} {acc : Account}
  {lock : FinalizeLock}

theorem checkHolder_of_active (ha : lock.active = true) (hh : lock.acquiredBy = accountID) :
    checkHolder lock accountID = none := by
  obtain ⟨hs, hr⟩ := active_iff.1 ha
  simp [checkHolder, hh, hs, hr]

theorem patch_not_refused (hl : getFinalizeLockByID db p.lockID = .ok lock) (hc : p.ctx.caller = some lock.acquiredBy)
    (hactive : lock.active = true) (hfresh : isLockExpired lock.lastActivityAt p.ctx.now = false) :
    (patchFinalizeLock db p).2.refusesLock = false := by
  unfold patchFinalizeLock
  split
  · rfl
  rename_i accountID _ ha
  split
  · rfl
  split
  · rename_i hm
    obtain ⟨_, _, _, rfl⟩ | ⟨_, rfl⟩ := membershipReply_some hm <;> rfl
  split
  · rename_i hf
    unfold findLock at hf
    split at hf
    · cases hf
      rfl
    · cases hf
      rfl
    · split at hf <;> cases hf
      rfl
  rename_i hf
  cases hl.symm.trans (findLock_ok hf).1
  have hs : lock.acquiredBy = accountID := Option.some.inj (hc.symm.trans (requireAccount_caller ha))
  simp only [checkHolder_of_active hactive hs, hfresh, Bool.false_eq_true, if_false]
  split
  · rename_i hb
    unfold validateCuration at hb
    split at hb
    · cases hb
      rfl
    split at hb
    · cases hb
      rfl
    · split at hb <;> cases hb
      rfl
  split
  · rfl
  · split <;> rfl

theorem LockTable.getFinalizeLockByID (h : LockTable db) (hlock : lock ∈ db.finalizeLocks) :
    getFinalizeLockByID db lock.id = .ok lock := by
  cases hf : db.finalizeLocks.find? (fun l => l.id = lock.id) with
  | none => exact absurd (List.find?_eq_none.1 hf lock hlock) (by simp)
  | some l =>
    have hl : l.id = lock.id := by simpa using List.find?_some hf
    rw [Portal.getFinalizeLockByID, hf, h.eq_of_id (List.mem_of_find?_eq_some hf) hlock hl]
    rfl

/-- **The id that is answered can be curated at once exactly when** the caller's own active lock, if they have one, is not
idle. -/
theorem acquired_patchable_iff (env : Env) {id : String} (ht : LockTable db)
    (hcaller : requireAccount db r.ctx = some (accountID, acc)) (h : acquireFinalizeLock env db r = (db', .locked id)) :
    (∀ p : PatchFinalizeLock, p.ctx.caller = r.ctx.caller → p.ctx.now = r.ctx.now → p.lockID = id →
        (patchFinalizeLock db' p).2.refusesLock = false) ↔
      ∀ lock, getActiveFinalizeLock db r.sessionID = .ok lock → lock.acquiredBy = accountID →
        isLockExpired lock.lastActivityAt r.ctx.now = false := by
  revert h
  refine acquireFinalizeLock_ind (P := fun out => out = (db', .locked id) → _) (fun _ hr h => ?_)
    (fun {_ _ session lock} hc' hm hsession hl hown h => ?_)
    (fun {_ _ session existing db₁} hc' hsession he ho hacquired h => ?_)
  · exact absurd (Prod.mk.inj h).2 (hr id)
  · cases h
    cases hcaller.symm.trans hc'
    subst hown
    obtain ⟨hmem, hsame, ha⟩ := getActiveFinalizeLock_ok hl
    have hid := ht.getFinalizeLockByID hmem
    refine ⟨fun hall _ hl' _ => ?_, fun hf p hp hn hpid => ?_⟩
    · cases hl.symm.trans hl'
      refine Bool.eq_false_iff.2 fun hexpired => ?_
      -- the row of the lock can be read, whatever else fails
      let ctx : Ctx := { r.ctx with down := fun site => if site = .getFinalizeLock then none else r.ctx.down site }
      have hfind : findLock db ctx r.orgID r.sessionID lock.id = .ok lock := by
        obtain ⟨s, hs, horg⟩ := ht.owned lock hmem
        obtain ⟨hs', ho'⟩ := getSession_ok.1 hsession
        rw [hsame, hs'] at hs
        cases hs
        simp [findLock, ctx, call, hid, hsame, ← horg, ho']
      have hrefused := hall ⟨ctx, r.orgID, r.sessionID, lock.id, some curation⟩ rfl rfl rfl
      have hauth : requireAccount db ctx = some (lock.acquiredBy, acc) := hcaller
      have hpass : membershipReply db ctx r.orgID r.sessionID lock.acquiredBy = none := hm
      simp only [patchFinalizeLock, hauth, hpass, hfind, checkHolder_of_active ha rfl, show ctx.now = r.ctx.now from rfl,
        hexpired, if_true] at hrefused
      split at hrefused <;> cases hrefused
    · refine patch_not_refused (hpid ▸ hid) ?_ ha (hn ▸ hf lock hl rfl)
      rw [hp, requireAccount_caller hcaller]
  · cases h
    cases hcaller.symm.trans hc'
    refine iff_of_true (fun p hp hn hpid => ?_) fun lock hl hmine => absurd hmine (ho lock ((he lock).2 hl))
    obtain ⟨f, hafter⟩ := hacquired.locksAfter fun lock hl =>
      ⟨lock, (getActiveFinalizeLock_ok ((he lock).1 hl)).1, rfl⟩
    have hnew : getFinalizeLockByID (lockSession db₁ r accountID session) p.lockID = .ok (newLock r accountID) := by
      have hlast : newLock r accountID ∈ (lockSession db₁ r accountID session).finalizeLocks := by
        rw [locks_lockSession, hafter.eq]
        exact List.mem_append_right _ List.mem_cons_self
      rw [hpid]
      exact ((hafter.table ht hsession).lockSession r accountID session).getFinalizeLockByID hlast
    refine patch_not_refused hnew (by rw [hp, requireAccount_caller hcaller]; rfl) rfl ?_
    simp [newLock, hn, isLockExpired, finalizeLockTTL]

end

def adaLocked : AcquireFinalizeLock := ⟨atMinute "ada" 0, "acme", "plans", false, "first"⟩

def adaAgain (minutes : Int) : AcquireFinalizeLock := ⟨atMinute "ada" minutes, "acme", "plans", false, "second"⟩

theorem adaLocked_table : LockTable (acquireFinalizeLock demoEnv shipDb adaLocked).1 :=
  (shipDb_consistent.did (FinalizeOp.did demoEnv shipDb (.acquire adaLocked)) trivial).table

theorem acquired_patchable_iff_soon :
    (acquireFinalizeLock demoEnv (acquireFinalizeLock demoEnv shipDb adaLocked).1 (adaAgain 20)).2 = .locked "first" ∧
      ∀ p : PatchFinalizeLock, p.ctx.caller = some "ada" → p.ctx.now = (adaAgain 20).ctx.now → p.lockID = "first" →
        (patchFinalizeLock (acquireFinalizeLock demoEnv shipDb adaLocked).1 p).2.refusesLock = false := by
  refine ⟨rfl, (acquired_patchable_iff demoEnv (r := adaAgain 20) adaLocked_table rfl rfl).2 fun lock hl _ => ?_⟩
  cases hl
  rfl

/-- **An idle lock is answered with success and refused at once**: ada asks again after 31 minutes. -/
theorem reacquired_lock_expired : LockTable (acquireFinalizeLock demoEnv shipDb adaLocked).1 ∧
    (acquireFinalizeLock demoEnv (acquireFinalizeLock demoEnv shipDb adaLocked).1 (adaAgain 31)).2 = .locked "first" ∧
    (patchFinalizeLock (acquireFinalizeLock demoEnv (acquireFinalizeLock demoEnv shipDb adaLocked).1 (adaAgain 31)).1
      ⟨atMinute "ada" 31, "acme", "plans", "first", some curation⟩).2.refusesLock = true :=
  ⟨adaLocked_table, by decide, by decide⟩

end Jamsesh.Portal
