import Jamsesh.Effects
/-!
# LockRows — the rows of finalize locks, and what acquiring one does to them

The unique index lets a session have one active lock.  A lock in the way is released first, while it is still idle or because
the caller overrides it; the new row comes behind the old ones (`Acquired`, `LocksAfter`).
-/
namespace Jamsesh.Portal

open List

/-! ## Locks -/

/-- **The rows of the locks**: their ids are unique, a session has one active lock, its organisation is the lock's, and a lock
that is superseded is released. -/
structure LockTable (db : Db) : Prop where
  ids : (db.finalizeLocks.map (·.id)).Nodup
  one : ∀ l ∈ db.finalizeLocks, ∀ l' ∈ db.finalizeLocks, l.active = true → l'.active = true → l.sessionID = l'.sessionID →
    l = l'
  owned : ∀ l ∈ db.finalizeLocks, ∃ s, db.sessions.lookup l.sessionID = some s ∧ s.orgID = l.orgID
  ended : ∀ l ∈ db.finalizeLocks, l.supersededBy.isSome = true → l.releasedAt.isSome = true

structure LockKept (l l' : FinalizeLock) : Prop where
  id : l'.id = l.id
  orgID : l'.orgID = l.orgID
  sessionID : l'.sessionID = l.sessionID
  acquiredBy : l'.acquiredBy = l.acquiredBy
  active : l'.active = true → l.active = true
  ended : (l.supersededBy.isSome = true → l.releasedAt.isSome = true) → l'.supersededBy.isSome = true →
    l'.releasedAt.isSome = true

theorem LockKept.refl (l : FinalizeLock) : LockKept l l := ⟨rfl, rfl, rfl, rfl, fun h => h, fun h => h⟩

theorem LockKept.trans {l₁ l₂ l₃ : FinalizeLock} (h : LockKept l₁ l₂) (h' : LockKept l₂ l₃) : LockKept l₁ l₃ :=
  ⟨h'.id.trans h.id, h'.orgID.trans h.orgID, h'.sessionID.trans h.sessionID, h'.acquiredBy.trans h.acquiredBy,
    fun ha => h.active (h'.active ha), fun hl => h'.ended (h.ended hl)⟩

variable {l lock : FinalizeLock}

theorem active_iff : l.active = true ↔ l.supersededBy = none ∧ l.releasedAt = none := by
  simp only [FinalizeLock.active, Bool.and_eq_true, Option.isNone_iff_eq_none]

theorem LockKept.release (l : FinalizeLock) (now : Int) : LockKept l { l with releasedAt := some now } :=
  ⟨rfl, rfl, rfl, rfl, fun h => (by cases (active_iff.1 h).2), fun _ _ => rfl⟩

theorem LockKept.supersede (hr : l.releasedAt.isSome = true) (newID : String) :
    LockKept l { l with supersededBy := some newID } :=
  ⟨rfl, rfl, rfl, rfl, fun h => (by cases (active_iff.1 h).1), fun _ _ => hr⟩

theorem LockKept.ite {c : Prop} [Decidable c] {l' : FinalizeLock} (h : c → LockKept l l') :
    LockKept l (if c then l' else l) := by
  by_cases hc : c
  · rw [if_pos hc]
    exact h hc
  · rw [if_neg hc]
    exact .refl l

/-! ## Rows that are updated -/

section
variable {db : Db} {id sessionID orgID : String}

theorem LockTable.map (h : LockTable db) {f : FinalizeLock → FinalizeLock} (hf : ∀ l ∈ db.finalizeLocks, LockKept l (f l)) :
    LockTable { db with finalizeLocks := db.finalizeLocks.map f } := by
  refine ⟨?_, fun _ hl' _ hm' ha ha' hsame => ?_, fun _ hl' => ?_, fun _ hl' => ?_⟩
  · have hi : (db.finalizeLocks.map f).map (·.id) = db.finalizeLocks.map (·.id) := by
      rw [map_map]
      exact map_congr_left (fun l hl => (hf l hl).id)
    exact hi ▸ h.ids
  · obtain ⟨l, hl, rfl⟩ := mem_map.1 hl'
    obtain ⟨m, hm, rfl⟩ := mem_map.1 hm'
    rw [(hf l hl).sessionID, (hf m hm).sessionID] at hsame
    rw [h.one l hl m hm ((hf l hl).active ha) ((hf m hm).active ha') hsame]
  · obtain ⟨l, hl, rfl⟩ := mem_map.1 hl'
    obtain ⟨s, hs, ho⟩ := h.owned l hl
    exact ⟨s, by rw [(hf l hl).sessionID]; exact hs, ho.trans (hf l hl).orgID.symm⟩
  · obtain ⟨l, hl, rfl⟩ := mem_map.1 hl'
    exact (hf l hl).ended (h.ended l hl)

theorem LockTable.append (h : LockTable db) (hid : ∀ l ∈ db.finalizeLocks, l.id ≠ lock.id)
    (hf : ∀ l ∈ db.finalizeLocks, l.sessionID = lock.sessionID → l.active = false)
    (ho : ∃ s, db.sessions.lookup lock.sessionID = some s ∧ s.orgID = lock.orgID) (he : lock.supersededBy = none) :
    LockTable { db with finalizeLocks := db.finalizeLocks ++ [lock] } := by
  refine ⟨?_, fun l hl m hm ha ha' hs => ?_, fun l hl => ?_, fun l hl => ?_⟩
  · rw [map_append, nodup_append]
    refine ⟨h.ids, nodup_singleton _, ?_⟩
    rintro _ hi' _ hi'' rfl
    obtain ⟨l, hl, hlid⟩ := mem_map.1 hi'
    exact hid l hl (hlid.trans (mem_singleton.1 hi''))
  · rcases mem_append.1 hl with hl | hl <;> rcases mem_append.1 hm with hm | hm
    · exact h.one l hl m hm ha ha' hs
    · cases mem_singleton.1 hm
      rw [hf l hl hs] at ha
      cases ha
    · cases mem_singleton.1 hl
      rw [hf m hm hs.symm] at ha'
      cases ha'
    · rw [mem_singleton.1 hl, mem_singleton.1 hm]
  · rcases mem_append.1 hl with hl | hl
    · exact h.owned l hl
    · rw [mem_singleton.1 hl]
      exact ho
  · rcases mem_append.1 hl with hl | hl
    · exact h.ended l hl
    · rw [mem_singleton.1 hl, he]
      intro h
      cases h

/-! ## Sessions that are updated -/

def endSession (db : Db) (orgID sessionID : String) : Db := updateSession db orgID sessionID (fun s => { s with status := "ended" })

def setEndReason (db : Db) (orgID sessionID reason : String) (now : Int) : Db :=
  updateSession db orgID sessionID (fun s => { s with endReason := some reason, endedAt := some now })

theorem getSession_ok {s : Session} :
    getSession db orgID sessionID = .ok s ↔ db.sessions.lookup sessionID = some s ∧ s.orgID = orgID := by
  rw [getSession, found_ok, Option.filter_eq_some_iff, decide_eq_true_iff]

theorem updateSession_of_ok {g : Session → Session} {s : Session} (h : getSession db orgID sessionID = .ok s) :
    updateSession db orgID sessionID g = { db with sessions := db.sessions.insert sessionID (g s) } := by
  rw [updateSession, h]

theorem updateSession_cases (db : Db) (orgID sessionID : String) (g : Session → Session) :
    updateSession db orgID sessionID g = db ∨ ∃ s, db.sessions.lookup sessionID = some s ∧
      updateSession db orgID sessionID g = { db with sessions := db.sessions.insert sessionID (g s) } := by
  unfold updateSession
  cases hg : getSession db orgID sessionID with
  | error => exact .inl rfl
  | ok s => exact .inr ⟨s, (getSession_ok.1 hg).1, rfl⟩

theorem locks_updateSession (db : Db) (orgID sessionID : String) (g : Session → Session) :
    (updateSession db orgID sessionID g).finalizeLocks = db.finalizeLocks := by
  obtain heq | ⟨s, -, heq⟩ := updateSession_cases db orgID sessionID g
  · rw [heq]
  · rw [heq]

theorem LockTable.updateSession (h : LockTable db) {g : Session → Session} (hg : ∀ s, (g s).orgID = s.orgID) :
    LockTable (updateSession db orgID sessionID g) := by
  obtain heq | ⟨s, hs, heq⟩ := updateSession_cases db orgID sessionID g
  · rw [heq]
    exact h
  rw [heq]
  refine ⟨h.ids, h.one, fun l hl => ?_, h.ended⟩
  obtain ⟨s', hs', ho⟩ := h.owned l hl
  by_cases hk : l.sessionID = sessionID
  · rw [hk, hs] at hs'
    cases hs'
    exact ⟨g s, by rw [hk]; exact Finmap.lookup_insert _, (hg s).trans ho⟩
  · exact ⟨s', (Finmap.lookup_insert_of_ne _ hk).trans hs', ho⟩

end

/-! ## Locks that are read -/

theorem latest_mem {l : FinalizeLock} : ∀ {ls : List FinalizeLock}, latest ls = some l → l ∈ ls
  | [], h => by cases h
  | m :: ls, h => by
    unfold latest at h
    split at h
    · cases h
      exact mem_cons_self
    rename_i hm'
    split at h
    · cases h
      exact mem_cons_self
    · cases h
      exact mem_cons_of_mem _ (latest_mem hm')

theorem getActiveFinalizeLock_ok {db : Db} {sessionID : String} (h : getActiveFinalizeLock db sessionID = .ok lock) :
    lock ∈ db.finalizeLocks ∧ lock.sessionID = sessionID ∧ lock.active = true := by
  obtain ⟨hm, hl⟩ := mem_filter.1 (latest_mem (found_ok.1 h))
  obtain ⟨hs, ha⟩ := Bool.and_eq_true_iff.1 hl
  exact ⟨hm, of_decide_eq_true hs, ha⟩

theorem getFinalizeLockByID_ok {db : Db} {id : String} (h : getFinalizeLockByID db id = .ok lock) :
    lock ∈ db.finalizeLocks ∧ lock.id = id := by
  have hf := found_ok.1 h
  exact ⟨mem_of_find?_eq_some hf, by simpa using List.find?_some hf⟩

/-! ## Acquiring -/

variable {db db' : Db} {r : AcquireFinalizeLock} {accountID : String} {session : Session} {existing : Option FinalizeLock}

/-- **The locks after an acquire**: the old rows, of which only that of the lock in the way has changed (an idle one only if
it was idle when it was released), and the new one. -/
structure LocksAfter (r : AcquireFinalizeLock) (accountID : String) (existing : Option FinalizeLock) (db db' : Db)
    (f : FinalizeLock → FinalizeLock) : Prop where
  eq : db' = { db with finalizeLocks := db.finalizeLocks.map f ++ [newLock r accountID] }
  kept : ∀ l ∈ db.finalizeLocks, LockKept l (f l)
  fresh : ∀ l ∈ db.finalizeLocks, l.id ≠ r.lockID
  free : ∀ l ∈ db.finalizeLocks, l.sessionID = r.sessionID → (f l).active = false
  only : ∀ l ∈ db.finalizeLocks, f l = l ∨ ∃ lock, existing = some lock ∧ l.id = lock.id ∧
    (isLockExpired lock.lastActivityAt r.ctx.now = true → l.lastActivityAt < r.ctx.now - finalizeLockTTL)

theorem insertFinalizeLock_ok (h : insertFinalizeLock db lock = .ok db') :
    db' = { db with finalizeLocks := db.finalizeLocks ++ [lock] } ∧ (∀ l ∈ db.finalizeLocks, l.id ≠ lock.id) ∧
      ∀ l ∈ db.finalizeLocks, l.sessionID = lock.sessionID → l.active = false := by
  unfold insertFinalizeLock at h
  split at h
  · cases h
  rename_i ht
  split at h <;> cases h
  rw [not_or] at ht
  refine ⟨rfl, fun l hl hid => ht.1 ⟨l, hl, hid⟩, fun l hl hs => ?_⟩
  exact Bool.eq_false_iff.2 (fun ha => ht.2 ⟨l, hl, ha, hs⟩)

theorem LocksAfter.of_insert {f : FinalizeLock → FinalizeLock}
    (h : insertFinalizeLock { db with finalizeLocks := db.finalizeLocks.map f } (newLock r accountID) = .ok db')
    (hk : ∀ l ∈ db.finalizeLocks, LockKept l (f l))
    (ho : ∀ l ∈ db.finalizeLocks, f l = l ∨ ∃ lock, existing = some lock ∧ l.id = lock.id ∧
      (isLockExpired lock.lastActivityAt r.ctx.now = true → l.lastActivityAt < r.ctx.now - finalizeLockTTL)) :
    LocksAfter r accountID existing db db' f := by
  obtain ⟨rfl, hid, hf⟩ := insertFinalizeLock_ok h
  refine ⟨rfl, hk, fun l hl hl' => ?_, fun l hl hs => ?_, ho⟩
  · exact hid (f l) (mem_map_of_mem hl) ((hk l hl).id.trans hl')
  · exact hf (f l) (mem_map_of_mem hl) ((hk l hl).sessionID.trans hs)

theorem Acquired.locksAfter (h : Acquired r accountID db existing db')
    (hrow : ∀ lock, existing = some lock → ∃ l ∈ db.finalizeLocks, l.id = lock.id) :
    ∃ f, LocksAfter r accountID existing db db' f := by
  cases h with
  | free hi =>
    refine ⟨fun l => l, .of_insert ?_ (fun l _ => .refl l) (fun l _ => .inl rfl)⟩
    rw [map_id']
    exact hi
  | @stale _ lock _ hi =>
    refine ⟨_, .of_insert hi (fun l _ => .ite (fun _ => .ite (fun _ => .release l _))) (fun l _ => ?_)⟩
    by_cases hid : l.id = lock.id
    · rw [if_pos hid]
      by_cases hs : (l.releasedAt.isNone && decide (l.lastActivityAt < r.ctx.now - finalizeLockTTL)) = true
      · exact .inr ⟨lock, rfl, hid, fun _ => of_decide_eq_true (Bool.and_eq_true_iff.1 hs).2⟩
      · exact .inl (if_neg hs)
    · exact .inl (if_neg hid)
  | @overridden db₁ lock he hi =>
    have hafter : LocksAfter r accountID (some lock) db db₁ _ :=
      .of_insert hi (fun l _ => .ite (fun _ => .ite (fun _ => .release l _))) (fun l _ => by
        by_cases hid : l.id = lock.id
        · exact .inr ⟨lock, rfl, hid, fun h => by rw [he] at h; cases h⟩
        · exact .inl (if_neg hid))
    -- the new row is not the one that is superseded
    obtain ⟨l₀, hl₀, hi₀⟩ := hrow lock rfl
    have hnew : (newLock r accountID).id ≠ lock.id := fun h => hafter.fresh l₀ hl₀ (hi₀.trans h.symm)
    have hsup : ∀ l : FinalizeLock, LockKept (if l.id = lock.id then
          if l.releasedAt.isNone then { l with releasedAt := some r.ctx.now } else l else l)
        (let m := if l.id = lock.id then if l.releasedAt.isNone then { l with releasedAt := some r.ctx.now } else l else l
          if m.id = lock.id then { m with supersededBy := some r.lockID } else m) := by
      intro l
      refine .ite (fun hid => .supersede ?_ _)
      by_cases hl : l.id = lock.id
      · rw [if_pos hl]
        cases hr : l.releasedAt <;> simp [hr]
      · rw [if_neg hl] at hid
        exact absurd hid hl
    refine ⟨_, ⟨?_, fun l hl => (hafter.kept l hl).trans (hsup l), hafter.fresh, fun l hl hsession => ?_, fun l hl => ?_⟩⟩
    · rw [supersedeFinalizeLock, updateLock, hafter.eq]
      simp only [map_append, map_map, map_cons, if_neg hnew]
      rfl
    · refine Bool.eq_false_iff.2 (fun ha => ?_)
      have := hafter.free l hl hsession
      rw [(hsup l).active ha] at this
      cases this
    · obtain _ | hlock := hafter.only l hl
      · by_cases hid : l.id = lock.id
        · exact .inr ⟨lock, rfl, hid, fun h => by rw [he] at h; cases h⟩
        · refine .inl ?_
          simp only [if_neg hid]
      · exact .inr hlock

def InTheWay (db : Db) (sessionID : String) (existing : Option FinalizeLock) : Prop :=
  ∀ lock, existing = some lock → ∃ l ∈ db.finalizeLocks, l.id = lock.id ∧ l.sessionID = sessionID

theorem LockTable.eq_of_id (h : LockTable db) {l' : FinalizeLock} (hl : l ∈ db.finalizeLocks) (hl' : l' ∈ db.finalizeLocks)
    (hid : l.id = l'.id) : l = l' :=
  inj_on_of_nodup_map h.ids hl hl' hid

variable {f : FinalizeLock → FinalizeLock}

theorem LocksAfter.table (h : LocksAfter r accountID existing db db' f) (ht : LockTable db)
    (hsession : getSession db r.orgID r.sessionID = .ok session) : LockTable db' := by
  rw [h.eq]
  refine (ht.map h.kept).append (fun _ hl' => ?_) (fun _ hl' hs => ?_) ⟨session, getSession_ok.1 hsession⟩ rfl
  · obtain ⟨l, hl, rfl⟩ := mem_map.1 hl'
    rw [(h.kept l hl).id]
    exact h.fresh l hl
  · obtain ⟨l, hl, rfl⟩ := mem_map.1 hl'
    exact h.free l hl ((h.kept l hl).sessionID.symm.trans hs)

theorem LocksAfter.active (h : LocksAfter r accountID existing db db' f) (hl : l ∈ db'.finalizeLocks)
    (hsession : l.sessionID = r.sessionID) (ha : l.active = true) : l = newLock r accountID := by
  rw [h.eq] at hl
  rcases mem_append.1 hl with ho | hn
  · obtain ⟨l, hm, rfl⟩ := mem_map.1 ho
    rw [h.free l hm ((h.kept l hm).sessionID.symm.trans hsession)] at ha
    cases ha
  · exact mem_singleton.1 hn

end Jamsesh.Portal
