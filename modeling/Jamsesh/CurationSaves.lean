import Jamsesh.LockPointer
/-!
# CurationSaves — the debounced saves of the finalize view (`useFinalizePlan.svelte.ts`)

Every edit restarts a timer.  When it fires, the edited snapshot is sent as a PATCH of the lock, whether or not an earlier one
has arrived.  If they arrive in the order in which they were sent, the row holds the last edit in the end (`saved_in_order`);
one that is overtaken undoes the later edit (`overtaken`).
-/
namespace Jamsesh.Portal

/-- The view of a held lock: the snapshot that the timer will send, the bodies of the PATCHes under way, the oldest first, and
the last edit. -/
structure View where
  patchTimer : Option Curation
  inFlight : List Curation
  db : Db
  last : Option Curation

inductive ViewAct where
  | schedulePatch (opts : Curation)
  | flushPatch
  | arrive (i : Nat) (now : Int)

/-- The body that is sent: a message only with a squash. -/
def patchBody (opts : Curation) : Curation := if opts.mode = "squash" then opts else { opts with commitMessage := "" }

/-- One step while the lock is active and no request fails; a body that the portal refuses is such a failure. -/
def View.step (lockID : String) (s : View) : ViewAct → Option View
  | .schedulePatch opts => some { s with patchTimer := some opts, last := some opts }
  | .flushPatch => s.patchTimer.map (fun opts => { s with patchTimer := none, inFlight := s.inFlight ++ [patchBody opts] })
  | .arrive i now =>
    match s.inFlight[i]? with
    | none => none
    | some body =>
      match validateCuration body with
      | .error _ => none
      | .ok mode =>
        some { s with inFlight := s.inFlight.eraseIdx i, db := updateFinalizeLockCuration s.db lockID body mode now }

/-- **An arrival is a patch** of the lock by its holder, in time and with a store that answers. -/
theorem arrive_eq_patch {s s' : View} {i : Nat} {body : Curation} {r : PatchFinalizeLock} {accountID : String} {acc : Account}
    {lock : FinalizeLock} (hi : s.inFlight[i]? = some body) (hs : s.step r.lockID (.arrive i r.ctx.now) = some s')
    (hbody : r.body = some body) (hcaller : requireAccount s.db r.ctx = some (accountID, acc))
    (hmember : membershipReply s.db r.ctx r.orgID r.sessionID accountID = none)
    (hlock : findLock s.db r.ctx r.orgID r.sessionID r.lockID = .ok lock) (hholder : checkHolder lock accountID = none)
    (hfresh : isLockExpired lock.lastActivityAt r.ctx.now = false) (hup : r.ctx.down .updateCuration = none) :
    (patchFinalizeLock s.db r).1 = s'.db := by
  have hid : lock.id = r.lockID := by simpa using List.find?_some (found_ok.1 (findLock_ok hlock).1)
  simp only [View.step, hi] at hs
  split at hs <;> cases hs
  rename_i mode hmode
  simp only [patchFinalizeLock, hcaller, hbody, hmember, hlock, hholder, hfresh, hmode, call, hup, hid, Bool.false_eq_true,
    if_false]
  split <;> rfl

def FinalizeLock.Holds (row : FinalizeLock) (body : Curation) : Prop :=
  row.selectedCommitSHAs = marshal body.selectedCommitSHAs ∧ row.targetBranch = body.targetBranch ∧
    row.baseSHA = body.baseSHA ∧ validateCuration body = .ok row.mode ∧ row.commitMessage.getD "" = body.commitMessage

def View.RowHolds (lockID : String) (s : View) (opts : Curation) : Prop :=
  ∀ row, getFinalizeLockByID s.db lockID = .ok row → row.Holds (patchBody opts)

/-- With no edit and no PATCH to come, the row holds the last edit. -/
def View.Saved (lockID : String) (s : View) : Prop :=
  s.patchTimer = none → s.inFlight = [] → ∀ opts, s.last = some opts → s.RowHolds lockID opts

/-- The PATCHes arrive in the order in which they were sent. -/
def InOrder (_ : View) : ViewAct → Prop
  | .arrive i _ => i = 0
  | _ => True

theorem updated_holds {db : Db} {lockID : String} {body : Curation} {mode : PlanMode} {now : Int} {row : FinalizeLock}
    (hmode : validateCuration body = .ok mode)
    (hr : getFinalizeLockByID (updateFinalizeLockCuration db lockID body mode now) lockID = .ok row) : row.Holds body := by
  have hf := found_ok.1 hr
  have hid : row.id = lockID := by simpa using List.find?_some hf
  obtain ⟨l, -, hl⟩ := List.mem_map.1 (List.mem_of_find?_eq_some hf)
  split at hl <;> subst hl
  · refine ⟨rfl, rfl, rfl, hmode, ?_⟩
    by_cases hm : body.commitMessage = "" <;> simp [hm]
  · exact absurd hid (by assumption)

/-- The last edit waits for the timer, is the youngest PATCH, or is in the row. -/
def View.Follows (lockID : String) (s : View) : Prop :=
  ∀ opts, s.last = some opts → s.patchTimer = some opts ∨
    s.patchTimer = none ∧ (s.inFlight.getLast? = some (patchBody opts) ∨ s.inFlight = [] ∧ s.RowHolds lockID opts)

theorem View.Follows.step {lockID : String} {s s' : View} {a : ViewAct} (h : s.Follows lockID) (hok : InOrder s a)
    (hstep : s.step lockID a = some s') : s'.Follows lockID := by
  intro opts hl
  cases a with
  | schedulePatch =>
    cases hstep
    exact .inl hl
  | flushPatch =>
    obtain ⟨opts', ht, rfl⟩ := Option.map_eq_some_iff.1 hstep
    rcases h opts hl with hs | ⟨hn, -⟩
    · cases ht.symm.trans hs
      exact .inr ⟨rfl, .inl List.getLast?_concat⟩
    · cases ht.symm.trans hn
  | arrive i now =>
    cases hok
    cases hf : s.inFlight with
    | nil => simp [View.step, hf] at hstep
    | cons body rest =>
      simp only [View.step, hf, List.getElem?_cons_zero, List.eraseIdx_cons_zero] at hstep
      split at hstep <;> cases hstep
      rename_i mode hm
      refine (h opts hl).imp id fun ⟨hn, hnext⟩ => ⟨hn, ?_⟩
      simp only [hf, reduceCtorEq, false_and, or_false] at hnext
      cases rest with
      | nil =>
        cases hnext
        exact .inr ⟨rfl, fun row hr => updated_holds hm hr⟩
      | cons => exact .inl (List.getLast?_cons_cons.symm.trans hnext)

/-- **The last edit is saved**, if the PATCHes arrive in the order in which they were sent. -/
theorem saved_in_order (lockID : String) (s₀ s : View) (as : List ViewAct) (hnew : s₀.last = none)
    (hok : Machine.Along (View.step lockID) InOrder s₀ as) (hrun : Machine.exec (View.step lockID) s₀ as = some s) :
    s.Saved lockID := by
  intro ht hf opts hl
  have hs : s₀.Follows lockID := by simp [View.Follows, hnew]
  have he := Machine.invariant (fun _ _ _ h hok hstep => h.step hok hstep) hs hok hrun opts hl
  simpa [ht, hf] using he

def firstLocked : View :=
  ⟨none, [], (acquireFinalizeLock demoEnv shipDb ⟨atMinute "ada" 0, "acme", "plans", false, "first"⟩).1, none⟩

def twoEdits (i : Nat) : List ViewAct :=
  [.schedulePatch curation, .flushPatch, .schedulePatch { curation with targetBranch := "next" }, .flushPatch, .arrive i 0,
    .arrive 0 0]

theorem saved_in_order_two : ∃ s, Machine.exec (View.step "first") firstLocked (twoEdits 0) = some s ∧ s.Saved "first" := by
  have hr : Machine.exec (View.step "first") firstLocked (twoEdits 0) = some _ := rfl
  refine ⟨_, hr, saved_in_order "first" firstLocked _ (twoEdits 0) rfl ?_ hr⟩
  refine .cons_of_step trivial rfl (.cons_of_step trivial rfl (.cons_of_step trivial rfl (.cons_of_step trivial rfl ?_)))
  exact ⟨rfl, fun _ _ => ⟨rfl, fun _ _ => trivial⟩⟩

/-- **A PATCH that is overtaken undoes the later edit.** -/
theorem overtaken : ∃ s, Machine.exec (View.step "first") firstLocked (twoEdits 1) = some s ∧ s.patchTimer = none ∧
    s.inFlight = [] ∧ s.last = some { curation with targetBranch := "next" } ∧
      (getFinalizeLockByID s.db "first").map (·.targetBranch) = .ok "main" :=
  ⟨_, rfl, rfl, rfl, rfl, rfl⟩

end Jamsesh.Portal
