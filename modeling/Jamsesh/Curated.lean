import Jamsesh.Effects
import Jamsesh.Birth
/-!
# Curated — the ids a plan's script splices

The script of a plan has the curated ids unquoted.  `PatchFinalizeLock` stores them unseen, and the plan resolves each through
a reader that ignores what follows forty digits.  So they are plain in the runs whose patches have plain ids
(`plans_splice_plain_ids`), and not in all runs.
-/
namespace Jamsesh.Portal

open Birth Finalize Git List

def PlainList (list : String) : Prop := ∃ shas, list = marshal shas ∧ ∀ sha ∈ shas, isSHA sha = true

def PlainLocks (db : Db) : Prop := ∀ l ∈ db.finalizeLocks, PlainList l.selectedCommitSHAs

def PlainCall : Call → Prop
  | .patchFinalizeLock r => ∀ body, r.body = some body → ∀ sha ∈ body.selectedCommitSHAs, isSHA sha = true
  | _ => True

theorem writes_plain {c : Call} (hc : PlainCall c) {list : String} (h : Writes c list) : PlainList list := by
  cases c with
  | acquireFinalizeLock => exact ⟨[], h, fun _ hs => (not_mem_nil hs).elim⟩
  | patchFinalizeLock =>
    obtain ⟨body, hb, rfl⟩ := h
    exact ⟨body.selectedCommitSHAs, rfl, hc body hb⟩
  | _ => exact h.elim

theorem PlainLocks.step {env : Env} {db : Db} {c : Call} (h : PlainLocks db) (hc : PlainCall c) :
    PlainLocks (step env db c) := by
  intro l' hl'
  rcases (step_effect env db c).lists l' hl' with hn | ⟨l, hl, heq⟩
  · exact writes_plain hc hn
  · exact heq ▸ h l hl

theorem PlainLocks.run {env : Env} : ∀ (calls : List Call) (db : Db), PlainLocks db → (∀ c ∈ calls, PlainCall c) →
    PlainLocks (run (Portal.step env) db calls)
  | [], _, h, _ => h
  | c :: calls, db, h, hc =>
    PlainLocks.run calls (Portal.step env db c) (h.step (hc c mem_cons_self))
      (fun c' hc' => hc c' (mem_cons_of_mem c hc'))

theorem curated_marshal {lock : FinalizeLock} {shas : List String} (h : lock.selectedCommitSHAs = marshal shas) :
    lock.curated = some shas := by
  have hne : marshal shas ≠ "" := by
    intro he
    have hn : Json.encode shas = [] := by simpa [marshal] using congrArg String.toList he
    cases shas <;> cases hn
  rw [FinalizeLock.curated, h, if_pos hne, marshal, String.toList_ofList, Json.decode_encode]

theorem getFinalizePlan_ok {env : Env} {db : Db} {r : GetFinalizePlan} {plan : Plan} (h : getFinalizePlan env db r = .ok plan) :
    ∃ lock shas commits goal, getFinalizeLockByID db r.lockID = .ok lock ∧ lock.curated = some shas ∧
      plan = composePlan env r goal lock shas commits := by
  unfold getFinalizePlan findLock at h
  split at h
  · cases h
  split at h
  · cases h
  split at h
  · cases h
  rename_i hf
  split at hf
  · cases hf
  · cases hf
  rename_i hg
  split at hf <;> cases hf
  split at h
  · cases h
  split at h
  · cases h
  split at h
  · cases h
  rename_i shas hs
  split at h
  · cases h
  split at h
  · cases h
  rename_i commits _
  split at h <;> cases h
  rename_i session _
  exact ⟨_, shas, commits, session.goal, (call_ok.1 hg).2, hs, rfl⟩

/-- Whatever plan the request gets, its script splices forty lower-case hex digits for each id. -/
def SplicesPlainIds (env : Env) (db : Db) (r : GetFinalizePlan) : Prop :=
  ∀ plan, getFinalizePlan env db r = .ok plan → ∀ lock shas, getFinalizeLockByID db r.lockID = .ok lock →
    lock.curated = some shas → (∃ goal commits, plan.script = buildScript (scriptInput env goal lock shas commits)) ∧
      ∀ sha ∈ shas, isSHA sha = true

theorem PlainLocks.splices {env : Env} {db : Db} (h : PlainLocks db) (r : GetFinalizePlan) : SplicesPlainIds env db r := by
  intro _ hplan lock _ hl hs
  obtain ⟨_, _, commits, goal, hl', hs', rfl⟩ := getFinalizePlan_ok hplan
  rw [hl] at hl'
  cases hl'
  rw [hs] at hs'
  cases hs'
  refine ⟨⟨goal, commits, rfl⟩, ?_⟩
  obtain ⟨_, hlist, hp⟩ := h lock (mem_of_find?_eq_some (found_ok.1 hl))
  rw [curated_marshal hlist] at hs
  cases hs
  exact hp

/-! ## All runs -/

def plainSHA : String := "0303030303030303030303030303030303030303"

def planCalls (goal sha : String) : List Call :=
  [.createOrg ⟨atMinute "ada" 0, "acme", "acme", "acme2", "0"⟩,
    .createSession ⟨atMinute "ada" 0, "acme", "plans", goal, "", "sync", "plans", none⟩,
    .acquireFinalizeLock ⟨atMinute "ada" 0, "acme", "plans", false, "lock"⟩,
    .patchFinalizeLock ⟨atMinute "ada" 0, "acme", "plans", "lock",
      some ⟨[sha], "main", plainSHA, "squash", ""⟩⟩]

/-- **In every run from a database without locks whose patches have plain ids, every plan's script splices plain ids**, for
every request and every repository. -/
theorem plans_splice_plain_ids (env : Env) (db : Db) (calls : List Call) (hnone : db.finalizeLocks = [])
    (hcalls : ∀ c ∈ calls, PlainCall c) (path : List Call) (hpath : path <+: calls) (r : GetFinalizePlan) :
    SplicesPlainIds env (run (step env) db path) r := by
  have hs : PlainLocks db := by
    intro l hl
    rw [hnone] at hl
    exact (not_mem_nil hl).elim
  exact (PlainLocks.run path db hs (fun c hc => hcalls c (hpath.subset hc))).splices r

theorem plans_splice_plain_id :
    (∀ c ∈ planCalls "ship" plainSHA, PlainCall c) ∧
      ∀ r, SplicesPlainIds demoEnv (run (step demoEnv) demoDb (planCalls "ship" plainSHA)) r := by
  have hc : ∀ c ∈ planCalls "ship" plainSHA, PlainCall c := by
    simp only [planCalls, forall_mem_cons, PlainCall, true_and, not_mem_nil, false_implies, implies_true, and_true]
    intro _ hb
    cases hb
    decide
  exact ⟨hc, plans_splice_plain_ids demoEnv demoDb _ rfl hc _ (prefix_refl _)⟩

def planRepo : Repo where
  commits := [⟨.ofByte 3, [], .zero, "work", "Ada", "ada@x"⟩]
  nodup := by decide
  nonzero := by decide
  tree := fun _ => none
  references := .ok []
  head := .error .referenceNotFound

def hostileSHA : String := "0303030303030303030303030303030303030303;touch /tmp/pwned"

/-- **A curated id can carry a command**: the forty digits resolve to a commit, and what follows them goes into the script. -/
theorem spliced_command :
    ¬ SplicesPlainIds demoEnv (run (step demoEnv) demoDb (planCalls "ship" hostileSHA))
      ⟨atMinute "ada" 0, "acme", "plans", "lock", .ok planRepo⟩ := by
  intro h
  have hok : (getFinalizePlan demoEnv (run (step demoEnv) demoDb (planCalls "ship" hostileSHA))
      ⟨atMinute "ada" 0, "acme", "plans", "lock", .ok planRepo⟩).isOk = true := by decide
  have hl : ((run (step demoEnv) demoDb (planCalls "ship" hostileSHA)).finalizeLocks.find? (fun l => l.id = "lock")).bind
      FinalizeLock.curated = some [hostileSHA] := by decide
  obtain ⟨lock, hlock, hc⟩ := Option.bind_eq_some_iff.1 hl
  cases hp : getFinalizePlan demoEnv (run (step demoEnv) demoDb (planCalls "ship" hostileSHA))
      ⟨atMinute "ada" 0, "acme", "plans", "lock", .ok planRepo⟩ with
  | error => rw [hp] at hok; cases hok
  | ok plan =>
    have hplain := (h plan hp lock [hostileSHA] (found_ok.2 hlock) hc).2 hostileSHA mem_cons_self
    exact absurd hplain (by decide)

end Jamsesh.Portal
