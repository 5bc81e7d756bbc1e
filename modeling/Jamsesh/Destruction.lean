import Jamsesh.PlaygroundJoin
/-!
# Destruction — the end of playground sessions (`playground/worker.go`, `playground/destruction.go`)

`Destroy` is a list of statements, most of whose errors are only logged; the row by which a later sweep finds the session is
deleted before the accounts and the repository.  What the deleting run leaves behind stays (`skipped_for_good`); where it
leaves nothing, the sweeps end with everything gone (`sweeps_converge`).  Times are in nanoseconds.
-/
namespace Jamsesh.Playground

open List Machine
open PlaygroundJoin (Answer)

/-! ## Rows -/

structure Session where
  id : String
  status : String
  createdAt : Int
  hardCapAt : Option Int
  idleTimeoutAt : Option Int
deriving DecidableEq

structure Member where
  sessionID : String
  accountID : String
deriving DecidableEq

structure Account where
  id : String
  isAnonymous : Bool
deriving DecidableEq

structure Event where
  sessionID : String
  type : String
deriving DecidableEq

structure Bearer where
  accountID : String
  sessionID : String
  revokedAt : Option Int
deriving DecidableEq

structure Tombstone where
  sessionID : String
  membersCount : Nat
  commitsCount : Nat
  autoMergesCount : Nat
  durationSeconds : Int
  endReason : String
  endedAt : Int
  expiresAt : Int
deriving DecidableEq

structure World where
  sessions : List Session
  members : List Member
  accounts : List Account
  events : List Event
  bearers : List Bearer
  tombstones : List Tombstone
  repos : List String
  recorded : List String
deriving DecidableEq

/-! ## Queries -/

/-- `ListExpiredPlaygroundSessions`, for one row. -/
def Session.expired (s : Session) (now : Int) : Bool :=
  s.status = "active" && (s.hardCapAt.any (· ≤ now) || s.idleTimeoutAt.any (· ≤ now))

def World.countMembers (w : World) (sessionID : String) : Nat := w.members.countP (fun m => m.sessionID = sessionID)

def World.countEvents (w : World) (sessionID type : String) : Nat :=
  w.events.countP (fun e => e.sessionID = sessionID ∧ e.type = type)

/-- `ListAnonymousSessionMemberIDs`: a join with `accounts`. -/
def World.anonymousMembers (w : World) (sessionID : String) : List String :=
  (w.members.filter (fun m => m.sessionID = sessionID ∧ w.accounts.any (fun a => a.id = m.accountID && a.isAnonymous))).map
    (·.accountID)

/-- `RecordTombstone`: a tombstone that is there stays. -/
def World.recordTombstone (w : World) (t : Tombstone) : World where
  sessions := w.sessions
  members := w.members
  accounts := w.accounts
  events := w.events
  bearers := w.bearers
  tombstones := if w.tombstones.any (fun u => u.sessionID = t.sessionID) then w.tombstones else w.tombstones ++ [t]
  repos := w.repos
  recorded := t.sessionID :: w.recorded

def World.revokeBearers (w : World) (sessionID : String) (now : Int) : World :=
  { w with bearers := w.bearers.map fun b =>
      if b.sessionID = sessionID ∧ b.revokedAt = none then { b with revokedAt := some now } else b }

/-- `DeleteSession`, with what goes with the row. -/
def World.deleteSession (w : World) (sessionID : String) : World where
  sessions := w.sessions.filter (fun s => s.id ≠ sessionID)
  members := w.members.filter (fun m => m.sessionID ≠ sessionID)
  accounts := w.accounts
  events := w.events.filter (fun e => e.sessionID ≠ sessionID)
  bearers := w.bearers.filter (fun b => b.sessionID ≠ sessionID)
  tombstones := w.tombstones
  repos := w.repos
  recorded := w.recorded

/-- `DeleteAccountsByIDs`, with what goes with the rows. -/
def World.deleteAccounts (w : World) (ids : List String) : World where
  sessions := w.sessions
  members := w.members.filter (fun m => m.accountID ∉ ids)
  accounts := w.accounts.filter (fun a => a.id ∉ ids)
  events := w.events
  bearers := w.bearers.filter (fun b => b.accountID ∉ ids)
  tombstones := w.tombstones
  repos := w.repos
  recorded := w.recorded

def World.removeRepo (w : World) (sessionID : String) : World :=
  { w with repos := w.repos.filter (fun r => r ≠ sessionID) }

def World.purgeTombstones (w : World) (now : Int) : World :=
  { w with tombstones := w.tombstones.filter (fun t => ¬ t.expiresAt ≤ now) }

/-! ## `Destroy` -/

inductive Stmt where
  | acquire | countMembers | countCommits | countAutoMerges | listAnonymous | recordTombstone | revokeBearers | deleteSession
  | deleteAccounts | removeRepo
deriving DecidableEq

def destroyStmts : List Stmt :=
  [.acquire, .countMembers, .countCommits, .countAutoMerges, .listAnonymous, .recordTombstone, .revokeBearers, .deleteSession,
    .deleteAccounts, .removeRepo]

/-- What a statement meets: its answer, whether another pod has the lock, and the clock. -/
structure Turn where
  answer : Answer
  held : Bool
  now : Int
deriving DecidableEq

structure Frame where
  sess : Session
  reason : String
  now : Int
  membersCount : Nat
  commitsCount : Nat
  autoMergesCount : Nat
  anonIDs : List String
deriving DecidableEq

def Frame.start (sess : Session) (reason : String) : Frame := ⟨sess, reason, 0, 0, 0, 0, []⟩

def tombstoneTTL : Int := 2592000000000000 -- thirty days

def Frame.tombstone (f : Frame) : Tombstone where
  sessionID := f.sess.id
  membersCount := f.membersCount
  commitsCount := f.commitsCount
  autoMergesCount := f.autoMergesCount
  durationSeconds := max 0 ((f.now - f.sess.createdAt) / 1000000000)
  endReason := f.reason
  endedAt := f.now
  expiresAt := f.now + tombstoneTTL

def counted (turn : Turn) (n : Nat) : Nat := if turn.answer = .ok then n else 0

def written (turn : Turn) (w w' : World) : World := if turn.answer = .failed then w else w'

/-- **One statement of `Destroy`**; without a frame `Destroy` has returned. -/
def World.exec (w : World) (f : Frame) (turn : Turn) : Stmt → World × Option Frame
  | .acquire => (w, if turn.held ∨ turn.answer ≠ .ok then none else some { f with now := turn.now })
  | .countMembers => (w, some { f with membersCount := counted turn (w.countMembers f.sess.id) })
  | .countCommits => (w, some { f with commitsCount := counted turn (w.countEvents f.sess.id "commit.arrived") })
  | .countAutoMerges => (w, some { f with autoMergesCount := counted turn (w.countEvents f.sess.id "merge.succeeded") })
  | .listAnonymous => (w, some { f with anonIDs := if turn.answer = .ok then w.anonymousMembers f.sess.id else [] })
  | .recordTombstone => (written turn w (w.recordTombstone f.tombstone), some f)
  | .revokeBearers => (written turn w (w.revokeBearers f.sess.id f.now), some f)
  -- the only statement whose error ends the run
  | .deleteSession => (written turn w (w.deleteSession f.sess.id), if turn.answer = .ok then some f else none)
  | .deleteAccounts => (if f.anonIDs = [] then w else written turn w (w.deleteAccounts f.anonIDs), some f)
  | .removeRepo => (written turn w (w.removeRepo f.sess.id), some f)

def World.run (turn : Stmt → Turn) (w : World) (f : Frame) : List Stmt → World
  | [] => w
  | stmt :: stmts =>
    match (w.exec f (turn stmt) stmt).2 with
    | none => (w.exec f (turn stmt) stmt).1
    | some f' => (w.exec f (turn stmt) stmt).1.run turn f' stmts

def World.destroy (w : World) (sess : Session) (reason : String) (turn : Stmt → Turn) : World :=
  w.run turn (.start sess reason) destroyStmts

/-! ## The worker -/

def reasonFor (sess : Session) (now : Int) : String :=
  if sess.hardCapAt.any (· ≤ now) then "hard_cap" else if sess.idleTimeoutAt.any (· ≤ now) then "idle" else "manual"

structure Tick where
  now : Int
  listed : Bool
  turn : String → Stmt → Turn
  purged : Bool

def World.destroyAll (t : Tick) (w : World) (sessions : List Session) : World :=
  sessions.foldl (fun w sess => w.destroy sess (reasonFor sess t.now) (t.turn sess.id)) w

def World.sweep (w : World) (t : Tick) : World :=
  if t.listed then w.destroyAll t (w.sessions.filter (·.expired t.now)) else w

structure Worker where
  world : World
  tick : Nat

def purgeEvery : Nat := 60

def Worker.step (s : Worker) (t : Tick) : Option Worker :=
  some ⟨if (s.tick + 1) % purgeEvery = 0 ∧ t.purged then (s.world.sweep t).purgeTombstones t.now else s.world.sweep t,
    s.tick + 1⟩

/-! ## What sweeps leave alone -/

/-- Nothing here adds a row, an account or a repository, and a tombstone recorded stays recorded. -/
structure Fewer (w w' : World) : Prop where
  sessions : w'.sessions.Sublist w.sessions
  members : w'.members ⊆ w.members
  accounts : w'.accounts ⊆ w.accounts
  repos : w'.repos ⊆ w.repos
  recorded : w.recorded ⊆ w'.recorded

theorem Fewer.refl (w : World) : Fewer w w :=
  ⟨List.Sublist.refl _, List.Subset.refl _, List.Subset.refl _, List.Subset.refl _, List.Subset.refl _⟩

theorem Fewer.trans {w₁ w₂ w₃ : World} (h : Fewer w₁ w₂) (h' : Fewer w₂ w₃) : Fewer w₁ w₃ :=
  ⟨h'.sessions.trans h.sessions, List.Subset.trans h'.members h.members, List.Subset.trans h'.accounts h.accounts,
    List.Subset.trans h'.repos h.repos, List.Subset.trans h.recorded h'.recorded⟩

/-- The destruction of other sessions: what the session `sid` has stays, but for accounts it shares with them. -/
structure Spares (sid : String) (w w' : World) : Prop extends Fewer w w' where
  row : ∀ s ∈ w.sessions, s.id = sid → s ∈ w'.sessions
  joined : ∀ m ∈ w.members, m.sessionID = sid → (∃ a ∈ w'.accounts, a.id = m.accountID) → m ∈ w'.members
  repo : sid ∈ w.repos → sid ∈ w'.repos
  unrecorded : sid ∈ w'.recorded → sid ∈ w.recorded

theorem Spares.refl (sid : String) (w : World) : Spares sid w w :=
  ⟨.refl w, fun _ h _ => h, fun _ h _ _ => h, fun h => h, fun h => h⟩

variable {sid : String} {P : World → Prop} {f : Frame} {t : Tick} {w₀ w : World} {r : Session}

theorem Spares.trans {w₁ w₂ w₃ : World} (h : Spares sid w₁ w₂) (h' : Spares sid w₂ w₃) : Spares sid w₁ w₃ := by
  refine ⟨h.toFewer.trans h'.toFewer, fun s hs hid => h'.row s (h.row s hs hid) hid, fun m hm hid ha => ?_,
    fun hr => h'.repo (h.repo hr), fun hr => h.unrecorded (h'.unrecorded hr)⟩
  obtain ⟨a, ha, hn⟩ := ha
  exact h'.joined m (h.joined m hm hid ⟨a, h'.accounts ha, hn⟩) hid ⟨a, ha, hn⟩

section
variable {w w' : World} {f f' : Frame} {turn : Turn} {stmt : Stmt} {sid : String}

theorem fewer_recordTombstone (w : World) (t : Tombstone) : Fewer w (w.recordTombstone t) :=
  ⟨List.Sublist.refl _, List.Subset.refl _, List.Subset.refl _, List.Subset.refl _, subset_cons_self _ _⟩

theorem fewer_revokeBearers (w : World) (sid : String) (now : Int) : Fewer w (w.revokeBearers sid now) :=
  ⟨List.Sublist.refl _, List.Subset.refl _, List.Subset.refl _, List.Subset.refl _, List.Subset.refl _⟩

theorem fewer_deleteSession (w : World) (sid : String) : Fewer w (w.deleteSession sid) :=
  ⟨filter_sublist, filter_sublist.subset, List.Subset.refl _, List.Subset.refl _, List.Subset.refl _⟩

theorem fewer_deleteAccounts (w : World) (ids : List String) : Fewer w (w.deleteAccounts ids) :=
  ⟨List.Sublist.refl _, filter_sublist.subset, filter_sublist.subset, List.Subset.refl _, List.Subset.refl _⟩

theorem fewer_removeRepo (w : World) (sid : String) : Fewer w (w.removeRepo sid) :=
  ⟨List.Sublist.refl _, List.Subset.refl _, List.Subset.refl _, filter_sublist.subset, List.Subset.refl _⟩

theorem written_keeps (h : P w) (h' : P w') : P (written turn w w') := by
  unfold written
  split
  · exact h
  · exact h'

theorem exec_fewer (w : World) (f : Frame) (turn : Turn) (stmt : Stmt) : Fewer w (w.exec f turn stmt).1 := by
  cases stmt with
  | acquire | countMembers | countCommits | countAutoMerges | listAnonymous => exact .refl w
  | recordTombstone => exact written_keeps (.refl w) (fewer_recordTombstone w _)
  | revokeBearers => exact written_keeps (.refl w) (fewer_revokeBearers w _ _)
  | deleteSession => exact written_keeps (.refl w) (fewer_deleteSession w _)
  | deleteAccounts =>
    simp only [World.exec]
    split
    · exact .refl w
    · exact written_keeps (.refl w) (fewer_deleteAccounts w _)
  | removeRepo => exact written_keeps (.refl w) (fewer_removeRepo w _)

theorem exec_frame (h : (w.exec f turn stmt).2 = some f') : f'.sess = f.sess ∧ f'.reason = f.reason := by
  cases stmt with
  | acquire =>
    simp only [World.exec] at h
    split at h <;> cases h
    exact ⟨rfl, rfl⟩
  | deleteSession =>
    simp only [World.exec] at h
    split at h <;> cases h
    exact ⟨rfl, rfl⟩
  | countMembers | countCommits | countAutoMerges | listAnonymous | recordTombstone | revokeBearers | deleteAccounts
  | removeRepo =>
    cases h
    exact ⟨rfl, rfl⟩

theorem exec_spares (hne : f.sess.id ≠ sid) : Spares sid w (w.exec f turn stmt).1 := by
  cases stmt with
  | acquire | countMembers | countCommits | countAutoMerges | listAnonymous => exact .refl sid w
  | recordTombstone =>
    refine written_keeps (.refl sid w) ⟨fewer_recordTombstone w _, fun _ h _ => h, fun _ h _ _ => h, fun h => h, fun h => ?_⟩
    rcases mem_cons.1 h with rfl | h
    · exact absurd rfl hne
    · exact h
  | revokeBearers =>
    exact written_keeps (.refl sid w) ⟨fewer_revokeBearers w _ _, fun _ h _ => h, fun _ h _ _ => h, fun h => h, fun h => h⟩
  | deleteSession =>
    refine written_keeps (.refl sid w)
      ⟨fewer_deleteSession w _, fun s h hid => ?_, fun m h hid _ => ?_, fun h => h, fun h => h⟩
    · exact mem_filter.2 ⟨h, by simpa [hid] using Ne.symm hne⟩
    · exact mem_filter.2 ⟨h, by simpa [hid] using Ne.symm hne⟩
  | deleteAccounts =>
    simp only [World.exec]
    split
    · exact .refl sid w
    refine written_keeps (.refl sid w) ⟨fewer_deleteAccounts w _, fun _ h _ => h, fun m h _ ha => ?_, fun h => h, fun h => h⟩
    obtain ⟨a, ha, hn⟩ := ha
    have hk := (mem_filter.1 ha).2
    rw [hn] at hk
    exact mem_filter.2 ⟨h, hk⟩
  | removeRepo =>
    refine written_keeps (.refl sid w) ⟨fewer_removeRepo w _, fun _ h _ => h, fun _ h _ _ => h, fun h => ?_, fun h => h⟩
    exact mem_filter.2 ⟨h, by simpa using Ne.symm hne⟩

end

section
variable {w : World} {sid : String} {turn : Stmt → Turn}

theorem run_fewer (turn : Stmt → Turn) (w : World) (f : Frame) (stmts : List Stmt) : Fewer w (w.run turn f stmts) := by
  induction stmts generalizing w f with
  | nil => exact .refl w
  | cons stmt _ ih =>
    rw [World.run]
    split
    · exact exec_fewer w f _ stmt
    · exact (exec_fewer w f _ stmt).trans (ih _ _)

theorem run_spares (hne : f.sess.id ≠ sid) (stmts : List Stmt) : Spares sid w (w.run turn f stmts) := by
  induction stmts generalizing w f with
  | nil => exact .refl sid w
  | cons _ _ ih =>
    rw [World.run]
    split
    · exact exec_spares hne
    · rename_i hf
      exact (exec_spares hne).trans (ih (by rw [(exec_frame hf).1]; exact hne))

theorem destroy_fewer (w : World) (sess : Session) (reason : String) (turn : Stmt → Turn) :
    Fewer w (w.destroy sess reason turn) := run_fewer turn w _ _

theorem destroy_spares {sess : Session} (hne : sess.id ≠ sid) (reason : String) :
    Spares sid w (w.destroy sess reason turn) := run_spares hne _

theorem destroyAll_keeps {l : List Session} (hw : P w)
    (hd : ∀ w', P w' → ∀ sess ∈ l, P (w'.destroy sess (reasonFor sess t.now) (t.turn sess.id))) : P (w.destroyAll t l) :=
  List.foldlRecOn l _ hw hd

theorem sweep_keeps (hw : P w) (hd : ∀ w', P w' → ∀ sess ∈ w.sessions, sess.expired t.now = true → t.listed = true →
      P (w'.destroy sess (reasonFor sess t.now) (t.turn sess.id))) : P (w.sweep t) := by
  unfold World.sweep
  split
  · rename_i hl
    refine destroyAll_keeps hw fun w' hw' sess hs => ?_
    obtain ⟨hm, he⟩ := mem_filter.1 hs
    exact hd w' hw' sess hm he hl
  · exact hw

theorem sweep_fewer (w : World) (t : Tick) : Fewer w (w.sweep t) :=
  sweep_keeps (.refl w) fun w' hw' sess _ _ _ => hw'.trans (destroy_fewer w' sess _ _)

theorem sweep_spares (hn : ∀ s ∈ w.sessions, s.id = sid → s.expired t.now = false) : Spares sid w (w.sweep t) := by
  refine sweep_keeps (.refl sid w) fun _ hw' sess hm he _ => hw'.trans (destroy_spares ?_ _)
  intro hid
  rw [hn sess hm hid] at he
  cases he

end

/-! ## Convergence -/

/-- **Nothing is left** of the session `sid`, whose members were those of `w₀`: no row, no anonymous account, no repository;
and it has had a tombstone. -/
structure Destroyed (w₀ : World) (sid : String) (w : World) : Prop where
  row : ∀ s ∈ w.sessions, s.id ≠ sid
  accounts : ∀ a ∈ w.accounts, a.isAnonymous = true → ⟨sid, a.id⟩ ∉ w₀.members
  repo : sid ∉ w.repos
  tombstone : sid ∈ w.recorded

theorem Destroyed.of_fewer {w' : World} (h : Destroyed w₀ sid w) (hf : Fewer w w') : Destroyed w₀ sid w' :=
  ⟨fun s hs => h.row s (hf.sessions.subset hs), fun a ha => h.accounts a (hf.accounts ha),
    fun hr => h.repo (hf.repos hr), hf.recorded h.tombstone⟩

/-- **Still to be found**: the row is there, and so are the memberships of its accounts. -/
structure Pending (w₀ : World) (r : Session) (w : World) : Prop where
  row : r ∈ w.sessions
  accounts : ∀ a ∈ w.accounts, ⟨r.id, a.id⟩ ∈ w₀.members → ⟨r.id, a.id⟩ ∈ w.members

theorem Pending.of_spares {w' : World} (h : Pending w₀ r w) (hs : Spares r.id w w') : Pending w₀ r w' :=
  ⟨hs.row r h.row rfl, fun a ha hm =>
    hs.joined ⟨r.id, a.id⟩ (h.accounts a (hs.accounts ha) hm) rfl ⟨a, ha, rfl⟩⟩

/-- Whether a run of `Destroy` comes to the delete of the row and carries it out. -/
def Deletes (turn : Stmt → Turn) : Prop :=
  (turn .acquire).held = false ∧ (turn .acquire).answer = .ok ∧ (turn .deleteSession).answer ≠ .failed

instance (turn : Stmt → Turn) : Decidable (Deletes turn) := inferInstanceAs (Decidable (_ ∧ _ ∧ _))

/-- **A run of `Destroy` that leaves nothing behind**: where it deletes the row, it goes on to delete the accounts it has
listed and the repository, and there is a tombstone. -/
def LeavesNothing (w : World) (sid : String) (turn : Stmt → Turn) : Prop :=
  Deletes turn →
    (w.anonymousMembers sid = [] ∨ (turn .listAnonymous).answer = .ok ∧ (turn .deleteSession).answer = .ok ∧
      (turn .deleteAccounts).answer ≠ .failed) ∧
    (sid ∉ w.repos ∨ (turn .deleteSession).answer = .ok ∧ (turn .removeRepo).answer ≠ .failed) ∧
    (sid ∈ w.recorded ∨ (turn .recordTombstone).answer ≠ .failed)

section
variable {w₀ w w' : World} {r sess : Session} {sid reason : String} {turn : Stmt → Turn} {t : Tick}

theorem mem_anonymousMembers {id : String} :
    id ∈ w.anonymousMembers sid ↔ ⟨sid, id⟩ ∈ w.members ∧ ∃ a ∈ w.accounts, a.id = id ∧ a.isAnonymous = true := by
  simp only [World.anonymousMembers, mem_map, mem_filter, decide_eq_true_eq, any_eq_true, Bool.and_eq_true]
  constructor
  · rintro ⟨m, ⟨hm, rfl, ha⟩, rfl⟩
    exact ⟨hm, ha⟩
  · rintro ⟨hm, ha⟩
    exact ⟨⟨sid, id⟩, ⟨hm, rfl, ha⟩, rfl⟩

theorem LeavesNothing.of_fewer (h : LeavesNothing w sid turn) (hf : Fewer w w') : LeavesNothing w' sid turn := by
  intro hd
  obtain ⟨haccounts, hrepo, ht⟩ := h hd
  refine ⟨haccounts.imp_left fun hn => ?_, hrepo.imp_left fun hnot hr => hnot (hf.repos hr),
    ht.imp_left fun hr => hf.recorded hr⟩
  refine eq_nil_iff_forall_not_mem.2 fun id hid => ?_
  obtain ⟨hm, a, ha, hname⟩ := mem_anonymousMembers.1 hid
  have hin : id ∈ w.anonymousMembers sid := mem_anonymousMembers.2 ⟨hf.members hm, a, hf.accounts ha, hname⟩
  rw [hn] at hin
  cases hin

/-- **`Destroy` up to the delete of the row**: what it has listed, and what it has recorded. -/
structure Noted (w : World) (sess : Session) (turn : Stmt → Turn) (w₁ : World) (f₁ : Frame) : Prop where
  of : f₁.sess = sess
  anonIDs : f₁.anonIDs = if (turn .listAnonymous).answer = .ok then w.anonymousMembers sess.id else []
  sessions : w₁.sessions = w.sessions
  members : w₁.members = w.members
  accounts : w₁.accounts = w.accounts
  repos : w₁.repos = w.repos
  kept : w.recorded ⊆ w₁.recorded
  recorded : (turn .recordTombstone).answer ≠ .failed → sess.id ∈ w₁.recorded

theorem destroy_acquired (w : World) (sess : Session) (reason : String) (hh : (turn .acquire).held = false)
    (ha : (turn .acquire).answer = .ok) :
    ∃ (w₁ : World) (f₁ : Frame), Noted w sess turn w₁ f₁ ∧
      w.destroy sess reason turn = w₁.run turn f₁ [.deleteSession, .deleteAccounts, .removeRepo] := by
  have hgo : ¬ ((turn .acquire).held = true ∨ (turn .acquire).answer ≠ .ok) := by simp [hh, ha]
  simp only [World.destroy, destroyStmts, World.run, World.exec, if_neg hgo]
  refine ⟨_, _, ?_, rfl⟩
  by_cases hrecord : (turn .recordTombstone).answer = .failed
  · by_cases hr : (turn .revokeBearers).answer = .failed <;>
      constructor <;> simp [written, hrecord, hr, World.revokeBearers, Frame.start]
  · by_cases hr : (turn .revokeBearers).answer = .failed <;>
      constructor <;>
        simp [written, hrecord, hr, World.revokeBearers, World.recordTombstone, Frame.tombstone, Frame.start]

theorem Pending.kept (h : Pending w₀ r w) (hnot : ¬ Deletes turn) : Pending w₀ r (w.destroy sess reason turn) := by
  by_cases hgo : (turn .acquire).held = false ∧ (turn .acquire).answer = .ok
  · have hd : (turn .deleteSession).answer = .failed := by
      by_contra hd
      exact hnot ⟨hgo.1, hgo.2, hd⟩
    obtain ⟨w₁, _, hn, heq⟩ := destroy_acquired w sess reason hgo.1 hgo.2
    have hs : w.destroy sess reason turn = w₁ := by
      rw [heq]
      simp [World.run, World.exec, written, hd]
    rw [hs]
    refine ⟨by rw [hn.sessions]; exact h.row, fun a ha hm => ?_⟩
    rw [hn.accounts] at ha
    rw [hn.members]
    exact h.accounts a ha hm
  · have hs : w.destroy sess reason turn = w := by
      have hr : (turn .acquire).held = true ∨ (turn .acquire).answer ≠ .ok := by
        cases hh : (turn .acquire).held with
        | true => exact .inl rfl
        | false => exact .inr fun hok => hgo ⟨hh, hok⟩
      simp only [World.destroy, destroyStmts, World.run, World.exec, if_pos hr]
    rw [hs]
    exact h

theorem Pending.destroyed (h : Pending w₀ r w) (hsess : sess.id = r.id) (hdeletes : Deletes turn)
    (hleaves : LeavesNothing w r.id turn) : Destroyed w₀ r.id (w.destroy sess reason turn) := by
  obtain ⟨haccounts, hrepo, ht⟩ := hleaves hdeletes
  obtain ⟨hh, hacquire, hdelete⟩ := hdeletes
  obtain ⟨w₁, f₁, hn, heq⟩ := destroy_acquired w sess reason hh hacquire
  -- the world behind the delete; what follows only takes away
  have hfewer : Fewer (w₁.deleteSession r.id) (w.destroy sess reason turn) := by
    rw [heq, World.run]
    simp only [World.exec, written, if_neg hdelete, hn.of, hsess]
    split
    · exact .refl _
    · exact run_fewer turn _ _ _
  have hrow : ∀ s ∈ (w.destroy sess reason turn).sessions, s.id ≠ r.id := fun s hs => by
    have hkept := (mem_filter.1 (hfewer.sessions.subset hs)).2
    simpa using hkept
  refine ⟨hrow, fun a ha hanonymous hm => ?_, fun hr => ?_, hfewer.recorded ?_⟩
  · have hin : a ∈ w.accounts := by
      have hin : a ∈ w₁.accounts := hfewer.accounts ha
      rwa [hn.accounts] at hin
    have hlisted : a.id ∈ w.anonymousMembers r.id :=
      mem_anonymousMembers.2 ⟨h.accounts a hin hm, a, hin, rfl, hanonymous⟩
    rcases haccounts with hnone | ⟨hl, hok, _⟩
    · rw [hnone] at hlisted
      cases hlisted
    have hids : f₁.anonIDs = w.anonymousMembers r.id := by rw [hn.anonIDs, if_pos hl, hsess]
    have hne : w.anonymousMembers r.id ≠ [] := ne_nil_of_mem hlisted
    rw [heq] at ha
    simp only [World.run, World.exec, written, hok, hids, if_true] at ha
    have hgone : a ∈ (World.deleteAccounts (w₁.deleteSession f₁.sess.id) (w.anonymousMembers r.id)).accounts := by
      split at ha <;> exact ha
    have hkept := (mem_filter.1 hgone).2
    simp [hlisted] at hkept
  · rcases hrepo with hnot | ⟨hok, hd⟩
    · have hin : r.id ∈ w₁.repos := hfewer.repos hr
      rw [hn.repos] at hin
      exact hnot hin
    rw [heq] at hr
    simp only [World.run, World.exec, written, hok, if_neg hd, if_true, hn.of, hsess] at hr
    have hkept := (mem_filter.1 hr).2
    simp at hkept
  · have hin : r.id ∈ w₁.recorded := by
      rcases ht with hin | hd
      · exact hn.kept hin
      · rw [← hsess]
        exact hn.recorded hd
    exact hin

theorem pending_or_destroyed (h : Pending w₀ r w ∨ Destroyed w₀ r.id w)
    (hl : sess.id = r.id → LeavesNothing w r.id turn) :
    Pending w₀ r (w.destroy sess reason turn) ∨ Destroyed w₀ r.id (w.destroy sess reason turn) := by
  rcases h with hp | hdestroyed
  · by_cases hs : sess.id = r.id
    · by_cases hd : Deletes turn
      · exact .inr (hp.destroyed hs hd (hl hs))
      · exact .inl (hp.kept hd)
    · exact .inl (hp.of_spares (destroy_spares hs reason))
  · exact .inr (hdestroyed.of_fewer (destroy_fewer w sess reason turn))

/-- The condition on a tick: the run of `Destroy` for the session, if there is one, leaves nothing behind. -/
def CleanTick (sid : String) (w : World) (t : Tick) : Prop :=
  t.listed = true → (∃ s ∈ w.sessions, s.id = sid ∧ s.expired t.now = true) → LeavesNothing w sid (t.turn sid)

theorem sweep_pending_or_destroyed (h : Pending w₀ r w ∨ Destroyed w₀ r.id w) (hc : CleanTick r.id w t) :
    Pending w₀ r (w.sweep t) ∨ Destroyed w₀ r.id (w.sweep t) := by
  have hb : Fewer w (w.sweep t) ∧ (Pending w₀ r (w.sweep t) ∨ Destroyed w₀ r.id (w.sweep t)) := by
    refine sweep_keeps (P := fun w' => Fewer w w' ∧ (Pending w₀ r w' ∨ Destroyed w₀ r.id w')) ⟨.refl w, h⟩ ?_
    rintro w' ⟨hf, h⟩ sess hm he hl
    refine ⟨hf.trans (destroy_fewer w' sess _ _), pending_or_destroyed h fun hs => ?_⟩
    rw [hs]
    exact (hc hl ⟨sess, hm, hs, he⟩).of_fewer hf
  exact hb.2

structure Tick.FailureFree (t : Tick) : Prop where
  listed : t.listed = true
  answered : ∀ id stmt, (t.turn id stmt).answer = .ok
  free : ∀ id, (t.turn id .acquire).held = false

theorem Tick.FailureFree.deletes (h : t.FailureFree) (id : String) : Deletes (t.turn id) :=
  ⟨h.free id, h.answered id _, by rw [h.answered id]; decide⟩

theorem Tick.FailureFree.leavesNothing (h : t.FailureFree) (w : World) (id : String) : LeavesNothing w id (t.turn id) := by
  intro _
  simp [h.answered]

theorem sweep_destroys (hf : t.FailureFree) (h : Pending w₀ r w ∨ Destroyed w₀ r.id w)
    (he : r.expired t.now = true) : Destroyed w₀ r.id (w.sweep t) := by
  rcases h with hp | hd
  · have hl : r ∈ w.sessions.filter (·.expired t.now) := mem_filter.2 ⟨hp.row, he⟩
    obtain ⟨before, after, hs⟩ := append_of_mem hl
    have hb : Pending w₀ r (w.destroyAll t before) ∨ Destroyed w₀ r.id (w.destroyAll t before) := by
      refine destroyAll_keeps (P := fun w' => Pending w₀ r w' ∨ Destroyed w₀ r.id w') (.inl hp) fun w' h' _ _ => ?_
      refine pending_or_destroyed h' fun hsess => ?_
      rw [hsess]
      exact hf.leavesNothing w' r.id
    have hsweep : w.sweep t = ((w.destroyAll t before).destroy r (reasonFor r t.now) (t.turn r.id)).destroyAll t after := by
      rw [World.sweep, if_pos hf.listed, hs, World.destroyAll, foldl_append]
      rfl
    rw [hsweep]
    refine destroyAll_keeps ?_ fun w' h' sess _ => h'.of_fewer (destroy_fewer w' sess _ _)
    rcases hb with h' | h'
    · exact h'.destroyed rfl (hf.deletes r.id) (hf.leavesNothing _ r.id)
    · exact h'.of_fewer (destroy_fewer _ r _ _)
  · exact hd.of_fewer (sweep_fewer w t)

end

/-! ## The worker -/

theorem purge_fewer (w : World) (now : Int) : Fewer w (w.purgeTombstones now) :=
  ⟨List.Sublist.refl _, List.Subset.refl _, List.Subset.refl _, List.Subset.refl _, List.Subset.refl _⟩

theorem Pending.purge (h : Pending w₀ r w) (now : Int) : Pending w₀ r (w.purgeTombstones now) := ⟨h.row, h.accounts⟩

theorem step_keeps {s s' : Worker} (hs : s.step t = some s') (hsweep : P (s.world.sweep t))
    (hp : ∀ w now, P w → P (w.purgeTombstones now)) : P s'.world := by
  cases hs
  split
  · exact hp _ _ hsweep
  · exact hsweep

theorem pending_of_row (h : r ∈ w.sessions) : Pending w r w := ⟨h, fun _ _ hm => hm⟩

/-- **The sweeps converge**: whatever has failed before, as long as the run that deletes the row leaves nothing behind, the
first failure-free sweep that finds the session expired is the last one needed. -/
theorem sweeps_converge {s s₁ s₂ : Worker} {ts us : List Tick} {r : Session} (hrow : r ∈ s.world.sessions)
    (hactive : r.status = "active")
    (hclean : Along Worker.step (fun s t => CleanTick r.id s.world t) s ts)
    (hrun : exec Worker.step s ts = some s₁) (hfree : ∀ u ∈ us, u.FailureFree)
    (hexpired : ∃ u ∈ us, r.hardCapAt.any (· ≤ u.now) ∨ r.idleTimeoutAt.any (· ≤ u.now))
    (hrun' : exec Worker.step s₁ us = some s₂) : Destroyed s.world r.id s₂.world := by
  have hf : Pending s.world r s₁.world ∨ Destroyed s.world r.id s₁.world := by
    refine invariant (I := fun s' => Pending s.world r s'.world ∨ Destroyed s.world r.id s'.world) ?_
      (.inl (pending_of_row hrow)) hclean hrun
    intro _ _ t h hclean hs
    exact step_keeps hs (sweep_pending_or_destroyed h hclean)
      fun w now => Or.imp (fun h => h.purge now) (fun h => h.of_fewer (purge_fewer w now))
  refine reaches (I := fun s' : Worker => Pending s.world r s'.world ∨ Destroyed s.world r.id s'.world)
    (J := fun s' => Destroyed s.world r.id s'.world) ?_ ?_ ?_ hf hfree hexpired hrun'
  · intro s' u _ hfree h hs
    exact step_keeps hs (sweep_pending_or_destroyed h fun _ _ => hfree.leavesNothing s'.world r.id)
      fun w now => Or.imp (fun h => h.purge now) (fun h => h.of_fewer (purge_fewer w now))
  · intro _ u _ hfree hexpired h hs
    refine step_keeps hs (sweep_destroys hfree h ?_) fun w now h => h.of_fewer (purge_fewer w now)
    simpa [Session.expired, hactive] using hexpired
  · intro s' u _ h hs
    exact step_keeps hs (h.of_fewer (sweep_fewer s'.world u)) fun w now h => h.of_fewer (purge_fewer w now)

/-! ## What is left behind -/

structure Orphan (a : Account) (w : World) : Prop where
  row : a ∈ w.accounts
  alone : ∀ m ∈ w.members, m.accountID ≠ a.id

section
variable {w : World} {a : Account} {sid : String}

theorem Orphan.not_listed (h : Orphan a w) (id : String) : a.id ∉ w.anonymousMembers id := fun hid =>
  h.alone _ (mem_anonymousMembers.1 hid).1 rfl

theorem Orphan.exec (h : Orphan a w) (hf : a.id ∉ f.anonIDs) (turn : Turn) (stmt : Stmt) :
    Orphan a (w.exec f turn stmt).1 ∧ ∀ f', (w.exec f turn stmt).2 = some f' → a.id ∉ f'.anonIDs := by
  have hmembers : ∀ m ∈ (w.exec f turn stmt).1.members, m.accountID ≠ a.id :=
    fun m hm => h.alone m ((exec_fewer w f turn stmt).members hm)
  cases stmt with
  | acquire =>
    refine ⟨h, fun _ hf' => ?_⟩
    simp only [World.exec] at hf'
    split at hf'
    · cases hf'
    · cases hf'
      exact hf
  | countMembers | countCommits | countAutoMerges =>
    refine ⟨h, fun _ hf' => ?_⟩
    cases hf'
    exact hf
  | listAnonymous =>
    refine ⟨h, fun _ hf' => ?_⟩
    cases hf'
    split
    · exact h.not_listed _
    · exact not_mem_nil
  | recordTombstone | revokeBearers | removeRepo =>
    refine ⟨⟨written_keeps (P := fun w' => a ∈ w'.accounts) h.row h.row, hmembers⟩, fun _ hf' => ?_⟩
    cases hf'
    exact hf
  | deleteSession =>
    refine ⟨⟨written_keeps (P := fun w' => a ∈ w'.accounts) h.row h.row, hmembers⟩, fun _ hf' => ?_⟩
    simp only [World.exec] at hf'
    split at hf'
    · cases hf'
      exact hf
    · cases hf'
  | deleteAccounts =>
    refine ⟨⟨?_, hmembers⟩, fun _ hf' => ?_⟩
    · simp only [World.exec]
      split
      · exact h.row
      · exact written_keeps (P := fun w' => a ∈ w'.accounts) h.row (mem_filter.2 ⟨h.row, by simpa using hf⟩)
    · cases hf'
      exact hf

theorem Orphan.run (h : Orphan a w) (hf : a.id ∉ f.anonIDs) (turn : Stmt → Turn) (stmts : List Stmt) :
    Orphan a (w.run turn f stmts) := by
  induction stmts generalizing w f with
  | nil => exact h
  | cons stmt _ ih =>
    obtain ⟨he, hn⟩ := h.exec hf (turn stmt) stmt
    rw [World.run]
    split
    · exact he
    · rename_i f' hf'
      exact ih he (hn f' hf')

theorem Orphan.sweep (h : Orphan a w) (t : Tick) : Orphan a (w.sweep t) :=
  sweep_keeps h fun _ h' _ _ _ _ => h'.run not_mem_nil _ _

end

/-- **Once the row is gone**, whatever the sweeps meet: the repository stays, no tombstone is recorded any more, and neither
does an account without a membership go. -/
theorem skipped_for_good {s s' : Worker} {ts : List Tick} (hg : ∀ r ∈ s.world.sessions, r.id ≠ sid)
    (hrun : exec Worker.step s ts = some s') :
    Spares sid s.world s'.world ∧ ∀ a, Orphan a s.world → Orphan a s'.world := by
  refine always (I := fun s' => Spares sid s.world s'.world ∧ ∀ a, Orphan a s.world → Orphan a s'.world) ?_
    ⟨.refl sid s.world, fun _ h => h⟩ hrun
  rintro s₁ t _ ⟨hs, ho⟩ hstep
  have hn : ∀ r ∈ s₁.world.sessions, r.id = sid → r.expired t.now = false :=
    fun r hr hid => absurd hid (hg r (hs.sessions.subset hr))
  refine ⟨step_keeps hstep (hs.trans (sweep_spares hn)) fun w now h => h.trans ?_,
    fun a ha => step_keeps hstep ((ho a ha).sweep t) fun w _ h => ⟨h.row, h.alone⟩⟩
  exact ⟨purge_fewer w now, fun _ h _ => h, fun _ h _ _ => h, fun h => h, fun h => h⟩

/-- **Sweeps spare a live session**, whatever fails: one that no tick finds expired keeps its row, its repository and the
memberships of the accounts that stay, and gets no tombstone. -/
theorem live_spared {s s' : Worker} {ts : List Tick}
    (hlive : ∀ t ∈ ts, ∀ r ∈ s.world.sessions, r.id = sid → r.expired t.now = false)
    (hrun : exec Worker.step s ts = some s') : Spares sid s.world s'.world := by
  refine invariant (I := fun s' => Spares sid s.world s'.world) ?_ (.refl sid s.world) (along_forall hlive) hrun
  intro s₁ t s₂ hs hn hstep
  exact step_keeps hstep (hs.trans (sweep_spares fun r hr => hn r (hs.sessions.subset hr))) fun w now h =>
    h.trans ⟨purge_fewer w now, fun _ h _ => h, fun _ h _ _ => h, fun h => h, fun h => h⟩

/-! ## One session -/

def expiredSession : Session := ⟨"demo", "active", 0, some 50, some 20⟩

def oneSession : Worker where
  world := ⟨[expiredSession], [⟨"demo", "anon_1"⟩], [⟨"anon_1", true⟩], [], [⟨"anon_1", "demo", none⟩], [], ["demo"], []⟩
  tick := 0

def tickWith (now : Int) (down : List Stmt) : Tick where
  now := now
  listed := true
  turn := fun _ stmt => ⟨if stmt ∈ down then .failed else .ok, false, now⟩
  purged := true

theorem tickWith_failureFree (now : Int) : (tickWith now []).FailureFree := ⟨rfl, fun _ _ => rfl, fun _ => rfl⟩

def twoSessions : Worker where
  world := ⟨[expiredSession, ⟨"live", "active", 0, some 500, some 300⟩], [⟨"demo", "anon_1"⟩, ⟨"live", "anon_2"⟩],
    [⟨"anon_1", true⟩, ⟨"anon_2", true⟩], [], [], [], ["demo", "live"], []⟩
  tick := 0

/-- The other session goes, but for its repository. -/
theorem live_spared_beside : ∃ s, exec Worker.step twoSessions [tickWith 60 [.removeRepo], tickWith 120 []] = some s ∧
    s.world.members = [⟨"live", "anon_2"⟩] ∧ s.world.repos = ["demo", "live"] ∧ Spares "live" twoSessions.world s.world := by
  have hlive : ∀ t ∈ [tickWith 60 [.removeRepo], tickWith 120 []], ∀ r ∈ twoSessions.world.sessions, r.id = "live" →
      r.expired t.now = false := by decide
  exact ⟨_, rfl, by decide, by decide, live_spared hlive rfl⟩

theorem sweeps_converge_retried :
    ∃ s₁ s₂, exec Worker.step oneSession [tickWith 60 [.listAnonymous, .recordTombstone, .deleteSession]] = some s₁ ∧
      exec Worker.step s₁ [tickWith 120 []] = some s₂ ∧ Destroyed oneSession.world "demo" s₂.world := by
  have hc : Along Worker.step (fun s t => CleanTick expiredSession.id s.world t) oneSession
      [tickWith 60 [.listAnonymous, .recordTombstone, .deleteSession]] :=
    ⟨fun _ _ hd => absurd rfl hd.2.2, fun _ _ => trivial⟩
  have hf : ∀ u ∈ [tickWith 120 []], u.FailureFree := fun u hu => by
    cases mem_singleton.1 hu
    exact tickWith_failureFree 120
  exact ⟨_, _, rfl, rfl, sweeps_converge (mem_singleton_self _) rfl hc rfl hf ⟨_, mem_singleton_self _, .inl rfl⟩ rfl⟩

/-- **The row is deleted and the rest fails**: whatever comes later, the account and the repository stay, and there never is a
tombstone. -/
theorem sweeps_leave_rest :
    ∃ s₁, exec Worker.step oneSession [tickWith 60 [.listAnonymous, .recordTombstone, .removeRepo]] = some s₁ ∧
      ∀ us s₂, exec Worker.step s₁ us = some s₂ →
        ⟨"anon_1", true⟩ ∈ s₂.world.accounts ∧ "demo" ∈ s₂.world.repos ∧ "demo" ∉ s₂.world.recorded := by
  refine ⟨_, rfl, fun _ _ hrun => ?_⟩
  obtain ⟨hs, ho⟩ := skipped_for_good (fun r hr _ => by cases hr) hrun
  have horphan := ho ⟨"anon_1", true⟩ ⟨by decide, by decide⟩
  exact ⟨horphan.row, hs.repo (by decide), fun h => absurd (hs.unrecorded h) (by decide)⟩

end Jamsesh.Playground
