import Mathlib.Logic.Relation
import Jamsesh.Text
import Jamsesh.Machine
/-!
# Cluster — a session's repository on the pods of a cluster (`objectstore`, `githttp`, `automerger`)

Every pod may have a copy of a session's repository, and object storage has what the last push saved.  A git request enters the
session on its pod (lease, then hydration); a push moves the refs of the copy, sends its commits to the auto-merger of the
process, and syncs the copy before it is answered.  Everything else only opens the copy that is there.  Two counters are not in
the source: `version` counts the changes of a pod's copy, `gen` the copies it has had; `saved` is the version that object
storage has.
-/
namespace Jamsesh.Cluster

section
variable {C : Type}

/-- **A commit is reached from another one in a repository**: through parents, every one of which it has. -/
def ReachesIn (parents : C → List C) (commits : List C) (a b : C) : Prop :=
  Relation.ReflTransGen (fun x y => x ∈ commits ∧ y ∈ parents x) a b ∧ b ∈ commits

/-- The search behind `IsAncestor`, for paths of fewer than `n` steps. -/
def reach [DecidableEq C] (parents : C → List C) (commits : List C) : Nat → C → C → Bool
  | 0, _, _ => false
  | n + 1, a, b => decide (a ∈ commits) && (decide (a = b) || (parents a).any (fun x => reach parents commits n x b))

variable {parents : C → List C} {commits commits' : List C} {a b x : C}

theorem ReachesIn.refl (ha : a ∈ commits) : ReachesIn parents commits a a := ⟨.refl, ha⟩

theorem ReachesIn.mono (h : commits ⊆ commits') (hab : ReachesIn parents commits a b) : ReachesIn parents commits' a b :=
  ⟨Relation.ReflTransGen.mono (fun _ _ hxy => ⟨h hxy.1, hxy.2⟩) _ _ hab.1, h hab.2⟩

theorem ReachesIn.trans (hab : ReachesIn parents commits a b) (hbx : ReachesIn parents commits b x) :
    ReachesIn parents commits a x :=
  ⟨hab.1.trans hbx.1, hbx.2⟩

theorem ReachesIn.of_parent (ha : a ∈ commits) (hx : x ∈ parents a) (hxb : ReachesIn parents commits x b) :
    ReachesIn parents commits a b :=
  ⟨.head ⟨ha, hx⟩ hxb.1, hxb.2⟩

theorem reachesIn_of_reach [DecidableEq C] {n : Nat} (h : reach parents commits n a b = true) :
    ReachesIn parents commits a b := by
  induction n generalizing a with
  | zero => cases h
  | succ n ih =>
    simp only [reach, Bool.and_eq_true, Bool.or_eq_true, decide_eq_true_eq, List.any_eq_true] at h
    obtain ⟨ha, rfl | ⟨x, hx, hxb⟩⟩ := h
    · exact .refl ha
    · exact .of_parent ha hx (ih hxb)

end

/-! ## Copies and pods -/

/-- The refs of a session: the base, the draft, and those in the namespaces of its members. -/
inductive Ref where
  | base
  | draft
  | user (name : Text)
deriving DecidableEq

structure Tip (C : Type) where
  commit : C
  moved : Nat
deriving DecidableEq

abbrev Refs (C : Type) := List (Ref × Tip C)

structure Copy (C : Type) where
  refs : Refs C
  commits : List C
deriving DecidableEq

structure Manifest (C : Type) where
  refs : Refs C
  fencingToken : Nat
  etag : Nat
deriving DecidableEq

/-- An entry of the lifecycle manager: in use, claimed by a release, and the release after its lease is gone and after its
copy is. -/
inductive Phase where
  | live | claimed | unleased | removed
deriving DecidableEq

structure Entry where
  token : Nat
  phase : Phase
deriving DecidableEq

/-- A pod: its copy, the leases under which it is hydrating, its entry for the session, and the commits that its auto-merger
has still to merge. -/
structure Pod (C : Type) where
  copy : Option (Copy C)
  acquiring : List Nat
  entry : Option Entry
  queue : List C
  version : Nat
  gen : Nat
  saved : Option Nat

/-- A push that has moved refs: the pod, what it moved, and the copy in which it did. -/
structure Push (C : Type) where
  pod : Nat
  updates : List (Ref × C)
  gen : Nat

structure Upload (C : Type) where
  push : Push C
  token : Nat
  etag : Option Nat
  version : Nat

structure Sync (C : Type) where
  up : Upload C
  refs : Refs C
  version : Nat
  gen : Nat

inductive Job (C : Type) where
  | idle
  | admitted (pod : Nat)
  | received (push : Push C)
  | emitted (push : Push C)
  | handled (push : Push C) (token : Nat)
  | loaded (push : Push C) (token : Nat) (etag : Option Nat)
  | uploaded (up : Upload C)
  | read (y : Sync C)
  | checked (y : Sync C)
  | acked (push : Push C)
  | failed

def Job.saving {C : Type} : Job C → Option (Sync C)
  | .checked y => some y
  | _ => none

/-- The session in the cluster: who has the lease and under which token, the pods, object storage, the push requests, and
the `draft_sha`s of the `merge.succeeded` events. -/
structure State (C : Type) where
  lease : Option (Nat × Nat)
  next : Nat
  pods : Nat → Pod C
  manifest : Option (Manifest C)
  etags : Nat
  stored : List C
  jobs : Nat → Job C
  announced : List C
  clock : Nat

inductive Act (C : Type) where
  | create (p : Nat)
  | lease (p : Nat)
  | hydrate (p token : Nat) (ok : Bool)
  | claim (p : Nat)
  | unclaim (p : Nat)
  /-- the release lets go of the lease, with the syncs that are still under way after ten seconds -/
  | unlease (p : Nat)
  | remove (p : Nat) (ok : Bool)
  | forget (p : Nat)
  | lost
  | request (j p : Nat)
  | receive (j : Nat) (updates : List (Ref × C)) (added : List C)
  | emit (j : Nat) (arrived : List C)
  | handle (j : Nat)
  | load (j : Nat)
  | upload (j : Nat)
  | readRefs (j : Nat)
  | check (j : Nat)
  /-- the manifest is written or not, and the caller is told that it is or not -/
  | put (j : Nat) (saved told : Bool)
  | fail (j : Nat)
  | merge (p : Nat) (source merged : C) (told : Bool)
  | skip (p : Nat) (source : C)
  | fork (p : Nat) (name : Text) (target : C)
  /-- a request that reads the refs: list refs, a file, a finalize plan, the session state -/
  | read (p : Nat)
  | upToDate (p : Nat) (ref : Ref) (new : C)

variable {C : Type}

def Copy.advance (c : Copy C) (moves : List (Ref × C)) (added : List C) (now : Nat) : Copy C :=
  ⟨moves.map (fun u => (u.1, ⟨u.2, now⟩)) ++ c.refs, c.commits ++ added⟩

def Pod.advance (P : Pod C) (c : Copy C) (moves : List (Ref × C)) (added : List C) (now : Nat) : Pod C :=
  { P with copy := some (c.advance moves added now), version := P.version + 1 }

def Pod.replace (P : Pod C) (copy : Option (Copy C)) (saved : Bool) : Pod C :=
  { P with copy, version := P.version + 1, gen := P.gen + 1, saved := if saved then some (P.version + 1) else none }

@[simps lease next manifest stored jobs announced clock]
def State.setPod (s : State C) (p : Nat) (P : Pod C) : State C := { s with pods := Function.update s.pods p P }

@[simps lease next pods manifest stored announced clock]
def State.setJob (s : State C) (j : Nat) (q : Job C) : State C := { s with jobs := Function.update s.jobs j q }

def State.release (s : State C) (p token : Nat) : State C := if s.lease = some (p, token) then { s with lease := none } else s

def State.savedRefs (s : State C) : Refs C := s.manifest.elim [] (·.refs)

/-- `Hydrate` writes the refs of the manifest over those of a copy that is there, and leaves the others. -/
def State.hydrated (s : State C) (old : Option (Copy C)) : Copy C :=
  match s.manifest with
  | none => old.getD ⟨[], []⟩
  | some m => ⟨m.refs ++ (old.getD ⟨[], []⟩).refs, s.stored ++ (old.getD ⟨[], []⟩).commits⟩

def seed (c : Copy C) (updates : List (Ref × C)) : List (Ref × C) :=
  match updates.lookup .base with
  | some new => if c.refs.lookup .base = none ∧ c.refs.lookup .draft = none then [(.draft, new)] else []
  | none => []

section
variable [DecidableEq C]

/-- **What the validation and git let through**: no ref twice, not the draft, the base only into an empty repository, and no
ref away from its history. -/
def Accepts (parents : C → List C) (c : Copy C) (updates : List (Ref × C)) (added : List C) : Prop :=
  (updates.map Prod.fst).Nodup ∧ ∀ u ∈ updates, u.1 ≠ .draft ∧ u.2 ∈ c.commits ++ added ∧ (u.1 = .base → c.refs = []) ∧
    ∀ old ∈ c.refs.lookup u.1, reach parents (c.commits ++ added) (c.commits ++ added).length u.2 old.commit = true

instance (parents : C → List C) (c : Copy C) (updates : List (Ref × C)) (added : List C) :
    Decidable (Accepts parents c updates added) :=
  inferInstanceAs (Decidable (_ ∧ ∀ u ∈ updates, _))

def Arrived (parents : C → List C) (c : Copy C) (push : Push C) (arrived : List C) : Prop :=
  ∀ x ∈ arrived, ∃ u ∈ push.updates, reach parents c.commits c.commits.length u.2 x = true

instance (parents : C → List C) (c : Copy C) (push : Push C) (arrived : List C) : Decidable (Arrived parents c push arrived) :=
  inferInstanceAs (Decidable (∀ x ∈ arrived, _))

def State.step (parents : C → List C) (s : State C) : Act C → Option (State C)
  | .create p =>
    match (s.pods p).copy with
    | some _ => none
    | none => some (s.setPod p ((s.pods p).replace (some ⟨[], []⟩) false))
  | .lease p =>
    match s.lease with
    | some _ => none
    | none =>
      some ({ s with lease := some (p, s.next), next := s.next + 1 }.setPod p
        { s.pods p with acquiring := s.next :: (s.pods p).acquiring })
  | .hydrate p token ok =>
    if token ∈ (s.pods p).acquiring then
      let P := { s.pods p with acquiring := (s.pods p).acquiring.filter (· ≠ token) }
      if ok then
        let P' := P.replace (some (s.hydrated P.copy)) P.copy.isNone
        match P.entry with
        | none => some (s.setPod p { P' with entry := some ⟨token, .live⟩ })
        -- another request of the pod was first: its entry counts, and this lease is let go
        | some _ => some ((s.setPod p P').release p token)
      else some ((s.setPod p P).release p token)
    else none
  | .claim p =>
    match (s.pods p).entry with
    | some ⟨token, .live⟩ => some (s.setPod p { s.pods p with entry := some ⟨token, .claimed⟩ })
    | _ => none
  | .unclaim p =>
    match (s.pods p).entry with
    | some ⟨token, .claimed⟩ => some (s.setPod p { s.pods p with entry := some ⟨token, .live⟩ })
    | _ => none
  | .unlease p =>
    match (s.pods p).entry with
    | some ⟨token, .claimed⟩ =>
      some ((s.setPod p { s.pods p with entry := some ⟨token, .unleased⟩ }).release p token)
    | _ => none
  | .remove p ok =>
    match (s.pods p).entry with
    | some ⟨token, .unleased⟩ =>
      some (s.setPod p { (s.pods p).replace (if ok then none else (s.pods p).copy) false with entry := some ⟨token, .removed⟩ })
    | _ => none
  | .forget p =>
    match (s.pods p).entry with
    | some ⟨_, .removed⟩ => some (s.setPod p { s.pods p with entry := none })
    | _ => none
  | .lost => s.lease.map (fun _ => { s with lease := none })
  | .request j p =>
    match s.jobs j, (s.pods p).entry with
    | .idle, some ⟨_, .live⟩ => some (s.setJob j (.admitted p))
    | _, _ => none
  | .receive j updates added =>
    match s.jobs j with
    | .admitted p =>
      match (s.pods p).copy with
      | some c =>
        if Accepts parents c updates added then
          some (({ s with clock := s.clock + 1 }.setPod p
            ((s.pods p).advance c (seed c updates ++ updates) added s.clock)).setJob j (.received ⟨p, updates, (s.pods p).gen⟩))
        else none
      | none => none
    | _ => none
  | .emit j arrived =>
    match s.jobs j with
    | .received push =>
      match (s.pods push.pod).copy with
      | some c =>
        if Arrived parents c push arrived then
          some ((s.setPod push.pod { s.pods push.pod with queue := (s.pods push.pod).queue ++ arrived }).setJob j
            (.emitted push))
        else none
      | none => none
    | _ => none
  | .handle j =>
    match s.jobs j with
    | .emitted push =>
      match (s.pods push.pod).entry with
      | some ⟨token, .live⟩ => some (s.setJob j (.handled push token))
      | _ => none
    | _ => none
  | .load j =>
    match s.jobs j with
    | .handled push token => some (s.setJob j (.loaded push token (s.manifest.map (·.etag))))
    | _ => none
  | .upload j =>
    match s.jobs j with
    | .loaded push token etag =>
      match (s.pods push.pod).copy with
      | some c =>
        some ({ s with stored := s.stored ++ c.commits }.setJob j (.uploaded ⟨push, token, etag, (s.pods push.pod).version⟩))
      | none => none
    | _ => none
  | .readRefs j =>
    match s.jobs j with
    | .uploaded up =>
      match (s.pods up.push.pod).copy with
      | some c => some (s.setJob j (.read ⟨up, c.refs, (s.pods up.push.pod).version, (s.pods up.push.pod).gen⟩))
      | none => none
    | _ => none
  | .check j =>
    match s.jobs j with
    | .read y =>
      match s.manifest with
      | some m => some (s.setJob j (if y.up.token < m.fencingToken ∨ y.up.etag = none then .failed else .checked y))
      | none => some (s.setJob j (.checked y))
    | _ => none
  | .put j saved told =>
    match s.jobs j with
    | .checked y =>
      if saved ∧ (y.up.etag = none ∨ s.manifest.map (·.etag) = y.up.etag) then
        some (({ s with manifest := some ⟨y.refs, y.up.token, s.etags⟩, etags := s.etags + 1 }.setPod y.up.push.pod
          { s.pods y.up.push.pod with saved := if y.up.version = y.version then some y.version else none }).setJob j
            (if told then .acked y.up.push else .failed))
      else some (s.setJob j .failed)
    | _ => none
  | .fail j =>
    match s.jobs j with
    | .idle | .acked _ => none
    | _ => some (s.setJob j .failed)
  | .merge p source merged told =>
    match (s.pods p).copy with
    | some c =>
      match c.refs.lookup .draft with
      | some tip =>
        if source ∈ (s.pods p).queue ∧ source ∈ c.commits ∧ parents merged = [tip.commit, source] then
          some ({ s with clock := s.clock + 1, announced := if told then merged :: s.announced else s.announced }.setPod p
            { (s.pods p).advance c [(.draft, merged)] [merged] s.clock with queue := (s.pods p).queue.erase source })
        else none
      | none => none
    | none => none
  | .skip p source => some (s.setPod p { s.pods p with queue := (s.pods p).queue.erase source })
  | .fork p name target =>
    match (s.pods p).copy with
    | some c =>
      if target ∈ c.commits then
        some ({ s with clock := s.clock + 1 }.setPod p ((s.pods p).advance c [(.user name, target)] [] s.clock))
      else none
    | none => none
  | .read _ => some s
  | .upToDate p ref new =>
    match (s.pods p).entry, (s.pods p).copy with
    | some ⟨_, .live⟩, some c => if (c.refs.lookup ref).map (·.commit) = some new then some s else none
    | _, _ => none

end

def start (C : Type) : State C :=
  ⟨none, 1, fun _ => ⟨none, [], none, [], 0, 0, none⟩, none, 0, [], fun _ => .idle, [], 0⟩

/-! ## Who has the session, and what is saved -/

/-- **A pod has the session**: its entry, which no release has taken the lease from, is under the lease that is held. -/
def State.Holds (s : State C) (p : Nat) : Prop :=
  ∃ e ∈ (s.pods p).entry, (e.phase = .live ∨ e.phase = .claimed) ∧ s.lease = some (p, e.token)

/-- **The copy of a pod is in object storage**: nothing has changed in it since a save that uploaded and read it at once, or
since it was hydrated where there was none. -/
def State.Clean (s : State C) (p : Nat) : Prop := (s.pods p).saved = some (s.pods p).version

instance (s : State C) (p : Nat) : Decidable (s.Holds p) := inferInstanceAs (Decidable (∃ e ∈ (s.pods p).entry, _))

instance (s : State C) (p : Nat) : Decidable (s.Clean p) := inferInstanceAs (Decidable (_ = _))

def State.Current (s : State C) (y : Sync C) : Prop := s.Holds y.up.push.pod ∧ y.gen = (s.pods y.up.push.pod).gen

instance (s : State C) (y : Sync C) : Decidable (s.Current y) := inferInstanceAs (Decidable (_ ∧ _))

/-- **Orderly hand-offs**: a hydration ends under its own lease, and a manifest is written only from the copy that the pod
with the session has. -/
def State.Orderly (s : State C) : Act C → Prop
  | .hydrate p token ok => ok = true → s.lease = some (p, token)
  | .put j saved _ => saved = true → ∀ y ∈ (s.jobs j).saving, s.Current y
  | _ => True

instance (s : State C) : ∀ a, Decidable (s.Orderly a)
  | .hydrate p token ok => inferInstanceAs (Decidable (ok = true → s.lease = some (p, token)))
  | .put j saved _ => inferInstanceAs (Decidable (saved = true → ∀ y ∈ (s.jobs j).saving, s.Current y))
  | .create _ | .lease _ | .claim _ | .unclaim _ | .unlease _ | .remove _ _ | .forget _ | .lost | .request _ _ | .receive _ _ _
  | .emit _ _ | .handle _ | .load _ | .upload _ | .readRefs _ | .check _ | .fail _ | .merge _ _ _ _ | .skip _ _ | .fork _ _ _
  | .read _ | .upToDate _ _ _ => isTrue trivial

/-! ## What a step does -/

variable {s : State C} {p q j : Nat}

@[simp] theorem setPod_pods (P : Pod C) : (s.setPod p P).pods q = if q = p then P else s.pods q := by
  simp [State.setPod, Function.update_apply]

@[simp] theorem setJob_jobs (x : Job C) (i : Nat) : (s.setJob j x).jobs i = if i = j then x else s.jobs i := by
  simp [State.setJob, Function.update_apply]

@[simp] theorem release_lease (token : Nat) :
    (s.release p token).lease = if s.lease = some (p, token) then none else s.lease := by
  unfold State.release
  split <;> rfl

@[simp] theorem release_next (token : Nat) : (s.release p token).next = s.next := by unfold State.release; split <;> rfl
@[simp] theorem release_pods (token : Nat) : (s.release p token).pods = s.pods := by unfold State.release; split <;> rfl
@[simp] theorem release_manifest (token : Nat) : (s.release p token).manifest = s.manifest := by
  unfold State.release; split <;> rfl
@[simp] theorem release_stored (token : Nat) : (s.release p token).stored = s.stored := by unfold State.release; split <;> rfl
@[simp] theorem release_jobs (token : Nat) : (s.release p token).jobs = s.jobs := by unfold State.release; split <;> rfl
@[simp] theorem release_announced (token : Nat) : (s.release p token).announced = s.announced := by
  unfold State.release; split <;> rfl
@[simp] theorem release_clock (token : Nat) : (s.release p token).clock = s.clock := by unfold State.release; split <;> rfl

inductive Next (s : State C) : Job C → Job C → Prop where
  | admitted (p : Nat) : Next s .idle (.admitted p)
  | handled (push : Push C) (token : Nat) : Next s (.emitted push) (.handled push token)
  | loaded (push : Push C) (token : Nat) : Next s (.handled push token) (.loaded push token (s.manifest.map (·.etag)))
  | read (up : Upload C) (c : Copy C) (hc : (s.pods up.push.pod).copy = some c) :
      Next s (.uploaded up) (.read ⟨up, c.refs, (s.pods up.push.pod).version, (s.pods up.push.pod).gen⟩)
  | checked (y : Sync C) : Next s (.read y) (.checked y)
  | failed (x : Job C) : Next s x .failed

variable [DecidableEq C]

inductive Did (parents : C → List C) (s : State C) : Act C → State C → Prop where
  | create (p : Nat) : (s.pods p).copy = none → Did parents s (.create p) (s.setPod p ((s.pods p).replace (some ⟨[], []⟩) false))
  | lease (p : Nat) : s.lease = none →
      Did parents s (.lease p) ({ s with lease := some (p, s.next), next := s.next + 1 }.setPod p
        { s.pods p with acquiring := s.next :: (s.pods p).acquiring })
  | enter (p token : Nat) : token ∈ (s.pods p).acquiring → (s.pods p).entry = none →
      Did parents s (.hydrate p token true) (s.setPod p
        { (s.pods p).replace (some (s.hydrated (s.pods p).copy)) (s.pods p).copy.isNone with
          acquiring := (s.pods p).acquiring.filter (· ≠ token), entry := some ⟨token, .live⟩ })
  | late (p token : Nat) (e : Entry) : token ∈ (s.pods p).acquiring → (s.pods p).entry = some e →
      Did parents s (.hydrate p token true) ((s.setPod p
        { (s.pods p).replace (some (s.hydrated (s.pods p).copy)) (s.pods p).copy.isNone with
          acquiring := (s.pods p).acquiring.filter (· ≠ token) }).release p token)
  | unhydrated (p token : Nat) : token ∈ (s.pods p).acquiring →
      Did parents s (.hydrate p token false) ((s.setPod p
        { s.pods p with acquiring := (s.pods p).acquiring.filter (· ≠ token) }).release p token)
  | claim (p token : Nat) : (s.pods p).entry = some ⟨token, .live⟩ →
      Did parents s (.claim p) (s.setPod p { s.pods p with entry := some ⟨token, .claimed⟩ })
  | unclaim (p token : Nat) : (s.pods p).entry = some ⟨token, .claimed⟩ →
      Did parents s (.unclaim p) (s.setPod p { s.pods p with entry := some ⟨token, .live⟩ })
  | unlease (p token : Nat) : (s.pods p).entry = some ⟨token, .claimed⟩ →
      Did parents s (.unlease p) ((s.setPod p { s.pods p with entry := some ⟨token, .unleased⟩ }).release p token)
  | remove (p token : Nat) (ok : Bool) : (s.pods p).entry = some ⟨token, .unleased⟩ →
      Did parents s (.remove p ok) (s.setPod p
        { (s.pods p).replace (if ok then none else (s.pods p).copy) false with entry := some ⟨token, .removed⟩ })
  | forget (p token : Nat) : (s.pods p).entry = some ⟨token, .removed⟩ →
      Did parents s (.forget p) (s.setPod p { s.pods p with entry := none })
  | lost (l : Nat × Nat) : s.lease = some l → Did parents s .lost { s with lease := none }
  | job (a : Act C) (j : Nat) (x : Job C) : Next s (s.jobs j) x → Did parents s a (s.setJob j x)
  | receive (j p : Nat) (c : Copy C) (updates : List (Ref × C)) (added : List C) : s.jobs j = .admitted p →
      (s.pods p).copy = some c → Accepts parents c updates added →
      Did parents s (.receive j updates added) (({ s with clock := s.clock + 1 }.setPod p
        ((s.pods p).advance c (seed c updates ++ updates) added s.clock)).setJob j (.received ⟨p, updates, (s.pods p).gen⟩))
  | emit (j : Nat) (push : Push C) (arrived : List C) : s.jobs j = .received push →
      Did parents s (.emit j arrived) ((s.setPod push.pod
        { s.pods push.pod with queue := (s.pods push.pod).queue ++ arrived }).setJob j (.emitted push))
  | upload (j : Nat) (push : Push C) (token : Nat) (etag : Option Nat) (c : Copy C) : s.jobs j = .loaded push token etag →
      (s.pods push.pod).copy = some c →
      Did parents s (.upload j) ({ s with stored := s.stored ++ c.commits }.setJob j
        (.uploaded ⟨push, token, etag, (s.pods push.pod).version⟩))
  | put (j : Nat) (y : Sync C) (told : Bool) : s.jobs j = .checked y →
      Did parents s (.put j true told) (({ s with
        manifest := some ⟨y.refs, y.up.token, s.etags⟩, etags := s.etags + 1 }.setPod y.up.push.pod
          { s.pods y.up.push.pod with saved := if y.up.version = y.version then some y.version else none }).setJob j
            (if told then .acked y.up.push else .failed))
  | merge (p : Nat) (c : Copy C) (tip : Tip C) (source merged : C) (told : Bool) : (s.pods p).copy = some c →
      c.refs.lookup .draft = some tip → source ∈ c.commits → parents merged = [tip.commit, source] →
      Did parents s (.merge p source merged told) ({ s with
        clock := s.clock + 1, announced := if told then merged :: s.announced else s.announced }.setPod p
          { (s.pods p).advance c [(.draft, merged)] [merged] s.clock with queue := (s.pods p).queue.erase source })
  | skip (p : Nat) (source : C) :
      Did parents s (.skip p source) (s.setPod p { s.pods p with queue := (s.pods p).queue.erase source })
  | fork (p : Nat) (c : Copy C) (name : Text) (target : C) : (s.pods p).copy = some c → target ∈ c.commits →
      Did parents s (.fork p name target) ({ s with clock := s.clock + 1 }.setPod p
        ((s.pods p).advance c [(.user name, target)] [] s.clock))
  | stay (a : Act C) : Did parents s a s

theorem did_of_step {parents : C → List C} {s' : State C} {a : Act C} (h : s.step parents a = some s') : Did parents s a s' := by
  cases a with simp only [State.step] at h
  | create p =>
    split at h <;> cases h
    exact .create p ‹_›
  | lease p =>
    split at h <;> cases h
    exact .lease p ‹_›
  | hydrate p token ok =>
    split at h
    · rename_i ht
      cases ok with
      | true =>
        simp only [if_true] at h
        split at h <;> cases h
        · exact .enter p token ht ‹_›
        · exact .late p token _ ht ‹_›
      | false =>
        cases h
        exact .unhydrated p token ht
    · cases h
  | claim p =>
    split at h <;> cases h
    exact .claim p _ ‹_›
  | unclaim p =>
    split at h <;> cases h
    exact .unclaim p _ ‹_›
  | unlease p =>
    split at h <;> cases h
    exact .unlease p _ ‹_›
  | remove p ok =>
    split at h <;> cases h
    exact .remove p _ ok ‹_›
  | forget p =>
    split at h <;> cases h
    exact .forget p _ ‹_›
  | lost =>
    obtain ⟨l, hl, rfl⟩ := Option.map_eq_some_iff.1 h
    exact .lost l hl
  | request j p =>
    split at h <;> cases h
    rename_i hj _
    exact .job _ j _ (hj ▸ .admitted p)
  | receive j updates added =>
    repeat' split at h
    all_goals cases h
    exact .receive j _ _ updates added ‹_› ‹_› ‹_›
  | emit j arrived =>
    repeat' split at h
    all_goals cases h
    exact .emit j _ arrived ‹_›
  | handle j =>
    split at h
    · rename_i hj
      split at h <;> cases h
      exact .job _ j _ (hj ▸ .handled _ _)
    · cases h
  | load j =>
    split at h <;> cases h
    rename_i hj
    exact .job _ j _ (hj ▸ .loaded _ _)
  | upload j =>
    repeat' split at h
    all_goals cases h
    exact .upload j _ _ _ _ ‹_› ‹_›
  | readRefs j =>
    split at h
    · rename_i hj
      split at h <;> cases h
      exact .job _ j _ (hj ▸ .read _ _ ‹_›)
    · cases h
  | check j =>
    split at h
    · rename_i hj
      split at h
      · cases h
        split
        · exact .job _ j _ (.failed _)
        · exact .job _ j _ (hj ▸ .checked _)
      · cases h; exact .job _ j _ (hj ▸ .checked _)
    · cases h
  | put j _ told =>
    split at h
    · rename_i hj
      split at h
      · rename_i hs
        obtain ⟨rfl, _⟩ := hs
        cases h
        exact .put j _ told hj
      · cases h; exact .job _ j _ (.failed _)
    · cases h
  | fail j =>
    split at h <;> cases h
    exact .job _ j _ (.failed _)
  | merge p source merged told =>
    split at h
    · split at h
      · split at h <;> cases h
        rename_i hm
        exact .merge p _ _ source merged told ‹_› ‹_› hm.2.1 hm.2.2
      · cases h
    · cases h
  | skip p source => cases h; exact .skip p source
  | fork p name target =>
    repeat' split at h
    all_goals cases h
    exact .fork p _ name target ‹_› ‹_›
  | read => cases h; exact .stay _
  | upToDate =>
    repeat' split at h
    all_goals cases h
    exact .stay _

end Jamsesh.Cluster
