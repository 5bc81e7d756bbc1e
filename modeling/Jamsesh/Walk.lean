import Mathlib.Algebra.BigOperators.Group.List.Basic
import Mathlib.Data.List.Nodup
import Mathlib.Tactic.Ring
/-!
# Walk — a depth-first pre-order walk with a seen set

A graph is a successor function that may fail to resolve a node.  `walk` yields only reachable nodes (`walk_sound`), every
reachable node when all of them resolve (`mem_walk_iff`), and follows the chain of first successors before anything else
(`first_chain_induction`).
-/
namespace Jamsesh.Walk

open List

variable {α : Type}

/-- **An edge of the graph**: `b` is listed among the successors of `a`. -/
def Edge (succ : α → Option (List α)) (a b : α) : Prop := ∃ l, succ a = some l ∧ b ∈ l

abbrev Reach (succ : α → Option (List α)) : α → α → Prop := Relation.ReflTransGen (Edge succ)

variable {succ : α → Option (List α)} {a : α} {n : Nat} {st seen : List α}

theorem Reach.of_no_successor {x : α} (ha : succ a = some []) (h : Reach succ a x) : x = a := by
  induction h with
  | refl => rfl
  | tail _ hyz ih =>
    subst ih
    obtain ⟨l, hl, hz⟩ := hyz
    rw [ha] at hl
    cases hl
    cases hz

def FirstStep (succ : α → Option (List α)) (a b : α) : Prop := ∃ l, succ a = some (b :: l)

theorem FirstStep.edge {b : α} (h : FirstStep succ a b) : Edge succ a b := by
  obtain ⟨l, hl⟩ := h
  exact ⟨b :: l, hl, mem_cons_self⟩

theorem FirstStep.unique {b c : α} (hb : FirstStep succ a b) (hc : FirstStep succ a c) : b = c := by
  obtain ⟨l, hl⟩ := hb
  obtain ⟨m, hm⟩ := hc
  rw [hl] at hm
  exact (List.cons.inj (Option.some.inj hm)).1

/-- Run a callback over the items, collecting nodes, until the callback stops it or an item is an error. -/
def forEach (stop : α → Bool) : List (Except α α) → Except α (List α)
  | [] => .ok []
  | .error a :: _ => .error a
  | .ok a :: rest => if stop a then .ok [] else (forEach stop rest).map (a :: ·)

def visited : List (Except α α) → List α
  | [] => []
  | .error _ :: rest => visited rest
  | .ok a :: rest => a :: visited rest

@[simp] theorem visited_nil : visited ([] : List (Except α α)) = [] := rfl
@[simp] theorem visited_error (a : α) (l : List (Except α α)) : visited (.error a :: l) = visited l := rfl
@[simp] theorem visited_ok (a : α) (l : List (Except α α)) : visited (.ok a :: l) = a :: visited l := rfl

theorem mem_visited {a : α} : ∀ {l : List (Except α α)}, a ∈ visited l ↔ Except.ok a ∈ l
  | [] => by simp
  | .error b :: l => by simp [mem_visited]
  | .ok b :: l => by simp [mem_visited]

theorem forEach_visited (stop : α → Bool) : ∀ (items : List (Except α α)), (∀ x, Except.error x ∉ items) →
    forEach stop items = .ok ((visited items).takeWhile (fun a => !stop a))
  | [], _ => rfl
  | .error a :: _, h => absurd mem_cons_self (h a)
  | .ok a :: rest, h => by
    have ih := forEach_visited stop rest (fun x hx => h x (mem_cons_of_mem _ hx))
    rw [forEach, ih, visited_ok, takeWhile_cons]
    cases stop a <;> rfl

theorem forEach_takeWhile (stop : α → Bool) : ∀ (items : List (Except α α)) (l : List α),
    forEach stop items = .ok l → l = (visited items).takeWhile (fun a => !stop a)
  | [], l, h => by cases h; rfl
  | .error _ :: _, _, h => by cases h
  | .ok a :: rest, l, h => by
    rw [visited_ok, takeWhile_cons]
    rw [forEach] at h
    cases hs : stop a with
    | true => rw [hs] at h; cases h; rfl
    | false =>
      rw [hs] at h
      cases hr : forEach stop rest with
      | error => rw [hr] at h; cases h
      | ok m =>
        rw [hr] at h
        cases h
        rw [forEach_takeWhile stop rest m hr]
        rfl

section

/-- **A walk that goes through**: from a stack and what was seen, the nodes it lists. -/
inductive Lists (succ : α → Option (List α)) : List α → List α → List α → Prop where
  | nil {seen : List α} : Lists succ [] seen []
  | skip {a : α} {st seen out : List α} (mem : a ∈ seen) (rest : Lists succ st seen out) : Lists succ (a :: st) seen out
  | visit {a : α} {st seen out l : List α} (new : a ∉ seen) (successors : succ a = some l)
      (rest : Lists succ (l ++ st) (a :: seen) out) : Lists succ (a :: st) seen (a :: out)

variable {succ : α → Option (List α)} {st seen out : List α} {x : α}

theorem Lists.sound (h : Lists succ st seen out) (hx : x ∈ out) : ∃ a ∈ st, Reach succ a x := by
  induction h with
  | nil => cases hx
  | skip _ _ ih =>
    obtain ⟨b, hb, hbx⟩ := ih hx
    exact ⟨b, mem_cons_of_mem _ hb, hbx⟩
  | @visit a _ _ _ l _ hs _ ih =>
    rcases mem_cons.1 hx with rfl | hx
    · exact ⟨x, mem_cons_self, .refl⟩
    obtain ⟨b, hb, hbx⟩ := ih hx
    rcases mem_append.1 hb with hb | hb
    · exact ⟨a, mem_cons_self, .head ⟨l, hs, hb⟩ hbx⟩
    · exact ⟨b, mem_cons_of_mem _ hb, hbx⟩

theorem Lists.covers (h : Lists succ st seen out) {P : α → Prop} (hclosed : ∀ a b, P a → Edge succ a b → P b)
    (hseen : ∀ s ∈ seen, P s → ∀ b, Edge succ s b → b ∈ seen ∨ b ∈ st) (ha : a ∈ st) (hP : P a) (hx : Reach succ a x) :
    x ∈ seen ∨ x ∈ out := by
  have hall : (∀ a ∈ st, a ∈ seen ∨ a ∈ out) ∧ ∀ s, s ∈ seen ∨ s ∈ out → P s → ∀ b, Edge succ s b → b ∈ seen ∨ b ∈ out := by
    clear ha hP hx
    induction h with
    | nil =>
      refine ⟨fun a ha => absurd ha not_mem_nil, fun s hs hP b hb => ?_⟩
      rcases hs with hs | hs
      · exact .inl ((hseen s hs hP b hb).resolve_right not_mem_nil)
      · cases hs
    | @skip a _ _ _ hm _ ih =>
      obtain ⟨hst, ho⟩ := ih fun s hs hP b hb => by
        rcases hseen s hs hP b hb with hb | hb
        · exact .inl hb
        · rcases mem_cons.1 hb with rfl | hb
          · exact .inl hm
          · exact .inr hb
      refine ⟨fun b hb => ?_, ho⟩
      rcases mem_cons.1 hb with rfl | hb
      · exact .inl hm
      · exact hst b hb
    | @visit a _ seen out l _ hs _ ih =>
      obtain ⟨hst, ho⟩ := ih fun s hs' hP b hb => by
        rcases mem_cons.1 hs' with rfl | hs'
        · obtain ⟨_, hl', hbl⟩ := hb
          cases hs.symm.trans hl'
          exact .inr (mem_append_left _ hbl)
        rcases hseen s hs' hP b hb with hb | hb
        · exact .inl (mem_cons_of_mem _ hb)
        · rcases mem_cons.1 hb with rfl | hb
          · exact .inl mem_cons_self
          · exact .inr (mem_append_right _ hb)
      -- the node moves from what was seen to what is listed
      have hmove : ∀ c, c ∈ a :: seen ∨ c ∈ out ↔ c ∈ seen ∨ c ∈ a :: out := by
        intro c
        simp only [mem_cons]
        tauto
      refine ⟨fun b hb => ?_, fun s hs' hP b hb => (hmove b).1 (ho s ((hmove s).2 hs') hP b hb)⟩
      rcases mem_cons.1 hb with rfl | hb
      · exact .inr mem_cons_self
      · exact (hmove b).1 (hst b (mem_append_right _ hb))
  have hreach : P x ∧ (x ∈ seen ∨ x ∈ out) := by
    induction hx with
    | refl => exact ⟨hP, hall.1 a ha⟩
    | tail _ hbc ih => exact ⟨hclosed _ _ ih.1 hbc, hall.2 _ ih.2 ih.1 _ hbc⟩
  exact hreach.2

theorem Lists.mem_iff {r : α} (h : Lists succ [r] [] out) : x ∈ out ↔ Reach succ r x := by
  constructor
  · intro hx
    obtain ⟨a, ha, hax⟩ := h.sound hx
    rwa [mem_singleton.1 ha] at hax
  · intro hx
    refine (h.covers (fun _ _ _ _ => trivial) ?_ (mem_singleton_self r) trivial hx).resolve_left
      not_mem_nil
    exact fun s hs => absurd hs not_mem_nil

end

variable [DecidableEq α]

/-- The walk over a stack of nodes still to visit: `.ok` items are visited nodes, an `.error` item is a node that did not
resolve and ends the walk. -/
def preorder (succ : α → Option (List α)) : Nat → List α → List α → List (Except α α)
  | 0, _, _ => []
  | _ + 1, [], _ => []
  | n + 1, a :: st, seen =>
    if a ∈ seen then preorder succ n st seen
    else match succ a with
      | none => [.error a]
      | some l => .ok a :: preorder succ n (l ++ st) (a :: seen)

def degree (succ : α → Option (List α)) (a : α) : Nat := ((succ a).getD []).length

/-- **The walk from `r`**, over a graph whose resolving nodes are among `nodes`.  Every pop of the stack is paid for by the
root or by one successor of a visited node (`work_le`). -/
def walk (succ : α → Option (List α)) (nodes : List α) (r : α) : List (Except α α) :=
  preorder succ (1 + (nodes.map (degree succ)).sum) [r] []

/-- `x` is the `n`-th first successor of `a`. -/
def firstSteps (succ : α → Option (List α)) : Nat → α → α → Prop
  | 0, a, x => a = x
  | n + 1, a, x => ∃ b, FirstStep succ a b ∧ firstSteps succ n b x

/-! ## What one step of the walk does -/

variable (succ : α → Option (List α))

theorem preorder_seen (h : a ∈ seen) : preorder succ (n + 1) (a :: st) seen = preorder succ n st seen := by
  simp [preorder, h]

theorem preorder_missing (h : a ∉ seen) (hs : succ a = none) : preorder succ (n + 1) (a :: st) seen = [.error a] := by
  simp [preorder, h, hs]

theorem preorder_visit {l : List α} (h : a ∉ seen) (hs : succ a = some l) :
    preorder succ (n + 1) (a :: st) seen = .ok a :: preorder succ n (l ++ st) (a :: seen) := by
  simp [preorder, h, hs]

theorem preorder_sound : ∀ (n : Nat) (st seen : List α) (x : α),
    Except.ok x ∈ preorder succ n st seen ∨ Except.error x ∈ preorder succ n st seen → ∃ a ∈ st, Reach succ a x
  | 0, _, _, _, h => by simp [preorder] at h
  | _ + 1, [], _, _, h => by simp [preorder] at h
  | n + 1, a :: st, seen, x, h => by
    by_cases hseen : a ∈ seen
    · rw [preorder_seen succ hseen] at h
      obtain ⟨b, hb, hr⟩ := preorder_sound n st seen x h
      exact ⟨b, mem_cons_of_mem a hb, hr⟩
    cases hs : succ a with
    | none =>
      rw [preorder_missing succ hseen hs] at h
      have hx : x = a := by simpa using h
      exact ⟨a, mem_cons_self, by rw [hx]⟩
    | some l =>
      rw [preorder_visit succ hseen hs] at h
      by_cases hxa : x = a
      · exact ⟨a, mem_cons_self, by rw [hxa]⟩
      have h' : Except.ok x ∈ preorder succ n (l ++ st) (a :: seen) ∨
          Except.error x ∈ preorder succ n (l ++ st) (a :: seen) := by simpa [hxa] using h
      obtain ⟨b, hb, hr⟩ := preorder_sound n (l ++ st) (a :: seen) x h'
      rcases mem_append.1 hb with hl | hst
      · exact ⟨a, mem_cons_self, Relation.ReflTransGen.head ⟨l, hs, hl⟩ hr⟩
      · exact ⟨b, mem_cons_of_mem a hst, hr⟩

theorem walk_sound (nodes : List α) (r x : α)
    (h : Except.ok x ∈ walk succ nodes r ∨ Except.error x ∈ walk succ nodes r) : Reach succ r x := by
  obtain ⟨a, ha, hr⟩ := preorder_sound succ _ _ _ x h
  rw [mem_singleton] at ha
  exact ha ▸ hr

theorem preorder_error_none : ∀ (n : Nat) (st seen : List α) (x : α),
    Except.error x ∈ preorder succ n st seen → succ x = none
  | 0, _, _, _, h => by simp [preorder] at h
  | _ + 1, [], _, _, h => by simp [preorder] at h
  | n + 1, a :: st, seen, x, h => by
    by_cases hseen : a ∈ seen
    · rw [preorder_seen succ hseen] at h
      exact preorder_error_none n st seen x h
    cases hs : succ a with
    | none =>
      rw [preorder_missing succ hseen hs] at h
      have hx : x = a := by simpa using h
      rw [hx, hs]
    | some l =>
      rw [preorder_visit succ hseen hs] at h
      exact preorder_error_none n (l ++ st) (a :: seen) x (by simpa using h)

/-! ## The fuel is enough -/

/-- What is left to pay for: the stack, and the successors of the nodes not seen. -/
def work (succ : α → Option (List α)) (nodes st seen : List α) : Nat :=
  st.length + ((nodes.filter (fun a => decide (a ∉ seen))).map (degree succ)).sum

theorem sum_filter_seen (a : α) (seen : List α) (hns : a ∉ seen) :
    ∀ (nodes : List α), nodes.Nodup → a ∈ nodes →
      ((nodes.filter (fun b => decide (b ∉ a :: seen))).map (degree succ)).sum + degree succ a
        = ((nodes.filter (fun b => decide (b ∉ seen))).map (degree succ)).sum
  | [], _, h => by cases h
  | b :: nodes, hnd, h => by
    rw [nodup_cons] at hnd
    by_cases hba : b = a
    · subst hba
      have heq : nodes.filter (fun c => decide (c ∉ b :: seen)) = nodes.filter (fun c => decide (c ∉ seen)) := by
        refine filter_congr (fun c hc => ?_)
        have : c ≠ b := fun hcb => hnd.1 (hcb ▸ hc)
        simp [this]
      rw [filter_cons_of_neg (by simp), filter_cons_of_pos (by simpa using hns), heq, map_cons,
        sum_cons, Nat.add_comm]
    · have ih := sum_filter_seen a seen hns nodes hnd.2 ((mem_cons.1 h).resolve_left (Ne.symm hba))
      by_cases hbs : b ∈ seen
      · rw [filter_cons_of_neg (by simp [hbs]), filter_cons_of_neg (by simp [hbs])]
        exact ih
      · rw [filter_cons_of_pos (by simp [hbs, hba]), filter_cons_of_pos (by simp [hbs]), map_cons,
          map_cons, sum_cons, sum_cons]
        omega

theorem work_visit (nodes st seen l : List α) (a : α) (hnd : nodes.Nodup)
    (ha : a ∈ nodes) (hns : a ∉ seen) (hs : succ a = some l) :
    work succ nodes (l ++ st) (a :: seen) + 1 = work succ nodes (a :: st) seen := by
  have hsum := sum_filter_seen succ a seen hns nodes hnd ha
  have hd : degree succ a = l.length := by simp [degree, hs]
  unfold work
  rw [length_append, length_cons]
  omega

theorem preorder_fuel (nodes : List α) (hnd : nodes.Nodup)
    (hall : ∀ a, (succ a).isSome → a ∈ nodes) (k : Nat) : ∀ (n : Nat) (st seen : List α),
      work succ nodes st seen ≤ n → preorder succ (n + k) st seen = preorder succ n st seen
  | 0, st, seen, hw => by
    have hst : st = [] := eq_nil_of_length_eq_zero (by unfold work at hw; omega)
    subst hst
    cases k <;> simp [preorder]
  | n + 1, [], seen, _ => by rw [Nat.add_right_comm]; simp [preorder]
  | n + 1, a :: st, seen, hw => by
    rw [Nat.add_right_comm]
    by_cases hseen : a ∈ seen
    · rw [preorder_seen succ hseen, preorder_seen succ hseen]
      refine preorder_fuel nodes hnd hall k n st seen ?_
      unfold work at hw ⊢
      rw [length_cons] at hw
      omega
    cases hs : succ a with
    | none => rw [preorder_missing succ hseen hs, preorder_missing succ hseen hs]
    | some l =>
      have := work_visit succ nodes st seen l a hnd (hall a (by simp [hs])) hseen hs
      rw [preorder_visit succ hseen hs, preorder_visit succ hseen hs,
        preorder_fuel nodes hnd hall k n (l ++ st) (a :: seen) (by omega)]

theorem work_root (nodes : List α) (r : α) :
    work succ nodes [r] [] = 1 + (nodes.map (degree succ)).sum := by simp [work]

section
variable {succ} {nodes : List α}

theorem preorder_lists (hnd : nodes.Nodup) (hall : ∀ a, (succ a).isSome → a ∈ nodes) : ∀ (n : Nat) (st seen : List α),
    work succ nodes st seen ≤ n → (∀ x, Except.error x ∉ preorder succ n st seen) →
      Lists succ st seen (visited (preorder succ n st seen))
  | 0, st, seen, hw, _ => by
    have hst : st = [] := eq_nil_of_length_eq_zero (by unfold work at hw; omega)
    subst hst
    exact .nil
  | n + 1, [], seen, _, _ => .nil
  | n + 1, a :: st, seen, hw, he => by
    by_cases hseen : a ∈ seen
    · rw [preorder_seen succ hseen] at he ⊢
      refine .skip hseen (preorder_lists hnd hall n st seen ?_ he)
      unfold work at hw ⊢
      rw [length_cons] at hw
      omega
    cases hs : succ a with
    | none => exact absurd (by rw [preorder_missing succ hseen hs]; exact mem_singleton_self _) (he a)
    | some l =>
      rw [preorder_visit succ hseen hs] at he ⊢
      have hp := work_visit succ nodes st seen l a hnd (hall a (by simp [hs])) hseen hs
      exact .visit hseen hs (preorder_lists hnd hall n (l ++ st) (a :: seen) (by omega)
        fun x hx => he x (mem_cons_of_mem _ hx))

theorem walk_lists (hnd : nodes.Nodup) (hall : ∀ a, (succ a).isSome → a ∈ nodes) {r : α}
    (hr : ∀ x, Reach succ r x → (succ x).isSome) : Lists succ [r] [] (visited (walk succ nodes r)) := by
  refine preorder_lists hnd hall _ [r] [] (Nat.le_of_eq (work_root succ nodes r)) fun x hx => ?_
  have hs := hr x (walk_sound succ nodes r x (.inr hx))
  rw [preorder_error_none succ _ _ _ x hx] at hs
  cases hs

end

variable (nodes : List α) (hnd : nodes.Nodup) (hall : ∀ a, (succ a).isSome → a ∈ nodes)
include hnd hall

theorem mem_walk_iff (r : α) (hr : ∀ x, Reach succ r x → (succ x).isSome) (x : α) :
    x ∈ visited (walk succ nodes r) ↔ Reach succ r x := (walk_lists hnd hall hr).mem_iff

/-! ## The chain of first successors -/

omit [DecidableEq α] hnd hall in
theorem exists_firstSteps {x : α} (h : Relation.ReflTransGen (FirstStep succ) a x) : ∃ n, firstSteps succ n a x := by
  induction h using Relation.ReflTransGen.head_induction_on with
  | refl => exact ⟨0, rfl⟩
  | head hab _ ih =>
    obtain ⟨n, hn⟩ := ih
    exact ⟨n + 1, _, hab, hn⟩

omit hnd hall in
/-- **The chain of first successors is walked before anything else**: the shortest chain to `x` meets no seen node, so
every node on it is visited before `x`. -/
theorem preorder_first_chain (x : α) {P : α → Prop} (base : P x) : ∀ (d n : Nat) (c : α) (st seen : List α),
    firstSteps succ d c x → (∀ m < d, ¬ firstSteps succ m c x) → (∀ s ∈ seen, ∀ m ≤ d, ¬ firstSteps succ m s x) →
    d ≤ n →
    (∀ y z, FirstStep succ y z →
      y ∈ (visited (preorder succ n (c :: st) seen)).takeWhile (fun a => decide (a ≠ x)) → P z → P y) → P c
  | 0, _, c, _, _, h, _, _, _, _ => by cases h; exact base
  | d + 1, 0, _, _, _, _, _, _, hn, _ => absurd hn (by omega)
  | d + 1, n + 1, c, st, seen, h, hmin, hseen, hn, step => by
    obtain ⟨b, ⟨l, hl⟩, hb⟩ := h
    have hcs : c ∉ seen := fun hc => hseen c hc (d + 1) (Nat.le_refl _) ⟨b, ⟨l, hl⟩, hb⟩
    have hcx : c ≠ x := fun hcx => hmin 0 (Nat.succ_pos d) hcx
    rw [preorder_visit succ hcs hl, visited_ok, takeWhile_cons_of_pos (by simpa using hcx)] at step
    refine step c b ⟨l, hl⟩ mem_cons_self ?_
    refine preorder_first_chain x base d n b (l ++ st) (c :: seen) hb (fun m hm hbm => ?_) (fun s hs m hm => ?_)
      (by omega) (fun y z hyz hy hz => step y z hyz (mem_cons_of_mem c hy) hz)
    · exact hmin (m + 1) (by omega) ⟨b, ⟨l, hl⟩, hbm⟩
    · rcases mem_cons.1 hs with rfl | hs
      · exact hmin m (by omega)
      · exact hseen s hs m (by omega)

/-- **Induction along the chain of first successors**, from `x` back to the root of the walk: each step may use that its
node is visited before `x`. -/
theorem first_chain_induction (r x : α) (h : Relation.ReflTransGen (FirstStep succ) r x) {P : α → Prop} (base : P x)
    (step : ∀ y z, FirstStep succ y z →
      y ∈ (visited (walk succ nodes r)).takeWhile (fun a => decide (a ≠ x)) → P z → P y) : P r := by
  classical
  have hex := exists_firstSteps succ h
  have hf : preorder succ (1 + (nodes.map (degree succ)).sum + Nat.find hex) [r] [] = walk succ nodes r :=
    preorder_fuel succ nodes hnd hall (Nat.find hex) _ [r] [] (Nat.le_of_eq (work_root succ nodes r))
  refine preorder_first_chain succ x base (Nat.find hex) (1 + (nodes.map (degree succ)).sum + Nat.find hex) r [] []
    (Nat.find_spec hex) (fun m hm => Nat.find_min hex hm) (fun s hs => by cases hs) (by omega) ?_
  rw [hf]
  exact step

end Jamsesh.Walk
