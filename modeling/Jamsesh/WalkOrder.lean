import Jamsesh.Walk
/-!
# WalkOrder — what a pre-order walk lists first

In a graph without cycles, what follows an old node is old.  A pre-order walk lists the other nodes first, each before all that
follow it, exactly when the successors of every new node come in a tidy order (`Lists.pairwise`, `Lists.tidy`); cut at the
first stop it lists exactly those when besides it comes into the old ones by a stop (`Lists.cut_iff`).
-/
namespace Jamsesh.Walk

open List
open Relation (ReflTransGen TransGen)

variable {α : Type} {succ : α → Option (List α)} {st seen out : List α}
  {x m o : α} {l₁ l₂ l before after : List α}

/-! ## What is listed -/

theorem Lists.not_seen (h : Lists succ st seen out) (hx : x ∈ out) : x ∉ seen := by
  induction h with
  | nil => cases hx
  | skip _ _ ih => exact ih hx
  | visit hn _ _ ih =>
    rcases mem_cons.1 hx with rfl | hx
    · exact hn
    · exact fun hs => ih hx (mem_cons_of_mem _ hs)

theorem Lists.nodup (h : Lists succ st seen out) : out.Nodup := by
  induction h with
  | nil => exact nodup_nil
  | skip _ _ ih => exact ih
  | visit _ _ hr ih => exact nodup_cons.2 ⟨fun hm => hr.not_seen hm mem_cons_self, ih⟩

theorem Lists.root {r : α} (h : Lists succ [r] [] out) : ∃ rest, out = r :: rest := by
  cases h with
  | skip hm => cases hm
  | visit => exact ⟨_, rfl⟩

theorem Lists.append (h : Lists succ (l₁ ++ l₂) seen out) :
    ∃ o₁ o₂, out = o₁ ++ o₂ ∧ Lists succ l₁ seen o₁ ∧ Lists succ l₂ (o₁.reverse ++ seen) o₂ := by
  generalize hst : l₁ ++ l₂ = st at h
  induction h generalizing l₁ with
  | @nil _ =>
    obtain ⟨rfl, rfl⟩ := append_eq_nil_iff.1 hst
    exact ⟨[], [], rfl, .nil, .nil⟩
  | @skip a _ _ out hm hr ih =>
    rcases append_eq_cons_iff.1 hst with ⟨rfl, rfl⟩ | ⟨_, rfl, rfl⟩
    · exact ⟨[], out, rfl, .nil, .skip hm hr⟩
    · obtain ⟨o₁, o₂, rfl, h₁, h₂⟩ := ih rfl
      exact ⟨o₁, o₂, rfl, .skip hm h₁, h₂⟩
  | @visit a _ _ out l hn hs hr ih =>
    rcases append_eq_cons_iff.1 hst with ⟨rfl, rfl⟩ | ⟨l₁, rfl, rfl⟩
    · exact ⟨[], a :: out, rfl, .nil, .visit hn hs hr⟩
    · obtain ⟨o₁, o₂, rfl, h₁, _⟩ := ih (append_assoc l l₁ l₂)
      refine ⟨a :: o₁, o₂, rfl, .visit hn hs h₁, ?_⟩
      rwa [reverse_cons, append_assoc]

/-! ## Where the successors of seen nodes are -/

def Acyclic (succ : α → Option (List α)) : Prop := ∀ a, ¬ TransGen (Edge succ) a a

/-- **A successor of a seen node is seen, or on the stack under nodes that all follow the seen one.** -/
def Pending (succ : α → Option (List α)) (st seen : List α) : Prop :=
  ∀ s ∈ seen, ∀ b, Edge succ s b → b ∈ seen ∨ ∃ st₁ st₂, st = st₁ ++ b :: st₂ ∧ ∀ c ∈ st₁, TransGen (Edge succ) s c

theorem pending_nil (st : List α) : Pending succ st [] := fun _ hs => absurd hs not_mem_nil

theorem Pending.skip {a : α} (h : Pending succ (a :: st) seen) (ha : a ∈ seen) : Pending succ st seen := by
  intro s hs b hb
  rcases h s hs b hb with hb | ⟨st₁, st₂, hst, hf⟩
  · exact .inl hb
  rcases cons_eq_append_iff.1 hst with ⟨-, hst⟩ | ⟨st₁, rfl, rfl⟩
  · exact .inl ((List.cons.inj hst).1 ▸ ha)
  · exact .inr ⟨st₁, st₂, rfl, fun c hc => hf c (mem_cons_of_mem _ hc)⟩

theorem Pending.visit {a : α} (h : Pending succ (a :: st) seen) (hl : succ a = some l) :
    Pending succ (l ++ st) (a :: seen) := by
  intro s hs b hb
  rcases mem_cons.1 hs with rfl | hs
  · obtain ⟨_, hl', hbl⟩ := hb
    cases hl.symm.trans hl'
    obtain ⟨l₁, l₂, rfl⟩ := append_of_mem hbl
    exact .inr ⟨l₁, l₂ ++ st, by rw [append_assoc, cons_append],
      fun c hc => .single ⟨_, hl, mem_append_left _ hc⟩⟩
  · rcases h s hs b hb with hb | ⟨st₁, st₂, hst, hf⟩
    · exact .inl (mem_cons_of_mem _ hb)
    rcases cons_eq_append_iff.1 hst with ⟨-, hst⟩ | ⟨st₁, rfl, rfl⟩
    · exact .inl ((List.cons.inj hst).1 ▸ mem_cons_self)
    · refine .inr ⟨l ++ st₁, st₂, (append_assoc _ _ _).symm, fun c hc => ?_⟩
      rcases mem_append.1 hc with hc | hc
      · exact .tail (hf a mem_cons_self) ⟨l, hl, hc⟩
      · exact hf c (mem_cons_of_mem _ hc)

theorem Pending.closed {a : α} (h : Pending succ (a :: st) seen) (hacyclic : Acyclic succ) {s : α} (hs : s ∈ seen)
    (has : Reach succ a s) {b : α} (hb : Edge succ s b) : b ∈ seen := by
  refine (h s hs b hb).resolve_right ?_
  rintro ⟨_, _, hst, hf⟩
  rcases cons_eq_append_iff.1 hst with ⟨-, hst⟩ | ⟨_, rfl, -⟩
  · exact hacyclic s (.head' hb ((List.cons.inj hst).1 ▸ has))
  · exact hacyclic s (TransGen.trans_left (hf a mem_cons_self) has)

theorem Lists.at_visit (h : Lists succ st seen out) (hp : Pending succ st seen)
    (ho : out = before ++ m :: after) : ∃ st' l, Pending succ (m :: st') (before.reverse ++ seen) ∧ succ m = some l ∧
      Lists succ (l ++ st') (m :: (before.reverse ++ seen)) after := by
  induction h generalizing before with
  | nil => exact absurd ho.symm (by simp)
  | skip hm _ ih => exact ih (hp.skip hm) ho
  | @visit a st _ _ l _ hs hr ih =>
    rcases cons_eq_append_iff.1 ho with ⟨rfl, ho⟩ | ⟨_, rfl, rfl⟩
    · cases ho
      exact ⟨st, l, hp, hs, hr⟩
    · have hstate := ih (hp.visit hs) rfl
      rwa [reverse_cons, append_assoc]

theorem Lists.first_successors (hacyclic : Acyclic succ) {r : α} (h : Lists succ [r] [] out)
    (ho : out = before ++ m :: after) (hl : succ m = some (l₁ ++ l₂)) :
    ∃ st' o₁ o₂, after = o₁ ++ o₂ ∧ Lists succ l₁ (m :: before.reverse) o₁ ∧
      Lists succ (l₂ ++ st') (o₁.reverse ++ m :: before.reverse) o₂ ∧
      ∀ p ∈ l₁, ∀ x, Reach succ p x → x ∈ before ∨ x ∈ o₁ := by
  obtain ⟨st', l, hpending, hl', hafter⟩ := h.at_visit (pending_nil _) ho
  cases hl.symm.trans hl'
  rw [append_nil] at hpending hafter
  rw [append_assoc] at hafter
  obtain ⟨o₁, o₂, rfl, h₁, h₂⟩ := hafter.append
  refine ⟨st', o₁, o₂, rfl, h₁, h₂, fun p hp x hx => ?_⟩
  have hmp : Edge succ m p := ⟨_, hl, mem_append_left _ hp⟩
  -- what follows the first successors and was seen before the node has its successors there too
  have hc := h₁.covers (P := fun s => TransGen (Edge succ) m s) (fun a b ha hab => .tail ha hab) (fun s hs hms b hb => by
    rcases mem_cons.1 hs with rfl | hs
    · exact absurd hms (hacyclic s)
    · exact .inl (mem_cons_of_mem _ (hpending.closed hacyclic hs hms.to_reflTransGen hb))) hp (.single hmp) hx
  rcases hc with hc | hc
  · rcases mem_cons.1 hc with rfl | hc
    · exact absurd (.head' hmp hx) (hacyclic x)
    · exact .inl (mem_reverse.1 hc)
  · exact .inr hc

theorem Pending.reach_seen {a : α} (h : Pending succ (a :: st) seen) (hacyclic : Acyclic succ) (ha : a ∈ seen)
    (hx : Reach succ a x) : x ∈ seen := by
  induction hx with
  | refl => exact ha
  | tail hab hbc ih => exact h.closed hacyclic ih hab hbc

theorem exists_exit {S : List α} {a : α} (h : Reach succ a x) (ha : a ∈ S) (hx : x ∉ S) :
    ∃ s b, s ∈ S ∧ b ∉ S ∧ Reach succ a s ∧ Edge succ s b ∧ Reach succ b x := by
  induction h using ReflTransGen.head_induction_on with
  | refl => exact absurd ha hx
  | @head a c hac hcx ih =>
    by_cases hc : c ∈ S
    · obtain ⟨s, b, hs, hb, hcs, hsb, hbx⟩ := ih hc
      exact ⟨s, b, hs, hb, .head hac hcs, hsb, hbx⟩
    · exact ⟨a, c, ha, hc, .refl, hac, hcx⟩

theorem exists_first {P : α → Prop} (h : ∃ a ∈ l, P a) : ∃ l₁ a l₂, l = l₁ ++ a :: l₂ ∧ P a ∧ ∀ b ∈ l₁, ¬ P b := by
  classical
  have hs : (l.find? (P ·)).isSome := by simpa using h
  obtain ⟨a, ha⟩ := Option.isSome_iff_exists.1 hs
  obtain ⟨hP, l₁, l₂, hl, hn⟩ := find?_eq_some_iff_append.1 ha
  exact ⟨l₁, a, l₂, hl, by simpa using hP, by simpa using hn⟩

theorem append_eq_append_cons {st : List α} {q : α} (h : l ++ st = l₁ ++ q :: l₂) :
    (∃ rest, l₁ = l ++ rest ∧ st = rest ++ q :: l₂) ∨ ∃ rest, l = l₁ ++ q :: rest := by
  rcases append_eq_append_iff.1 h with ⟨rest, hl₁, hst⟩ | ⟨rest, hl, hst⟩
  · exact .inl ⟨rest, hl₁, hst⟩
  rcases cons_eq_append_iff.1 hst with ⟨rfl, rfl⟩ | ⟨rest, rfl, -⟩
  · exact .inl ⟨[], by rw [hl, append_nil, append_nil], rfl⟩
  · exact .inr ⟨rest, hl⟩

/-! ## New nodes first -/

def NewFirst (succ : α → Option (List α)) (old : α → Prop) (x y : α) : Prop := old y ∨ (¬ old x ∧ ¬ Reach succ y x)

/-- **A tidy order of successors**: each new one follows an earlier one already, or the earlier ones lead only to new nodes, to
none of which it leads. -/
def Tidy (succ : α → Option (List α)) (old : α → Prop) (r : α) : Prop :=
  ∀ m, Reach succ r m → ¬ old m → ∀ l₁ q l₂, succ m = some (l₁ ++ q :: l₂) → ¬ old q →
    (∃ p ∈ l₁, Reach succ p q) ∨ ∀ p ∈ l₁, ∀ x, Reach succ p x → ¬ old x ∧ ¬ Reach succ q x

def TidyStack (succ : α → Option (List α)) (old : α → Prop) (st seen : List α) : Prop :=
  ∀ st₁ q st₂, st = st₁ ++ q :: st₂ → ¬ old q →
    q ∈ seen ∨ (∃ p ∈ st₁, Reach succ p q) ∨ ∀ p ∈ st₁, ∀ x, Reach succ p x → ¬ old x ∧ ¬ Reach succ q x

section
variable {old : α → Prop} {r : α} (hacyclic : Acyclic succ) (hold : ∀ a b, Edge succ a b → old a → old b)

include hold in
theorem old_of_reach {a : α} (h : Reach succ a x) (ha : old a) : old x := by
  induction h with
  | refl => exact ha
  | tail _ hbc ih => exact hold _ _ hbc ih

include hacyclic in
theorem TidyStack.skip {a : α} (h : TidyStack succ old (a :: st) seen) (hpending : Pending succ (a :: st) seen) (ha : a ∈ seen) :
    TidyStack succ old st seen := by
  intro st₁ q st₂ hst hq
  rcases h (a :: st₁) q st₂ (by rw [hst, cons_append]) hq with hs | ⟨p, hp, hpq⟩ | hl
  · exact .inl hs
  · rcases mem_cons.1 hp with rfl | hp
    · exact .inl (hpending.reach_seen hacyclic ha hpq)
    · exact .inr (.inl ⟨p, hp, hpq⟩)
  · exact .inr (.inr fun p hp => hl p (mem_cons_of_mem _ hp))

include hold in
theorem TidyStack.visit (h : TidyStack succ old (m :: st) seen) (ht : Tidy succ old r)
    (hr : Reach succ r m) (hl : succ m = some l) : TidyStack succ old (l ++ st) (m :: seen) := by
  intro st₁ q st₂ hst hq
  rcases append_eq_append_cons hst with ⟨rest, rfl, hs'⟩ | ⟨rest, hl'⟩
  · -- the node is deeper in the stack than the successors that were pushed
    rcases h (m :: rest) q st₂ (by rw [hs', cons_append]) hq with hs | ⟨p, hp, hpq⟩ | hlead
    · exact .inl (mem_cons_of_mem _ hs)
    · rcases mem_cons.1 hp with rfl | hp
      · rcases ReflTransGen.cases_head hpq with rfl | ⟨c, ⟨l', hl', hc⟩, hcq⟩
        · exact .inl mem_cons_self
        · cases hl.symm.trans hl'
          exact .inr (.inl ⟨c, mem_append_left _ hc, hcq⟩)
      · exact .inr (.inl ⟨p, mem_append_right _ hp, hpq⟩)
    · refine .inr (.inr fun p hp x hx => ?_)
      rcases mem_append.1 hp with hp | hp
      · exact hlead m mem_cons_self x (.head ⟨l, hl, hp⟩ hx)
      · exact hlead p (mem_cons_of_mem _ hp) x hx
  · have hm : ¬ old m := fun hm => hq (hold m q ⟨l, hl, hl' ▸ mem_append_right _ mem_cons_self⟩ hm)
    exact .inr (ht m hr hm st₁ q rest (hl' ▸ hl) hq)

include hacyclic in
theorem Pending.first_unseen {q y : α} {st₁ st₂ : List α} (h : Pending succ (m :: (st₁ ++ q :: st₂)) seen)
    (hqy : Reach succ q y) (hy : y ∉ seen) (hm : ¬ Reach succ m y) (hfirst : ∀ p ∈ st₁, ¬ Reach succ p y) : q ∉ seen := by
  intro hq
  obtain ⟨s, b, hs, hb, hqs, hsb, hby⟩ := exists_exit hqy hq hy
  rcases h s hs b hsb with hb' | ⟨t, t', ht, hf⟩
  · exact hb hb'
  rcases cons_eq_append_iff.1 ht with ⟨-, ht⟩ | ⟨t, rfl, htail⟩
  · exact hm ((List.cons.inj ht).1 ▸ hby)
  rcases append_eq_append_cons htail with ⟨rest, rfl, hr⟩ | ⟨rest, rfl⟩
  · rcases cons_eq_append_iff.1 hr with ⟨-, hr⟩ | ⟨rest, rfl, -⟩
    · exact hb ((List.cons.inj hr).1 ▸ hq)
    · exact hacyclic s (TransGen.trans_left (hf q (by simp)) hqs)
  · exact hfirst b (by simp) hby

include hacyclic hold in
theorem Lists.pairwise (ht : Tidy succ old r) (h : Lists succ st seen out) (hpending : Pending succ st seen)
    (hstack : TidyStack succ old st seen) (hr : ∀ a ∈ st, Reach succ r a) : out.Pairwise (NewFirst succ old) := by
  induction h with
  | nil => exact .nil
  | @skip a st seen out hmem _ ih =>
    exact ih (hpending.skip hmem) (hstack.skip hacyclic hpending hmem) fun b hb => hr b (mem_cons_of_mem _ hb)
  | @visit m st seen out l hn hl hrest ih =>
    have hrm := hr m mem_cons_self
    refine pairwise_cons.2 ⟨fun y hy => ?_, ih (hpending.visit hl) (hstack.visit hold ht hrm hl) fun b hb => ?_⟩
    · by_cases hold_y : old y
      · exact .inl hold_y
      obtain ⟨c, hc, hcy⟩ := hrest.sound hy
      have hu : y ∉ m :: seen := hrest.not_seen hy
      by_cases hmy : Reach succ m y
      · refine .inr ⟨fun hm => hold_y (old_of_reach hold hmy hm), fun hym => ?_⟩
        rcases ReflTransGen.cases_head hym with rfl | ⟨b, hyb, hbm⟩
        · exact hu mem_cons_self
        · exact hacyclic y (.head' hyb (hbm.trans hmy))
      · -- the first node of the stack that leads to it
        have hfrom : ∃ q ∈ st, Reach succ q y := by
          rcases mem_append.1 hc with hc | hc
          · exact absurd (.head ⟨l, hl, hc⟩ hcy) hmy
          · exact ⟨c, hc, hcy⟩
        obtain ⟨st₁, q, st₂, rfl, hqy, hf⟩ := exists_first hfrom
        have hq : ¬ old q := fun hq => hold_y (old_of_reach hold hqy hq)
        rcases hstack (m :: st₁) q st₂ rfl hq with hs | ⟨p, hp, hpq⟩ | hlead
        · exact absurd hs (hpending.first_unseen hacyclic hqy (fun hy' => hu (mem_cons_of_mem _ hy')) hmy hf)
        · rcases mem_cons.1 hp with rfl | hp
          · exact absurd (hpq.trans hqy) hmy
          · exact absurd (hpq.trans hqy) (hf p hp)
        · obtain ⟨hm, hqm⟩ := hlead m mem_cons_self m .refl
          exact .inr ⟨hm, fun hym => hqm (hqy.trans hym)⟩
    · rcases mem_append.1 hb with hb | hb
      · exact hrm.tail ⟨l, hl, hb⟩
      · exact hr b (mem_cons_of_mem _ hb)

include hacyclic in
theorem Lists.tidy (h : Lists succ [r] [] out) (hpair : out.Pairwise (NewFirst succ old)) : Tidy succ old r := by
  intro m hm hnew l₁ q l₂ hl hq
  refine or_iff_not_imp_left.2 fun hn p hp x hx => ?_
  obtain ⟨before, after, rfl⟩ := append_of_mem (h.mem_iff.2 hm)
  obtain ⟨st', o₁, o₂, rfl, h₁, h₂, hc⟩ := h.first_successors hacyclic rfl hl
  have hmq : Edge succ m q := ⟨_, hl, mem_append_right _ mem_cons_self⟩
  have hpair' := pairwise_append.1 hpair
  -- the successor comes after the node, and not with what follows the first ones
  have ha : q ∈ o₂ := by
    rcases mem_append.1 (h.mem_iff.2 (hm.tail hmq)) with hb | hr
    · rcases hpair'.2.2 q hb m mem_cons_self with hm' | ⟨-, hback⟩
      · exact absurd hm' hnew
      · exact absurd (.single hmq) hback
    rcases mem_cons.1 hr with rfl | hr
    · exact absurd (.single hmq) (hacyclic q)
    rcases mem_append.1 hr with hf | hr
    · obtain ⟨p', hp', hpq⟩ := h₁.sound hf
      exact absurd ⟨p', hp', hpq⟩ hn
    · exact hr
  have hf : NewFirst succ old x q := by
    rcases hc p hp x hx with hb | hb
    · exact hpair'.2.2 x hb q (mem_cons_of_mem _ (mem_append_right _ ha))
    · exact (pairwise_append.1 (pairwise_cons.1 hpair'.2.1).2).2.2 x hb q ha
  exact hf.resolve_left hq

include hacyclic in
/-- **The first old node of a walk in order** is the first old successor of a new node whose successors before it lead only to
new ones. -/
theorem Lists.first_old (h : Lists succ [r] [] out) (hpair : out.Pairwise (NewFirst succ old))
    (hm : Reach succ r m) (hnew : ¬ old m) (hl : succ m = some (l₁ ++ o :: l₂))
    (hc : ∀ p ∈ l₁, ∀ x, Reach succ p x → ¬ old x) (ho : old o) :
    ∃ before after, out = before ++ o :: after ∧ ∀ x ∈ before, ¬ old x := by
  obtain ⟨before, after, rfl⟩ := append_of_mem (h.mem_iff.2 hm)
  obtain ⟨st', o₁, o₂, rfl, h₁, h₂, -⟩ := h.first_successors hacyclic rfl hl
  have hb : ∀ x ∈ before ++ m :: o₁, ¬ old x := by
    intro x hx
    rcases mem_append.1 hx with hx | hx
    · exact (((pairwise_append.1 hpair).2.2 x hx m mem_cons_self).resolve_left hnew).1
    rcases mem_cons.1 hx with rfl | hx
    · exact hnew
    · obtain ⟨p, hp, hpx⟩ := h₁.sound hx
      exact hc p hp x hpx
  rw [cons_append] at h₂
  cases h₂ with
  | skip hmem =>
    refine absurd ho (hb o ?_)
    simp only [mem_append, mem_reverse, mem_cons] at hmem ⊢
    tauto
  | @visit _ _ _ out l _ _ _ => exact ⟨before ++ m :: o₁, out, by simp, hb⟩

end

/-! ## A walk that is cut -/

/-- **The walk comes to the old nodes by a stop**: the root is new or a stop, and so is the first old successor of a new node
without new successors that lead to an old one. -/
structure Enters (succ : α → Option (List α)) (old : α → Prop) (stop : α → Bool) (r : α) : Prop where
  root : old r → stop r = true
  step : ∀ m, Reach succ r m → ¬ old m → (∀ p, Edge succ m p → ¬ old p → ∀ x, Reach succ p x → ¬ old x) →
    ∀ l₁ o l₂, succ m = some (l₁ ++ o :: l₂) → (∀ p ∈ l₁, ¬ old p) → old o → stop o = true

variable {old : α → Prop} {stop : α → Bool} {r : α} (hacyclic : Acyclic succ) (hold : ∀ a b, Edge succ a b → old a → old b)
  (hstop : ∀ s, stop s = true → old s)

theorem first_old_unique {before' after' : List α} {o' : α} (h : before ++ o :: after = before' ++ o' :: after')
    (hb : ∀ x ∈ before, ¬ old x) (hb' : ∀ x ∈ before', ¬ old x) (ho : old o) (ho' : old o') : o = o' := by
  rcases append_eq_append_cons h with ⟨_, rfl, hr⟩ | ⟨_, rfl⟩
  · rcases cons_eq_append_iff.1 hr with ⟨-, hr⟩ | ⟨_, rfl, -⟩
    · exact (List.cons.inj hr).1.symm
    · exact absurd ho (hb' o (by simp))
  · exact absurd ho' (hb o' (by simp))

include hacyclic in
theorem Lists.stop_first_old (h : Lists succ [r] [] out) (hpair : out.Pairwise (NewFirst succ old))
    (he : Enters succ old stop r) (hout : out = before ++ o :: after)
    (hb : ∀ x ∈ before, ¬ old x) (ho : old o) : stop o = true := by
  obtain ⟨rest, hr⟩ := h.root
  rcases cons_eq_append_iff.1 (hr.symm.trans hout) with ⟨-, hroot⟩ | ⟨before, rfl, -⟩
  · cases hroot
    exact he.root ho
  -- the last new node that leads to an old one
  have hlast : ∃ m ∈ (r :: before).reverse, ∃ z, Reach succ m z ∧ old z := by
    refine ⟨r, by simp, o, h.mem_iff.1 ?_, ho⟩
    simp [hout]
  obtain ⟨c, m, d, hs, ⟨z, hmz, hz⟩, hn⟩ := exists_first hlast
  rw [reverse_eq_iff, reverse_append, reverse_cons, append_assoc, singleton_append] at hs
  rw [hs] at hout hb
  have hm : Reach succ r m := h.mem_iff.1 (by simp [hout])
  have hnew : ¬ old m := hb m (by simp)
  have hclean : ∀ p, Edge succ m p → ¬ old p → ∀ x, Reach succ p x → ¬ old x := by
    intro p hmp hp x hpx hx
    have hpout := h.mem_iff.2 (hm.tail hmp)
    rw [hout] at hpair hpout
    rcases mem_append.1 hpout with hpb | hpa
    · rcases mem_append.1 hpb with hpd | hpc
      · have hfirst := (pairwise_append.1 (pairwise_append.1 hpair).1).2.2 p hpd m mem_cons_self
        exact (hfirst.resolve_left hnew).2 (.single hmp)
      · rcases mem_cons.1 hpc with rfl | hpc
        · exact hacyclic p (.single hmp)
        · exact hn p (mem_reverse.1 hpc) ⟨x, hpx, hx⟩
    · rcases mem_cons.1 hpa with rfl | hpa
      · exact hp ho
      · have hfirst := (pairwise_cons.1 (pairwise_append.1 hpair).2.1).1 p hpa
        exact (hfirst.resolve_left hp).1 ho
  have hvisit : out = d.reverse ++ m :: (c.reverse ++ o :: after) := by rw [hout, append_assoc, cons_append]
  obtain ⟨st', l, -, hl, -⟩ := h.at_visit (pending_nil _) hvisit
  have hold_succ : ∃ p ∈ l, old p := by
    rcases ReflTransGen.cases_head hmz with rfl | ⟨p, hmp, hpz⟩
    · exact absurd hz hnew
    obtain ⟨l', hl', hpl⟩ := hmp
    cases hl.symm.trans hl'
    by_contra ha
    exact hclean p ⟨l, hl, hpl⟩ (fun hp => ha ⟨p, hpl, hp⟩) z hpz hz
  obtain ⟨l₁, o', l₂, rfl, ho', hl₁⟩ := exists_first hold_succ
  have hstop := he.step m hm hnew hclean l₁ o' l₂ hl hl₁ ho'
  obtain ⟨before', after', hout', hb'⟩ := h.first_old hacyclic hpair hm hnew hl
    (fun p hp => hclean p ⟨_, hl, mem_append_left _ hp⟩ (hl₁ p hp)) ho'
  rwa [first_old_unique (hout.symm.trans hout') hb hb' ho ho']

theorem takeWhile_of_stop (hstop : ∀ s, stop s = true → old s) (hb : ∀ x ∈ before, ¬ old x) :
    (before ++ o :: after).takeWhile (fun x => !stop x) = before ++ if stop o then [] else o :: after.takeWhile (fun x => !stop x) := by
  rw [takeWhile_append_of_pos, takeWhile_cons]
  · cases stop o <;> rfl
  · intro x hx
    cases hs : stop x with
    | false => rfl
    | true => exact absurd (hstop x hs) (hb x hx)

include hacyclic hold hstop in
/-- **A walk cut at the first stop lists exactly the new nodes, each before all that follow it, exactly when the graph is tidy
and the walk comes to the old nodes by a stop.** -/
theorem Lists.cut_iff (h : Lists succ [r] [] out) :
    ((∀ x, x ∈ out.takeWhile (fun x => !stop x) ↔ Reach succ r x ∧ ¬ old x) ∧
        (out.takeWhile (fun x => !stop x)).Pairwise (fun x y => ¬ Reach succ y x)) ↔
      Tidy succ old r ∧ Enters succ old stop r := by
  have hparts : out.takeWhile (fun x => !stop x) ++ out.dropWhile (fun x => !stop x) = out := takeWhile_append_dropWhile
  constructor
  · rintro ⟨he, horder⟩
    have hrest : ∀ y ∈ out.dropWhile (fun x => !stop x), old y := by
      intro y hy
      by_contra hnew
      have hcut := (he y).2 ⟨h.mem_iff.1 (hparts ▸ mem_append_right _ hy), hnew⟩
      have hnodup := h.nodup
      rw [← hparts] at hnodup
      exact disjoint_of_nodup_append hnodup hcut hy
    have hpair : out.Pairwise (NewFirst succ old) := by
      rw [← hparts, pairwise_append]
      refine ⟨horder.imp_of_mem fun hx _ hback => .inr ⟨((he _).1 hx).2, hback⟩, ?_, fun x _ y hy => .inl (hrest y hy)⟩
      exact pairwise_of_forall_mem_list fun x _ y hy => .inl (hrest y hy)
    have hfirst : ∀ before o after, out = before ++ o :: after → (∀ x ∈ before, ¬ old x) → old o → stop o = true := by
      intro before o after hout hb ho
      by_contra hno
      refine ((he o).1 ?_).2 ho
      rw [hout, takeWhile_of_stop hstop hb, if_neg hno]
      simp
    refine ⟨h.tidy hacyclic hpair, ⟨fun hr => ?_, fun m hm hnew hc l₁ o l₂ hl hl₁ ho => ?_⟩⟩
    · obtain ⟨rest, hout⟩ := h.root
      exact hfirst [] r rest hout (fun x hx => absurd hx not_mem_nil) hr
    · obtain ⟨before, after, hout, hb⟩ := h.first_old hacyclic hpair hm hnew hl
        (fun p hp => hc p ⟨_, hl, mem_append_left _ hp⟩ (hl₁ p hp)) ho
      exact hfirst before o after hout hb ho
  · rintro ⟨ht, henters⟩
    have hstack : TidyStack succ old [r] [] := by
      intro st₁ q st₂ hst _
      cases st₁ with
      | nil => exact .inr (.inr fun p hp => absurd hp not_mem_nil)
      | cons =>
        have hnil := (List.cons.inj hst).2
        simp at hnil
    have hpair := Lists.pairwise hacyclic hold ht h (pending_nil _) hstack fun a ha => mem_singleton.1 ha ▸ .refl
    have hnew : ∀ x ∈ out.takeWhile (fun x => !stop x), ¬ old x := by
      intro x hx hxold
      obtain ⟨before, o, after, hout, ho, hb⟩ := exists_first ⟨x, (takeWhile_sublist _).subset hx, hxold⟩
      have hso := h.stop_first_old hacyclic hpair henters hout hb ho
      rw [hout, takeWhile_of_stop hstop hb, if_pos hso, append_nil] at hx
      exact hb x hx hxold
    refine ⟨fun x => ⟨fun hx => ⟨h.mem_iff.1 ((takeWhile_sublist _).subset hx), hnew x hx⟩, fun ⟨hr, hx⟩ => ?_⟩, ?_⟩
    · rcases mem_append.1 (hparts.symm ▸ h.mem_iff.2 hr) with hcut | hrest
      · exact hcut
      exfalso
      rw [← hparts] at hpair
      have hhead := head?_dropWhile_not (fun x => !stop x) out
      generalize out.dropWhile (fun x => !stop x) = rest at *
      cases hrest with
      | head => exact hx (hstop x (by simpa using hhead))
      | tail s hrest =>
        have hfirst := (pairwise_cons.1 (pairwise_append.1 hpair).2.1).1 x hrest
        exact (hfirst.resolve_left hx).1 (hstop s (by simpa using hhead))
    · exact (hpair.sublist (takeWhile_sublist _)).imp_of_mem fun _ hy hfirst => (hfirst.resolve_left (hnew _ hy)).2

end Jamsesh.Walk
