import Mathlib.Data.List.Basic
import Mathlib.Control.Monad.Basic
/-!
# Prog — programs that call the world, and their runs side by side

A program is a tree of calls.  What it does is said by a rule over traces: which call may come after which calls and answers
(`Obeys`, `Triple`).  It runs alone (`run`) or next to others, each step one call of one thread, a move of the environment or
the start of a thread; what every step keeps holds in every state of every run (`Run.invariant`).
-/
namespace Jamsesh

/-- **A program**: it returns, or it calls and goes on with the answer. -/
inductive Prog {O : Type} (Res : O → Type) (α : Type) where
  | pure (a : α)
  | op (o : O) (k : Res o → Prog Res α)

namespace Prog

open List

variable {O : Type} {Res : O → Type} {α β ε : Type}

def bind : Prog Res α → (α → Prog Res β) → Prog Res β
  | .pure a, f => f a
  | .op o k, f => .op o (fun r => (k r).bind f)

instance : Monad (Prog Res) where
  pure := .pure
  bind := bind

abbrev Fallible (Res : O → Type) (ε α : Type) := ExceptT ε (Prog Res) α

def call (o : O) : Fallible Res ε (Res o) := (.op o (fun r => .pure (.ok r)) : Prog Res (Except ε (Res o)))

def forEach {A : Type} (f : A → Fallible Res ε Unit) : List A → Fallible Res ε Unit
  | [] => return ()
  | a :: as => do
    f a
    forEach f as

/-! ## Traces and rules -/

abbrev Trace (Res : O → Type) := List (Σ o, Res o)

/-- **The calls of a program keep a rule** from a trace on, and `Q` holds where it returns. -/
def Obeys (Rule : Trace Res → O → Prop) (Q : α → Trace Res → Prop) : Trace Res → Prog Res α → Prop
  | past, .pure a => Q a past
  | past, .op o k => Rule past o ∧ ∀ r, Obeys Rule Q (past ++ [⟨o, r⟩]) (k r)

theorem Obeys.mono {Rule : Trace Res → O → Prop} {Q R : α → Trace Res → Prop} (hQR : ∀ a past, Q a past → R a past) :
    ∀ {p : Prog Res α} {past : Trace Res}, Obeys Rule Q past p → Obeys Rule R past p
  | .pure a, past, h => hQR a past h
  | .op _ _, _, h => ⟨h.1, fun r => Obeys.mono hQR (h.2 r)⟩

theorem Obeys.bind {Rule : Trace Res → O → Prop} {Q : β → Trace Res → Prop} {f : α → Prog Res β} :
    ∀ {p : Prog Res α} {past : Trace Res}, Obeys Rule (fun a past => Obeys Rule Q past (f a)) past p →
      Obeys Rule Q past (p.bind f)
  | .pure _, _, h => h
  | .op _ _, _, h => ⟨h.1, fun r => Obeys.bind (h.2 r)⟩

/-- **A triple**: started where `P` holds, the program keeps the rule, and where it returns a value `Q` holds. -/
def Triple (Rule : Trace Res → O → Prop) (P : Trace Res → Prop) (p : Fallible Res ε α) (Q : α → Trace Res → Prop) : Prop :=
  ∀ past, P past → Obeys Rule (fun (r : Except ε α) past => ∀ a, r = .ok a → Q a past) past (p : Prog Res (Except ε α))

def withErr {ε' : Type} (f : ε → ε') (p : Fallible Res ε α) : Fallible Res ε' α :=
  Prog.bind (p : Prog Res (Except ε α)) (fun r => .pure (r.mapError f))

variable {a : α} {e : ε} {p : Fallible Res ε α} {ε' : Type} {F : Trace Res → Prop}

variable {o : O} {f : α → Fallible Res ε β}

section
variable {Rule : Trace Res → O → Prop} {P P' : Trace Res → Prop} {Q Q' : α → Trace Res → Prop}

theorem Triple.pure (h : ∀ past, P past → Q a past) : Triple Rule P (Pure.pure a : Fallible Res ε α) Q := by
  intro past hP b hb
  cases hb
  exact h past hP

theorem Triple.throw : Triple Rule P (throw e : Fallible Res ε α) Q := by
  intro _ _ a ha
  cases ha

theorem Triple.call {Q : Res o → Trace Res → Prop} (hr : ∀ past, P past → Rule past o)
    (hQ : ∀ past r, P past → Q r (past ++ [⟨o, r⟩])) : Triple Rule P (call o : Fallible Res ε (Res o)) Q := by
  intro past hP
  refine ⟨hr past hP, fun r a ha => ?_⟩
  cases ha
  exact hQ past r hP

theorem Triple.bind {R : β → Trace Res → Prop} (hp : Triple Rule P p Q)
    (hf : ∀ a, Triple Rule (Q a) (f a) R) : Triple Rule P (p >>= f) R := by
  intro past hP
  refine Obeys.bind (Obeys.mono ?_ (hp past hP))
  intro r past' hr
  cases r with
  | error =>
    intro b hb
    cases hb
  | ok a => exact hf a past' (hr a rfl)

theorem Triple.withErr {f : ε → ε'} (hp : Triple Rule P p Q) : Triple Rule P (withErr f p) Q := by
  intro past hP
  refine Obeys.bind (Obeys.mono ?_ (hp past hP))
  intro r _ hr b hb
  cases r with
  | error => cases hb
  | ok =>
    cases hb
    exact hr _ rfl

theorem Triple.mono (hp : Triple Rule P p Q) (hpre : ∀ past, P' past → P past)
    (hpost : ∀ a past, Q a past → Q' a past) : Triple Rule P' p Q' := by
  intro past hP
  exact Obeys.mono (fun r past' hr a ha => hpost a past' (hr a ha)) (hp past (hpre past hP))

theorem Obeys.extends {Rule : Trace Res → O → Prop} {Q : α → Trace Res → Prop} : ∀ {p : Prog Res α} {past : Trace Res},
    Obeys Rule Q past p → Obeys Rule (fun a past' => Q a past' ∧ past <+: past') past p
  | .pure _, _, h => ⟨h, prefix_refl _⟩
  | .op _ _, past, h => ⟨h.1, fun r => Obeys.mono (fun _ _ hQ => ⟨hQ.1, (prefix_append past _).trans hQ.2⟩)
      (Obeys.extends (h.2 r))⟩

def Lasting (F : Trace Res → Prop) : Prop := ∀ past past', past <+: past' → F past → F past'

theorem lasting_mem (e : Σ o, Res o) : Lasting (fun past => e ∈ past) := fun _ _ h he => h.subset he

theorem lasting_const (p : Prop) : Lasting (fun _ : Trace Res => p) := fun _ _ _ hp => hp

theorem Lasting.and {G : Trace Res → Prop} (hF : Lasting F) (hG : Lasting G) : Lasting (fun past => F past ∧ G past) :=
  fun past past' h hp => ⟨hF past past' h hp.1, hG past past' h hp.2⟩

theorem Lasting.or {G : Trace Res → Prop} (hF : Lasting F) (hG : Lasting G) : Lasting (fun past => F past ∨ G past) :=
  fun past past' h hp => hp.imp (hF past past' h) (hG past past' h)

theorem Lasting.exists {ι : Sort*} {F : ι → Trace Res → Prop} (hF : ∀ i, Lasting (F i)) : Lasting (fun past => ∃ i, F i past) :=
  fun past past' h ⟨i, hi⟩ => ⟨i, hF i past past' h hi⟩

theorem Lasting.forall {ι : Sort*} {F : ι → Trace Res → Prop} (hF : ∀ i, Lasting (F i)) : Lasting (fun past => ∀ i, F i past) :=
  fun past past' h hp i => hF i past past' h (hp i)

theorem Triple.frame (hF : Lasting F) (hp : Triple Rule P p Q) :
    Triple Rule (fun past => P past ∧ F past) p (fun a past => Q a past ∧ F past) := by
  intro past hP
  refine Obeys.mono ?_ (hp past hP.1).extends
  intro r past' hr a ha
  exact ⟨hr.1 a ha, hF past past' hr.2 hP.2⟩

theorem Triple.forEach {A : Type} {f : A → Fallible Res ε Unit} {D : A → Trace Res → Prop} (hD : ∀ a, Lasting (D a)) :
    ∀ {l : List A}, (∀ a ∈ l, Triple Rule P (f a) (fun _ past => P past ∧ D a past)) →
      Triple Rule P (forEach f l) (fun _ past => P past ∧ ∀ a ∈ l, D a past)
  | [], _ => Triple.pure fun _ hP => ⟨hP, fun a ha => absurd ha not_mem_nil⟩
  | a :: l, h => by
    obtain ⟨ha, hl⟩ := forall_mem_cons.1 h
    refine Triple.bind ha fun _ => (Triple.frame (hD a) (Triple.forEach hD hl)).mono (fun _ h => h) ?_
    exact fun _ _ hQ => ⟨hQ.1.1, forall_mem_cons.2 ⟨hQ.2, hQ.1.2⟩⟩

end

/-! ## One program alone -/

def run {W : Type} (exec : (o : O) → W → Res o × W) : Prog Res α → W → α × W
  | .pure a, w => (a, w)
  | .op o k, w => (k (exec o w).1).run exec (exec o w).2

theorem run_bind {W : Type} (exec : (o : O) → W → Res o × W) (f : α → Prog Res β) : ∀ (p : Prog Res α) (w : W),
    (p.bind f).run exec w = (f (p.run exec w).1).run exec (p.run exec w).2
  | .pure _, _ => rfl
  | .op _ k, _ => run_bind exec f (k _) _

section
variable {W : Type} {exec : (o : O) → W → Res o × W}

theorem run_bind_ok {w w' : W} (hp : run exec p w = (.ok a, w')) :
    run exec (p >>= f : Fallible Res ε β) w = run exec (f a) w' := by
  refine (run_bind exec _ p w).trans ?_
  rw [hp]
  rfl

theorem run_bind_error {w w' : W} (hp : run exec p w = (.error e, w')) :
    run exec (p >>= f : Fallible Res ε β) w = (.error e, w') := by
  refine (run_bind exec _ p w).trans ?_
  rw [hp]
  rfl

theorem run_withErr (f : ε → ε') (p : Fallible Res ε α) (w : W) : run exec (withErr f p) w =
      ((run exec p w).1.mapError f, (run exec p w).2) :=
  run_bind exec _ p w

theorem run_withErr_ok {g : ε → ε'} {w w' : W} (hp : run exec p w = (.ok a, w')) : run exec (withErr g p) w = (.ok a, w') := by
  rw [run_withErr, hp]
  rfl

theorem run_withErr_error {g : ε → ε'} {w w' : W} (hp : run exec p w = (.error e, w')) :
    run exec (withErr g p) w = (.error (g e), w') := by
  rw [run_withErr, hp]
  rfl

/-- **Where a program leads alone** from the worlds of `I`, which it keeps: to values of `Q` and errors of `K`. -/
def Leads (exec : (o : O) → W → Res o × W) (I : W → Prop) (p : Fallible Res ε α) (Q : α → Prop) (K : ε → Prop) : Prop :=
  ∀ w, I w → I (run exec (p : Prog Res (Except ε α)) w).2 ∧
    match (run exec (p : Prog Res (Except ε α)) w).1 with
    | .ok a => Q a
    | .error e => K e

variable {I : W → Prop} {Q : α → Prop} {K : ε → Prop}

theorem Leads.pure (h : Q a) : Leads exec I (Pure.pure a) Q K := fun _ hw => ⟨hw, h⟩

theorem Leads.throw (h : K e) : Leads exec I (throw e) Q K := fun _ hw => ⟨hw, h⟩

theorem Leads.call {Q : Res o → Prop} (h : ∀ w, I w → I (exec o w).2 ∧ Q (exec o w).1) :
    Leads exec I (call o) Q K := h

theorem Leads.bind {R : β → Prop} (hp : Leads exec I p Q K)
    (hf : ∀ a, Q a → Leads exec I (f a) R K) : Leads exec I (p >>= f) R K := by
  intro w hw
  obtain ⟨hI, he⟩ := hp w hw
  cases hr : run exec p w with
  | mk r w' =>
    rw [hr] at hI he
    cases r with
    | error =>
      rw [run_bind_error hr]
      exact ⟨hI, he⟩
    | ok a =>
      rw [run_bind_ok hr]
      exact hf a he w' hI

theorem Leads.withErr {f : ε → ε'} {K' : ε' → Prop} (hp : Leads exec I p Q K)
    (hf : ∀ e, K e → K' (f e)) : Leads exec I (withErr f p) Q K' := by
  intro w hw
  obtain ⟨hI, he⟩ := hp w hw
  rw [run_withErr]
  refine ⟨hI, ?_⟩
  cases hr : (run exec p w).1 with
  | error e =>
    rw [hr] at he
    exact hf e he
  | ok =>
    rw [hr] at he
    exact he

theorem Leads.forEach {A : Type} {f : A → Fallible Res ε Unit} : ∀ {l : List A},
    (∀ a ∈ l, Leads exec I (f a) (fun _ => True) K) → Leads exec I (forEach f l) (fun _ => True) K
  | [], _ => Leads.pure trivial
  | _ :: _, h => Leads.bind (forall_mem_cons.1 h).1 fun _ _ => Leads.forEach (forall_mem_cons.1 h).2

/-- **A program that returns alone**: from the worlds of `P` it ends without an error, in `Q`, and has changed the world as `G`
says. -/
def Ends (exec : (o : O) → W → Res o × W) (G : W → W → Prop) (P : W → Prop) (p : Fallible Res ε α) (Q : α → W → Prop) : Prop :=
  ∀ w, P w → ∃ a w', run exec (p : Prog Res (Except ε α)) w = (.ok a, w') ∧ G w w' ∧ Q a w'

section
variable {G : W → W → Prop} {P P' : W → Prop} {Q Q' : α → W → Prop}

theorem Ends.pure [Std.Refl G] (h : ∀ w, P w → Q a w) : Ends exec G P (Pure.pure a : Fallible Res ε α) Q :=
  fun w hw => ⟨a, w, rfl, refl_of G w, h w hw⟩

theorem Ends.call {Q : Res o → W → Prop} (h : ∀ w, P w → G w (exec o w).2 ∧ Q (exec o w).1 (exec o w).2) :
    Ends exec G P (call o : Fallible Res ε (Res o)) Q :=
  fun w hw => ⟨_, _, rfl, h w hw⟩

theorem Ends.bind [IsTrans W G] {R : β → W → Prop} (hp : Ends exec G P p Q)
    (hf : ∀ a, Ends exec G (Q a) (f a) R) : Ends exec G P (p >>= f) R := by
  intro w hw
  obtain ⟨a, w', hr, hG, hQ⟩ := hp w hw
  obtain ⟨b, w'', hr', hG', hR⟩ := hf a w' hQ
  exact ⟨b, w'', (run_bind_ok hr).trans hr', trans_of G hG hG', hR⟩

theorem Ends.withErr {f : ε → ε'} (hp : Ends exec G P p Q) : Ends exec G P (withErr f p) Q := by
  intro w hw
  obtain ⟨a, w', hr, hQ⟩ := hp w hw
  exact ⟨a, w', run_withErr_ok hr, hQ⟩

theorem Ends.mono (hp : Ends exec G P p Q) (hpre : ∀ w, P' w → P w) (hpost : ∀ a w, Q a w → Q' a w) :
    Ends exec G P' p Q' := by
  intro w hw
  obtain ⟨a, w', hr, hG, hQ⟩ := hp w (hpre w hw)
  exact ⟨a, w', hr, hG, hpost a w' hQ⟩

theorem Ends.known {c : Prop} (h : c → Ends exec G P p Q) : Ends exec G (fun w => c ∧ P w) p Q :=
  fun w hw => h hw.1 w hw.2

theorem Ends.frame {F : W → Prop} (hF : ∀ w w', G w w' → F w → F w') (hp : Ends exec G P p Q) :
    Ends exec G (fun w => P w ∧ F w) p (fun a w => Q a w ∧ F w) := by
  intro w hw
  obtain ⟨a, w', hr, hG, hQ⟩ := hp w hw.1
  exact ⟨a, w', hr, hG, hQ, hF w w' hG hw.2⟩

theorem Ends.forEach [Std.Refl G] [IsTrans W G] {A : Type} {f : A → Fallible Res ε Unit} {D : A → W → Prop}
    (hD : ∀ a w w', G w w' → D a w → D a w') : ∀ {l : List A},
    (∀ a ∈ l, Ends exec G P (f a) (fun _ w => P w ∧ D a w)) → Ends exec G P (forEach f l) (fun _ w => P w ∧ ∀ a ∈ l, D a w)
  | [], _ => Ends.pure fun w hw => ⟨hw, fun a ha => absurd ha not_mem_nil⟩
  | a :: l, h => by
    obtain ⟨ha, hl⟩ := forall_mem_cons.1 h
    refine Ends.bind ha fun _ => (Ends.frame (hD a) (Ends.forEach hD hl)).mono (fun _ h => h) ?_
    exact fun _ w hQ => ⟨hQ.1.1, forall_mem_cons.2 ⟨hQ.2, hQ.1.2⟩⟩

end

end

/-! ## Programs side by side -/

/-- A thread: the world it was started in, its calls so far, and what is left of it. -/
structure Thread (W : Type) (Res : O → Type) (α : Type) where
  born : W
  past : Trace Res
  rest : Prog Res α

structure State (W : Type) (Res : O → Type) (α : Type) where
  world : W
  threads : List (Thread W Res α)

/-- **A system**: how the world may answer a call, how it may move by itself, and which programs may start in it. -/
structure System (W : Type) (Res : O → Type) (α : Type) where
  does : (o : O) → W → Res o → W → Prop
  env : W → W → Prop
  starts : W → Prog Res α → Prop

inductive Event (W : Type) (Res : O → Type) (α : Type) where
  | call (before : State W Res α) (t : Thread W Res α) (o : O) (r : Res o) (after : W)
  | env (before : State W Res α) (after : W)
  | start (before : State W Res α) (p : Prog Res α)

variable {W : Type}

inductive Step (S : System W Res α) : State W Res α → Event W Res α → State W Res α → Prop where
  | call {w w' : W} {pre post : List (Thread W Res α)} {t : Thread W Res α} {o : O} {k : Res o → Prog Res α} {r : Res o}
      (next : t.rest = .op o k) (does : S.does o w r w') :
      Step S ⟨w, pre ++ t :: post⟩ (.call ⟨w, pre ++ t :: post⟩ t o r w')
        ⟨w', pre ++ ⟨t.born, t.past ++ [⟨o, r⟩], k r⟩ :: post⟩
  | env {w w' : W} {ts : List (Thread W Res α)} (moves : S.env w w') : Step S ⟨w, ts⟩ (.env ⟨w, ts⟩ w') ⟨w', ts⟩
  | start {w : W} {ts : List (Thread W Res α)} {p : Prog Res α} (starts : S.starts w p) :
      Step S ⟨w, ts⟩ (.start ⟨w, ts⟩ p) ⟨w, ts ++ [⟨w, [], p⟩]⟩

inductive Run (S : System W Res α) : State W Res α → List (Event W Res α) → State W Res α → Prop where
  | nil {s : State W Res α} : Run S s [] s
  | snoc {s s' s'' : State W Res α} {es : List (Event W Res α)} {e : Event W Res α} (run : Run S s es s')
      (step : Step S s' e s'') : Run S s (es ++ [e]) s''

theorem Run.invariant {S : System W Res α} {Good Shown : Event W Res α → Prop} {I : State W Res α → Prop}
    (hstep : ∀ {s e s'}, I s → Good e → Step S s e s' → I s' ∧ Shown e) {s s' : State W Res α} {es : List (Event W Res α)}
    (hr : Run S s es s') (hI : I s) (hg : ∀ e ∈ es, Good e) : I s' ∧ ∀ e ∈ es, Shown e := by
  induction hr with
  | nil => exact ⟨hI, fun e he => absurd he not_mem_nil⟩
  | snoc _ hs ih =>
    obtain ⟨hes, he⟩ := forall_mem_append.1 hg
    obtain ⟨hI', hshown⟩ := ih hes
    obtain ⟨hI'', hl⟩ := hstep hI' (he _ (mem_singleton.2 rfl)) hs
    exact ⟨hI'', forall_mem_append.2 ⟨hshown, forall_mem_singleton.2 hl⟩⟩

/-! ## Less of the world -/

section
variable {W' : Type} (f : W → W')

def Thread.map (t : Thread W Res α) : Thread W' Res α := ⟨f t.born, t.past, t.rest⟩

def State.map (s : State W Res α) : State W' Res α := ⟨f s.world, s.threads.map (Thread.map f)⟩

def Event.map : Event W Res α → Event W' Res α
  | .call before t o r after => .call (before.map f) (t.map f) o r (f after)
  | .env before after => .env (before.map f) (f after)
  | .start before p => .start (before.map f) p

/-- **A system seen through less of its world** is another system. -/
structure Projects (S : System W Res α) (S' : System W' Res α) : Prop where
  does : ∀ {o w r w'}, S.does o w r w' → S'.does o (f w) r (f w')
  env : ∀ {w w'}, S.env w w' → S'.env (f w) (f w')
  starts : ∀ {w p}, S.starts w p → S'.starts (f w) p

theorem Step.map {S : System W Res α} {S' : System W' Res α} (hf : Projects f S S') {s s' : State W Res α} {e : Event W Res α}
    (h : Step S s e s') : Step S' (s.map f) (e.map f) (s'.map f) := by
  cases h with
  | @call w _ pre post t o k r hr hd =>
    have hs : Step S' ⟨f w, pre.map (Thread.map f) ++ t.map f :: post.map (Thread.map f)⟩ _ _ :=
      .call (show (t.map f).rest = .op o k from hr) (hf.does hd)
    simp only [State.map, Event.map, map_append]
    exact hs
  | env hm => exact .env (hf.env hm)
  | @start w ts p hstarts =>
    have hs : Step S' ⟨f w, ts.map (Thread.map f)⟩ _ _ := .start (hf.starts hstarts)
    simp only [State.map, map_append]
    exact hs

end

/-! ## Schedules -/

/-- One choice of a schedule: the next call of a thread with the answer to it, the start of a thread, or a move of the
environment. -/
inductive Choice (W : Type) (Res : O → Type) (α : Type) where
  | call (i : Nat) (exec : (o : O) → W → Res o × W)
  | start (p : Prog Res α)
  | env (move : W → W)

/-- The next call of thread `i`; a thread that has none leaves the state. -/
def advance (exec : (o : O) → W → Res o × W) (i : Nat) (s : State W Res α) : List (Event W Res α) × State W Res α :=
  match s.threads[i]? with
  | none => ([], s)
  | some t =>
    match t.rest with
    | .pure _ => ([], s)
    | .op o k =>
      ([.call s t o (exec o s.world).1 (exec o s.world).2],
        ⟨(exec o s.world).2, s.threads.set i ⟨t.born, t.past ++ [⟨o, (exec o s.world).1⟩], k (exec o s.world).1⟩⟩)

def Choice.play (s : State W Res α) : Choice W Res α → List (Event W Res α) × State W Res α
  | .start p => ([.start s p], ⟨s.world, s.threads ++ [⟨s.world, [], p⟩]⟩)
  | .call i exec => advance exec i s
  | .env move => ([.env s (move s.world)], ⟨move s.world, s.threads⟩)

def play : List (Choice W Res α) → State W Res α → List (Event W Res α) × State W Res α
  | [], s => ([], s)
  | c :: cs, s => ((c.play s).1 ++ (play cs (c.play s).2).1, (play cs (c.play s).2).2)

def Choice.Legal (S : System W Res α) (s : State W Res α) : Choice W Res α → Prop
  | .call _ exec => ∀ o, S.does o s.world (exec o s.world).1 (exec o s.world).2
  | .start p => S.starts s.world p
  | .env move => S.env s.world (move s.world)

def Legal (S : System W Res α) : List (Choice W Res α) → State W Res α → Prop
  | [], _ => True
  | c :: cs, s => c.Legal S s ∧ Legal S cs (c.play s).2

theorem legal_of_forall {S : System W Res α} : ∀ {cs : List (Choice W Res α)}, (∀ c ∈ cs, ∀ s, c.Legal S s) →
    ∀ s, Legal S cs s
  | [], _, _ => trivial
  | _ :: _, h, s => ⟨(forall_mem_cons.1 h).1 s, legal_of_forall (forall_mem_cons.1 h).2 _⟩

theorem Run.append {S : System W Res α} {s s' s'' : State W Res α} {es es' : List (Event W Res α)} (h : Run S s es s')
    (h' : Run S s' es' s'') : Run S s (es ++ es') s'' := by
  induction h' with
  | nil =>
    rw [append_nil]
    exact h
  | snoc _ hs ih =>
    rw [← append_assoc]
    exact .snoc ih hs

theorem advance_run {S : System W Res α} {exec : (o : O) → W → Res o × W} (i : Nat) (s : State W Res α)
    (he : ∀ o, S.does o s.world (exec o s.world).1 (exec o s.world).2) :
    Run S s (advance exec i s).1 (advance exec i s).2 := by
  unfold advance
  cases ht : s.threads[i]? with
  | none => exact .nil
  | some t =>
    simp only
    cases hr : t.rest with
    | pure => exact .nil
    | op o k =>
      obtain ⟨hi, hg⟩ := List.getElem?_eq_some_iff.1 ht
      have hs : s = ⟨s.world, s.threads.take i ++ t :: s.threads.drop (i + 1)⟩ := by
        rw [← hg, ← drop_eq_getElem_cons hi, take_append_drop]
      have hstep : Step S ⟨s.world, s.threads.take i ++ t :: s.threads.drop (i + 1)⟩
          (.call ⟨s.world, s.threads.take i ++ t :: s.threads.drop (i + 1)⟩ t o (exec o s.world).1 (exec o s.world).2)
          ⟨(exec o s.world).2, s.threads.take i ++ ⟨t.born, t.past ++ [⟨o, (exec o s.world).1⟩], k (exec o s.world).1⟩ ::
            s.threads.drop (i + 1)⟩ := .call hr (he o)
      rw [← hs, ← set_eq_take_cons_drop _ hi] at hstep
      exact Run.snoc .nil hstep

theorem Choice.play_run {S : System W Res α} {c : Choice W Res α} {s : State W Res α} (h : c.Legal S s) :
    Run S s (c.play s).1 (c.play s).2 := by
  cases c with
  | call i => exact advance_run i s h
  | start => exact Run.snoc .nil (.start h)
  | env => exact Run.snoc .nil (.env h)

theorem play_run {S : System W Res α} : ∀ {cs : List (Choice W Res α)} {s : State W Res α}, Legal S cs s →
    Run S s (play cs s).1 (play cs s).2
  | [], _, _ => .nil
  | _ :: _, _, h => (Choice.play_run h.1).append (play_run h.2)

end Prog
end Jamsesh
