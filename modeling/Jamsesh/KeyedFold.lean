import Mathlib.Data.Finmap
/-!
# KeyedFold — loops over a map whose rounds touch one key each

Each round of a loop reads and writes a map at a key of its own, may fail, and logs something.  As no two items share a key,
every round reads what the map held at the start (`run_spec`), and two orders agree on the map and, up to order, on the log
(`run_perm`).
-/
namespace Jamsesh.KeyedFold

open Finmap List

variable {A K V O ε : Type} [DecidableEq K]

/-- What a round does: leave the entry (`none`), or put or delete it, and what it logs. -/
structure Effect (V O : Type) where
  put : Option (Option V)
  out : List O

abbrev Map (K V : Type) := Finmap (fun _ : K => V)

def Map.set (m : Map K V) (k : K) : Option V → Map K V
  | some v => m.insert k v
  | none => m.erase k

def Effect.on (e : Effect V O) (m : Map K V) (k : K) : Map K V :=
  match e.put with
  | none => m
  | some v => Map.set m k v

def run (key : A → K) (eff : A → Option V → Except ε (Effect V O)) : List A → Map K V → List O →
    Except ε (Map K V × List O)
  | [], m, log => .ok (m, log)
  | a :: as, m, log =>
    match eff a (m.lookup (key a)) with
    | .error e => .error e
    | .ok e => run key eff as (e.on m (key a)) (log ++ e.out)

theorem Map.lookup_set_self (m : Map K V) (k : K) (v : Option V) : (Map.set m k v).lookup k = v := by
  cases v with
  | none => exact lookup_erase k m
  | some => exact lookup_insert m

theorem Map.lookup_set_ne (m : Map K V) {k l : K} (h : l ≠ k) (v : Option V) : (Map.set m k v).lookup l = m.lookup l := by
  cases v with
  | none => exact lookup_erase_ne h
  | some => exact lookup_insert_of_ne m h

theorem Effect.lookup_on_self (e : Effect V O) (m : Map K V) (k : K) : (e.on m k).lookup k = e.put.getD (m.lookup k) := by
  unfold Effect.on
  cases e.put with
  | none => rfl
  | some v => exact Map.lookup_set_self m k v

theorem Effect.lookup_on_ne (e : Effect V O) (m : Map K V) {k l : K} (h : l ≠ k) : (e.on m k).lookup l = m.lookup l := by
  unfold Effect.on
  cases e.put with
  | none => rfl
  | some v => exact Map.lookup_set_ne m h v

variable (key : A → K) (eff : A → Option V → Except ε (Effect V O))

/-- **A run that ends**: every round's effect is that of the starting map, and the rounds' effects are all there is. -/
structure Result (as : List A) (m : Map K V) (log : List O) (m' : Map K V) (log' : List O) (es : A → Effect V O) : Prop where
  effect : ∀ a ∈ as, eff a (m.lookup (key a)) = .ok (es a)
  entry : ∀ a ∈ as, m'.lookup (key a) = (es a).put.getD (m.lookup (key a))
  frame : ∀ k, k ∉ as.map key → m'.lookup k = m.lookup k
  log_eq : log' = log ++ as.flatMap (fun a => (es a).out)

/-- What the round over `a` does to a map it is given. -/
def effectAt (m : Map K V) (a : A) : Effect V O :=
  match eff a (m.lookup (key a)) with
  | .ok e => e
  | .error _ => ⟨none, []⟩

theorem run_spec : ∀ (as : List A) (m m' : Map K V) (log log' : List O), (as.map key).Nodup →
    run key eff as m log = .ok (m', log') → Result key eff as m log m' log' (effectAt key eff m)
  | [], m, m', log, log', _, h => by
    cases h
    exact ⟨by simp, by simp, fun _ _ => rfl, by simp⟩
  | a :: as, m, m', log, log', hnd, h => by
    rw [map_cons, nodup_cons] at hnd
    obtain ⟨hna, hnd⟩ := hnd
    rw [run] at h
    split at h
    · cases h
    rename_i e he
    have hr := run_spec as (e.on m (key a)) m' _ log' hnd h
    -- the keys still to come read the map as it was
    have hread : ∀ b ∈ as, (e.on m (key a)).lookup (key b) = m.lookup (key b) := fun b hb =>
      Effect.lookup_on_ne e m (fun hk => hna (hk ▸ mem_map_of_mem hb))
    have heff : ∀ b ∈ as, effectAt key eff (e.on m (key a)) b = effectAt key eff m b := fun b hb => by
      rw [effectAt, hread b hb, effectAt]
    have hea : effectAt key eff m a = e := by rw [effectAt, he]
    refine ⟨?_, ?_, ?_, ?_⟩
    · intro b hb
      rcases mem_cons.1 hb with rfl | hb
      · rw [he, hea]
      · rw [← hread b hb, ← heff b hb]
        exact hr.effect b hb
    · intro b hb
      rcases mem_cons.1 hb with rfl | hb
      · rw [hr.frame _ hna, Effect.lookup_on_self, hea]
      · rw [hr.entry b hb, hread b hb, heff b hb]
    · intro k hk
      rw [map_cons, mem_cons, not_or] at hk
      rw [hr.frame k hk.2, Effect.lookup_on_ne e m hk.1]
    · rw [hr.log_eq, flatMap_cons, hea, append_assoc]
      congr 2
      exact flatMap_congr fun b hb => by rw [heff b hb]

theorem run_total : ∀ (as : List A) (m : Map K V) (log : List O), (as.map key).Nodup →
    (∀ a ∈ as, ∃ e, eff a (m.lookup (key a)) = .ok e) → ∃ r, run key eff as m log = .ok r
  | [], m, log, _, _ => ⟨(m, log), rfl⟩
  | a :: as, m, log, hnd, h => by
    rw [map_cons, nodup_cons] at hnd
    obtain ⟨hna, hnd⟩ := hnd
    obtain ⟨e, he⟩ := h a mem_cons_self
    rw [run, he]
    refine run_total as _ _ hnd (fun b hb => ?_)
    have hne : key b ≠ key a := fun hk => hna (hk ▸ mem_map_of_mem hb)
    rw [Effect.lookup_on_ne e m hne]
    exact h b (mem_cons_of_mem a hb)

theorem run_perm {as bs : List A} (hp : as.Perm bs) (hnd : (as.map key).Nodup) {m m' : Map K V} {log : List O}
    (h : run key eff as m [] = .ok (m', log)) : ∃ log', run key eff bs m [] = .ok (m', log') ∧ log.Perm log' := by
  have hs := run_spec key eff as m m' [] log hnd h
  have hn' : (bs.map key).Nodup := (hp.map key).nodup_iff.1 hnd
  obtain ⟨⟨m'', log'⟩, h'⟩ := run_total key eff bs m [] hn'
    (fun b hb => ⟨_, hs.effect b (hp.mem_iff.2 hb)⟩)
  have hs' := run_spec key eff bs m m'' [] log' hn' h'
  have hm : m'' = m' := by
    refine ext_lookup (fun k => ?_)
    by_cases hk : k ∈ as.map key
    · obtain ⟨a, ha, rfl⟩ := mem_map.1 hk
      rw [hs.entry a ha, hs'.entry a (hp.mem_iff.1 ha)]
    · rw [hs.frame k hk, hs'.frame k (fun h => hk ((hp.map key).mem_iff.2 h))]
  refine ⟨log', by rw [h', hm], ?_⟩
  rw [hs.log_eq, hs'.log_eq, nil_append, nil_append]
  exact hp.flatMap_right _

end Jamsesh.KeyedFold
