import Jamsesh.HashRing
import Jamsesh.Router
/-!
# RingLaws — which pod owns a key when pods come and go (`router/ring/ring.go`)

`SetPods` and `Get` with any two hash functions.  Where no two pods share a hash, the order of the list does not matter, a pod
that leaves moves only its own keys and one that joins takes over the keys it moves (`ring_laws`).  `sort.Slice` promises nothing
about nodes with one hash, so a ring of pods is any sorted list of their nodes (`Built`), that of `SetPods` too.  `GetNext`
gives what the ring without the skipped pod gives exactly when that pod owns the key, or the owner also has the next node
(`getNext_iff`).
-/
namespace Jamsesh.Routing

open List
open HashRing (turned)

/-! ## Rings of any hash functions -/

def podVNodes (hashVnode : Text → Nat → UInt64) (vnodeCount : Nat) (pods : List Pod) : List VNode :=
  pods.flatMap (fun p => (List.range vnodeCount).map (fun i => ⟨hashVnode p.id i, p.id⟩))

/-- **A ring of the pods**: their nodes in some order that is sorted, and their map. -/
structure Built (hashVnode : Text → Nat → UInt64) (vnodeCount : Nat) (pods : List Pod) (r : Ring) : Prop where
  vnodes : r.vnodes.Perm (podVNodes hashVnode vnodeCount pods)
  lookup : ∀ id, r.pods.lookup id = (podMap pods).lookup id

theorem built_setPods (hashVnode : Text → Nat → UInt64) (vnodeCount : Nat) (pods : List Pod) :
    Built hashVnode vnodeCount pods (.setPodsWith hashVnode vnodeCount pods) :=
  ⟨perm_insertionSort _ _, fun _ => rfl⟩

/-- `Ring.Get` with any hash of the keys. -/
def Ring.getWith (hashKey : Text → UInt64) (r : Ring) (key : Text) : Option Pod :=
  let idx := r.vnodes.findIdx (fun v => hashKey key ≤ v.hash)
  (r.vnodes[if idx = r.vnodes.length then 0 else idx]?).bind (fun v => r.pods.lookup v.podID)

theorem get_eq_getWith (r : Ring) (key : Text) : r.get key = r.getWith hashKey key := rfl

instance : Std.Total (fun v w : VNode => v.hash ≤ w.hash) := ⟨fun v w => UInt64.le_total v.hash w.hash⟩

instance : IsTrans VNode (fun v w => v.hash ≤ w.hash) := ⟨fun _ _ _ => UInt64.le_trans⟩

/-! ## The walk from a key -/

section
variable {r : Ring}

theorem upward_of_sorted (h : UInt64) : HashRing.Upward (fun v : VNode => decide (h ≤ v.hash)) r.vnodes :=
  r.sorted.imp fun hvw hv => decide_eq_true (UInt64.le_trans (of_decide_eq_true hv) hvw)

def Ring.walk (r : Ring) (h : UInt64) : List VNode := turned (fun v => decide (h ≤ v.hash)) r.vnodes

theorem walk_eq (r : Ring) (h : UInt64) :
    r.vnodes.drop (HashRing.place (fun v => decide (h ≤ v.hash)) r.vnodes) ++
      r.vnodes.take (HashRing.place (fun v => decide (h ≤ v.hash)) r.vnodes) = r.walk h :=
  HashRing.turned_eq (upward_of_sorted h)

theorem head?_walk (r : Ring) (h : UInt64) :
    (r.walk h).head? = r.vnodes[HashRing.place (fun v => decide (h ≤ v.hash)) r.vnodes]? := by
  rw [← walk_eq, List.head?_append, List.head?_drop]
  cases r.vnodes with
  | nil => rfl
  | cons v l =>
    have hlt : HashRing.place (fun v => decide (h ≤ v.hash)) (v :: l) < (v :: l).length := by
      unfold HashRing.place
      split
      · simp
      · exact Nat.lt_of_le_of_ne findIdx_le_length ‹_›
    rw [List.getElem?_eq_getElem hlt]
    rfl

theorem getWith_eq (hashKey : Text → UInt64) (r : Ring) (key : Text) :
    r.getWith hashKey key = ((r.walk (hashKey key)).head?).bind (fun v => r.pods.lookup v.podID) := by
  rw [head?_walk]
  rfl

theorem getNext_eq (r : Ring) (key skipID : Text) :
    r.getNext key skipID =
      ((r.walk (hashKey key)).tail.find? (fun v => decide (v.podID ≠ skipID))).bind (fun v => r.pods.lookup v.podID) := by
  rw [← walk_eq]
  rfl

end

/-! ## Pods by their ids -/

theorem lookup_podMap_append (pods pods' : List Pod) (id : Text) :
    (podMap (pods ++ pods')).lookup id = ((podMap pods').lookup id).or ((podMap pods).lookup id) := by
  induction pods' using List.reverseRecOn with
  | nil => simp [podMap]
  | append_singleton _ p ih =>
    have hl : ∀ l : List Pod, podMap (l ++ [p]) = (podMap l).insert p.id p := fun l => by simp [podMap]
    rw [← append_assoc, hl, hl]
    by_cases hid : id = p.id
    · subst hid
      rw [AList.lookup_insert, AList.lookup_insert]
      rfl
    · rw [AList.lookup_insert_ne hid, AList.lookup_insert_ne hid, ih]

theorem lookup_podMap_cons (p : Pod) (pods : List Pod) (id : Text) :
    (podMap (p :: pods)).lookup id = ((podMap pods).lookup id).or (if id = p.id then some p else none) := by
  rw [← singleton_append, lookup_podMap_append]
  congr 1
  by_cases hid : id = p.id
  · subst hid
    rw [if_pos rfl]
    exact AList.lookup_insert _
  · rw [if_neg hid]
    exact AList.lookup_insert_ne hid

theorem lookup_podMap_filter (q : Text → Bool) (pods : List Pod) {id : Text} (hq : q id = true) :
    (podMap (pods.filter (fun p => q p.id))).lookup id = (podMap pods).lookup id := by
  induction pods with
  | nil => rfl
  | cons p _ ih =>
    rw [lookup_podMap_cons, filter_cons]
    by_cases hp : q p.id = true
    · rw [if_pos hp, lookup_podMap_cons, ih]
    · have hne : id ≠ p.id := fun h => hp (h ▸ hq)
      rw [if_neg hp, if_neg hne, ih, Option.or_none]

theorem lookup_podMap_of_nodup {pods : List Pod} (hi : (pods.map (·.id)).Nodup) {p : Pod} {id : Text} :
    (podMap pods).lookup id = some p ↔ p ∈ pods ∧ p.id = id := by
  induction pods generalizing p with
  | nil => simp [podMap]
  | cons q _ ih =>
    rw [map_cons, nodup_cons] at hi
    rw [lookup_podMap_cons, Option.or_eq_some_iff, ih hi.2, mem_cons]
    constructor
    · rintro (⟨hp, hid⟩ | ⟨-, hq⟩)
      · exact ⟨.inr hp, hid⟩
      · split at hq <;> cases hq
        exact ⟨.inl rfl, Eq.symm ‹_›⟩
    · rintro ⟨rfl | hp, rfl⟩
      · refine .inr ⟨Option.eq_none_iff_forall_ne_some.2 fun p' hp' => ?_, if_pos rfl⟩
        obtain ⟨hm, hid⟩ := (ih hi.2).1 hp'
        exact hi.1 (mem_map.2 ⟨p', hm, hid⟩)
      · exact .inl ⟨hp, rfl⟩

/-! ## The laws -/

def Separate (hashVnode : Text → Nat → UInt64) (vnodeCount : Nat) (pods : List Pod) : Prop :=
  ∀ v ∈ podVNodes hashVnode vnodeCount pods, ∀ w ∈ podVNodes hashVnode vnodeCount pods, v.hash = w.hash → v.podID = w.podID

instance (hashVnode : Text → Nat → UInt64) (vnodeCount : Nat) (pods : List Pod) :
    Decidable (Separate hashVnode vnodeCount pods) :=
  inferInstanceAs (Decidable (∀ v ∈ podVNodes hashVnode vnodeCount pods, ∀ w ∈ podVNodes hashVnode vnodeCount pods,
    v.hash = w.hash → v.podID = w.podID))

section
variable {hashVnode : Text → Nat → UInt64} {hashKey : Text → UInt64} {vnodeCount : Nat} {pods pods' : List Pod} {r r' : Ring}

theorem filter_podVNodes (q : Text → Bool) :
    (podVNodes hashVnode vnodeCount pods).filter (fun v => q v.podID) =
      podVNodes hashVnode vnodeCount (pods.filter (fun p => q p.id)) := by
  unfold podVNodes
  induction pods with
  | nil => rfl
  | cons p _ ih =>
    rw [flatMap_cons, filter_append, ih, filter_map, filter_cons]
    cases hq : q p.id <;> simp [Function.comp_def, hq]

theorem vnodes_eq (hs : Separate hashVnode vnodeCount pods) {l l' : List VNode}
    (hm : ∀ v ∈ l, v ∈ podVNodes hashVnode vnodeCount pods) (hl : l.Pairwise (fun v w => v.hash ≤ w.hash))
    (hl' : l'.Pairwise (fun v w => v.hash ≤ w.hash)) (hp : l'.Perm l) : l' = l := by
  refine List.Perm.eq_of_pairwise (fun v w hv hw hvw hwv => ?_) hl' hl hp
  have hh : v.hash = w.hash := UInt64.le_antisymm hvw hwv
  have hid : v.podID = w.podID := hs v (hm v (hp.mem_iff.1 hv)) w (hm w hw) hh
  cases v
  cases w
  simp_all

theorem Built.perm (hi : (pods.map (·.id)).Nodup) (hp : pods.Perm pods') (hr : Built hashVnode vnodeCount pods r) :
    Built hashVnode vnodeCount pods' r := by
  refine ⟨hr.vnodes.trans (hp.flatMap_right _), fun _ => ?_⟩
  rw [hr.lookup]
  ext p
  rw [lookup_podMap_of_nodup hi, lookup_podMap_of_nodup ((hp.map _).nodup_iff.1 hi), hp.mem_iff]

theorem Separate.perm (hp : pods.Perm pods') (h : Separate hashVnode vnodeCount pods) :
    Separate hashVnode vnodeCount pods' := fun v hv w hw =>
  h v ((hp.flatMap_right _).mem_iff.2 hv) w ((hp.flatMap_right _).mem_iff.2 hw)

theorem getWith_unique (hs : Separate hashVnode vnodeCount pods) (hr : Built hashVnode vnodeCount pods r)
    (hr' : Built hashVnode vnodeCount pods r') (key : Text) : r'.getWith hashKey key = r.getWith hashKey key := by
  have hn : r'.vnodes = r.vnodes :=
    vnodes_eq hs (fun _ hv => hr.vnodes.mem_iff.1 hv) r.sorted r'.sorted (hr'.vnodes.trans hr.vnodes.symm)
  unfold Ring.getWith
  simp only [hn, hr.lookup, hr'.lookup]

theorem getWith_filter {q : Text → Bool} (hn : r'.vnodes = r.vnodes.filter (fun v => q v.podID))
    (hp : ∀ id, r.pods.lookup id = (podMap pods).lookup id)
    (hp' : ∀ id, r'.pods.lookup id = (podMap (pods.filter (fun p => q p.id))).lookup id) (key : Text) :
    r'.getWith hashKey key = ((r.walk (hashKey key)).find? (fun v => q v.podID)).bind (fun v => r.pods.lookup v.podID) := by
  rw [getWith_eq, Ring.walk, hn, HashRing.head?_turned_filter, ← Ring.walk]
  cases hf : (r.walk (hashKey key)).find? (fun v => q v.podID) with
  | none => rfl
  | some v =>
    have hq : q v.podID = true := by simpa using List.find?_some hf
    rw [Option.bind_some, Option.bind_some, hp, hp', lookup_podMap_filter q pods hq]

theorem getWith_without {x : Pod} (hi : ((x :: pods).map (·.id)).Nodup) (hs : Separate hashVnode vnodeCount (x :: pods))
    (hr : Built hashVnode vnodeCount (x :: pods) r) (hr' : Built hashVnode vnodeCount pods r') {key : Text}
    (hk : r.getWith hashKey key ≠ some x) : r'.getWith hashKey key = r.getWith hashKey key := by
  have hrest : (x :: pods).filter (fun p => decide (p.id ≠ x.id)) = pods := by
    rw [map_cons, nodup_cons] at hi
    rw [filter_cons_of_neg (by simp), filter_eq_self]
    exact fun p hp => decide_eq_true fun h => hi.1 (h ▸ mem_map_of_mem hp)
  have hperm : r'.vnodes.Perm (r.vnodes.filter (fun v => decide (v.podID ≠ x.id))) := by
    refine hr'.vnodes.trans ?_
    conv => lhs; rw [← hrest]
    rw [← filter_podVNodes (fun id => decide (id ≠ x.id))]
    exact hr.vnodes.symm.filter _
  have hn := vnodes_eq hs (fun _ hv => hr.vnodes.mem_iff.1 (mem_filter.1 hv).1) (r.sorted.filter _) r'.sorted hperm
  rw [getWith_filter (q := fun id => decide (id ≠ x.id)) hn hr.lookup (by rw [hrest]; exact hr'.lookup), getWith_eq]
  rw [getWith_eq] at hk
  cases hw : r.walk (hashKey key) with
  | nil => rfl
  | cons v =>
    have hne : v.podID ≠ x.id := fun hid => by
      rw [hw, List.head?_cons, Option.bind_some, hid, hr.lookup] at hk
      exact hk ((lookup_podMap_of_nodup hi).2 ⟨mem_cons_self, rfl⟩)
    rw [List.find?_cons_of_pos (by simpa using hne), List.head?_cons]

/-- **The laws of `SetPods`**: neither the order of the pods nor that of nodes with one hash matters; a pod that leaves moves
only its own keys; and a key that a new pod moves goes to it. -/
theorem ring_laws (hashKey : Text → UInt64) (hids : (pods.map (·.id)).Nodup) (hsep : Separate hashVnode vnodeCount pods) :
    let get := fun (l : List Pod) (key : Text) => (Ring.setPodsWith hashVnode vnodeCount l).getWith hashKey key
    (∀ pods', pods'.Perm pods →
      get pods' = get pods ∧ ∀ r, Built hashVnode vnodeCount pods' r → ∀ key, r.getWith hashKey key = get pods key) ∧
    (∀ x pods', pods.Perm (x :: pods') → ∀ key, get pods key ≠ some x → get pods' key = get pods key) ∧
    ∀ x pods', pods'.Perm (x :: pods) → x.id ∉ pods.map (·.id) → Separate hashVnode vnodeCount pods' →
      ∀ key, get pods' key = get pods key ∨ get pods' key = some x := by
  intro get
  have hb := built_setPods hashVnode vnodeCount
  have hany : ∀ pods', pods'.Perm pods → ∀ r, Built hashVnode vnodeCount pods' r →
      ∀ key, r.getWith hashKey key = get pods key := fun _ hp r hr =>
    getWith_unique hsep (hb pods) (hr.perm ((hp.map _).nodup_iff.2 hids) hp)
  refine ⟨fun pods' hp => ⟨funext (hany pods' hp _ (hb pods')), hany pods' hp⟩, fun x pods' hp key hk => ?_,
    fun x pods' hp hx hs' key => ?_⟩
  · exact getWith_without ((hp.map _).nodup_iff.1 hids) (hsep.perm hp) ((hb pods).perm hids hp) (hb pods') hk
  · have hi' : ((x :: pods).map (·.id)).Nodup := nodup_cons.2 ⟨hx, hids⟩
    by_cases hk : get pods' key = some x
    · exact .inr hk
    · exact .inl (getWith_without hi' (hs'.perm hp) ((hb pods').perm ((hp.map _).nodup_iff.2 hi') hp) (hb pods) hk).symm

end

def podA : Pod := ⟨"a".toList, "10.0.0.1:80".toList⟩

def podB : Pod := ⟨"b".toList, "10.0.0.2:80".toList⟩

def podC : Pod := ⟨"c".toList, "10.0.0.3:80".toList⟩

def twoPods : List Pod := [podA, podB]

theorem ring_laws_twoPods : (twoPods.map (·.id)).Nodup ∧ Separate hashVnode 2 twoPods ∧
    ∀ key, ((Ring.setPods 2 twoPods).get key ≠ some podB → (Ring.setPods 2 [podA]).get key = (Ring.setPods 2 twoPods).get key) ∧
      ((Ring.setPods 2 twoPods).get key ≠ some podA → (Ring.setPods 2 [podB]).get key = (Ring.setPods 2 twoPods).get key) := by
  have hids : (twoPods.map (·.id)).Nodup := by decide
  have hsep : Separate hashVnode 2 twoPods := by decide +kernel
  exact ⟨hids, hsep, fun key => ⟨(ring_laws hashKey hids hsep).2.1 podB [podA] (.swap _ _ _) key,
    (ring_laws hashKey hids hsep).2.1 podA [podB] (.refl _) key⟩⟩

/-! ## The pod behind a skipped one -/

theorem lookup_id (r : Ring) {id : Text} {p : Pod} (h : r.pods.lookup id = some p) : p.id = id :=
  r.ids ⟨id, p⟩ (AList.mem_lookup_iff.1 h)

theorem lookup_of_mem {r : Ring} {v : VNode} (hv : v ∈ r.vnodes) : ∃ p, r.pods.lookup v.podID = some p ∧ p.id = v.podID := by
  obtain ⟨p, hp⟩ := Option.isSome_iff_exists.1 (AList.lookup_isSome.2 (r.known v hv))
  exact ⟨p, hp, lookup_id r hp⟩

theorem vnodes_setPods_filter (vnodeCount : Nat) (pods : List Pod) (q : Text → Bool) :
    (Ring.setPods vnodeCount (pods.filter (fun p => q p.id))).vnodes =
      (Ring.setPods vnodeCount pods).vnodes.filter (fun v => q v.podID) := by
  have hf := HashRing.filter_insertionSort (fun v w : VNode => v.hash ≤ w.hash) (fun v => q v.podID)
    (podVNodes hashVnode vnodeCount pods)
  rw [filter_podVNodes] at hf
  exact hf.symm

/-- **What a retry expects of `GetNext`** on the ring `r`, `r'` being the ring without the skipped pod. -/
structure SkipsTo (r r' : Ring) (key skipID : Text) : Prop where
  same : r.getNext key skipID = r'.get key
  other : (∃ v ∈ r.vnodes, v.podID ≠ skipID) → ∃ p, r.getNext key skipID = some p ∧ p.id ≠ skipID
  owner : ∀ p, r.get key = some p → p.id ≠ skipID → r.getNext key skipID = some p

/-- **The nodes from the key on** begin with one of the skipped pod, or with two of one pod that only nodes of the skipped pod
separate. -/
def SkipSafe (skipID : Text) : List VNode → Prop
  | [] => True
  | v :: rest => v.podID = skipID ∨
    ∃ between w others, rest = between ++ w :: others ∧ (∀ u ∈ between, u.podID = skipID) ∧ w.podID = v.podID

theorem skipSafe_cons_iff {skipID : Text} {v : VNode} {rest : List VNode} (hv : v.podID ≠ skipID) :
    SkipSafe skipID (v :: rest) ↔ ∃ w, rest.find? (fun u => decide (u.podID ≠ skipID)) = some w ∧ w.podID = v.podID := by
  simp only [SkipSafe, hv, false_or, List.find?_eq_some_iff_append]
  constructor
  · rintro ⟨between, w, others, rfl, hb, hw⟩
    exact ⟨w, ⟨by simpa [hw] using hv, between, others, rfl, fun u hu => by simp [hb u hu]⟩, hw⟩
  · rintro ⟨w, ⟨-, between, others, rfl, hb⟩, hw⟩
    exact ⟨between, w, others, rfl, fun u hu => by simpa using hb u hu, hw⟩

section
variable {r r' : Ring} {key skipID : Text}
  (hwithout : r'.get key =
    ((r.walk (hashKey key)).find? (fun v => decide (v.podID ≠ skipID))).bind (fun v => r.pods.lookup v.podID))

include hwithout in
theorem skipsTo_of_skipped (hskip : ∀ v ∈ (r.walk (hashKey key)).head?, v.podID = skipID) : SkipsTo r r' key skipID := by
  have hf : (r.walk (hashKey key)).find? (fun v => decide (v.podID ≠ skipID)) =
      (r.walk (hashKey key)).tail.find? (fun v => decide (v.podID ≠ skipID)) := by
    cases hwalk : r.walk (hashKey key) with
    | nil => rfl
    | cons v => rw [List.find?_cons_of_neg (by simp [hskip v (by simp [hwalk])]), tail_cons]
  refine ⟨by rw [hwithout, getNext_eq, hf], fun ⟨v, hv, hne⟩ => ?_, fun p hp hne => ?_⟩
  · have hs : ((r.walk (hashKey key)).find? (fun v => decide (v.podID ≠ skipID))).isSome = true :=
      List.find?_isSome.2 ⟨v, HashRing.mem_turned.2 hv, by simpa using hne⟩
    obtain ⟨w, hw⟩ := Option.isSome_iff_exists.1 hs
    obtain ⟨p, hp, hid⟩ := lookup_of_mem (HashRing.mem_turned.1 (mem_of_find?_eq_some hw))
    have hwne : w.podID ≠ skipID := by simpa using List.find?_some hw
    exact ⟨p, by rw [getNext_eq, ← hf, hw, Option.bind_some, hp], by rw [hid]; exact hwne⟩
  · rw [get_eq_getWith, getWith_eq, Option.bind_eq_some_iff] at hp
    obtain ⟨v, hv, hp⟩ := hp
    exact absurd ((lookup_id r hp).trans (hskip v hv)) hne

include hwithout in
theorem skipsTo_iff_of_ne {v : VNode} {rest : List VNode} (hwalk : r.walk (hashKey key) = v :: rest) (hv : v.podID ≠ skipID) :
    SkipsTo r r' key skipID ↔ ∃ w, rest.find? (fun u => decide (u.podID ≠ skipID)) = some w ∧ w.podID = v.podID := by
  have hm : ∀ u ∈ v :: rest, u ∈ r.vnodes := fun u hu => HashRing.mem_turned.1 (by rw [← hwalk] at hu; exact hu)
  obtain ⟨p, hp, hid⟩ := lookup_of_mem (hm v mem_cons_self)
  have hg : r.get key = some p := by rw [get_eq_getWith, getWith_eq, hwalk]; exact hp
  have hg' : r'.get key = some p := by
    rw [hwithout, hwalk, List.find?_cons_of_pos (by simpa using hv), Option.bind_some, hp]
  have hn : r.getNext key skipID =
      (rest.find? (fun u => decide (u.podID ≠ skipID))).bind (fun u => r.pods.lookup u.podID) := by
    rw [getNext_eq, hwalk, tail_cons]
  constructor
  · intro h
    have hs := h.same
    rw [hg', hn, Option.bind_eq_some_iff] at hs
    obtain ⟨w, hw, hwp⟩ := hs
    exact ⟨w, hw, (lookup_id r hwp).symm.trans hid⟩
  · rintro ⟨w, hw, hwv⟩
    have hf : r.getNext key skipID = some p := by rw [hn, hw, Option.bind_some, hwv, hp]
    refine ⟨hf.trans hg'.symm, fun _ => ⟨p, hf, by rw [hid]; exact hv⟩, fun p' hp' _ => ?_⟩
    rw [hf, ← hg, hp']

end

/-- **`GetNext` is `Get` without the skipped pod exactly when** that pod owns the key, or the owner also has the next node of
another pod than the skipped one. -/
theorem getNext_iff (vnodeCount : Nat) (pods : List Pod) (key skipID : Text) :
    SkipsTo (Ring.setPods vnodeCount pods) (Ring.setPods vnodeCount (pods.filter (fun p => decide (p.id ≠ skipID)))) key
        skipID ↔
      SkipSafe skipID ((Ring.setPods vnodeCount pods).walk (hashKey key)) := by
  generalize hr' : Ring.setPods vnodeCount (pods.filter (fun p => decide (p.id ≠ skipID))) = r'
  generalize hr : Ring.setPods vnodeCount pods = r
  have hwithout : r'.get key =
      ((r.walk (hashKey key)).find? (fun v => decide (v.podID ≠ skipID))).bind (fun v => r.pods.lookup v.podID) := by
    subst hr hr'
    have hp : ∀ l id, (Ring.setPods vnodeCount l).pods.lookup id = (podMap l).lookup id := fun _ _ => rfl
    exact getWith_filter (q := fun id => decide (id ≠ skipID))
      (vnodes_setPods_filter vnodeCount pods (fun id => decide (id ≠ skipID))) (hp pods) (hp _) key
  cases hw : r.walk (hashKey key) with
  | nil => exact iff_of_true (skipsTo_of_skipped hwithout (by simp [hw])) trivial
  | cons v =>
    by_cases hv : v.podID = skipID
    · exact iff_of_true (skipsTo_of_skipped hwithout (by simpa [hw] using hv)) (.inl hv)
    · rw [skipSafe_cons_iff hv, skipsTo_iff_of_ne hwithout hw hv]

def threePods : List Pod := [podA, podB, podC]

/-- **A retry past a hinted pod misses the owner**: `b` failed, `a` owns the key, and `GetNext` gives `c`. -/
theorem getNext_misses_owner :
    (Ring.setPods 1 threePods).get "s".toList = some podA ∧
      (Ring.setPods 1 (threePods.filter (fun p => decide (p.id ≠ podB.id)))).get "s".toList = some podA ∧
      (Ring.setPods 1 threePods).getNext "s".toList podB.id = some podC := by
  decide +kernel

end Jamsesh.Routing
