import Jamsesh.Text
import Mathlib.Data.List.AList
import Mathlib.Data.List.Sort
/-!
# Router — which pod a request is sent to (`router/extract`, `router/ring`, `router/cache`, `router/proxy`)

A request without a session id goes to the pods in turn; one with a session goes to the pod that the hint cache has, if that
is still there, and otherwise to the one that the ring gives.  A pod that cannot be reached is replaced once, by the next one
of the ring.
-/
namespace Jamsesh.Routing

open List
open Text (hasPrefix hasSuffix)

/-! ## `extract.go` -/

/-- What the router reads of a request: the path, and the `Jam-Session-Id` header (empty when absent). -/
structure Request where
  path : Text
  jamSessionId : Text
deriving DecidableEq

def segment (s : Text) : Text := s.takeWhile (· != '/')

def afterSlash (s : Text) : Option Text :=
  match s.dropWhile (· != '/') with
  | [] => none
  | _ :: rest => some rest

def extractRESTSessionID (path : Text) : Text :=
  let pre := "/api/orgs/".toList
  if !hasPrefix path pre then []
  else
    match afterSlash (path.drop pre.length) with
    | none => []
    | some rest =>
      let sessionsKey := "sessions/".toList
      if !hasPrefix rest sessionsKey then [] else segment (rest.drop sessionsKey.length)

def extractWSSessionID (path : Text) : Text := segment (path.drop "/ws/sessions/".length)

def extractGitSessionID (path : Text) : Text :=
  match afterSlash (path.drop "/git/".length) with
  | none => []
  | some rest =>
    let rawSeg := segment rest
    if !hasSuffix rawSeg ".git".toList then [] else rawSeg.take (rawSeg.length - 4)

def trimSlash (path : Text) : Text := if path.length > 1 && path.getLast? = some '/' then path.dropLast else path

def sessionID (r : Request) : Text :=
  let path := trimSlash r.path
  if path = "/healthz".toList || path = "/readyz".toList || path = "/metrics".toList || hasPrefix path "/metrics/".toList ||
      path = "/auth".toList || hasPrefix path "/auth/".toList then []
  else if hasPrefix path "/api/".toList then extractRESTSessionID path
  else if hasPrefix path "/ws/sessions/".toList then extractWSSessionID path
  else if hasPrefix path "/git/".toList then extractGitSessionID path
  else r.jamSessionId

/-! ## `ring.go` -/

structure Pod where
  id : Text
  address : Text
deriving DecidableEq

structure VNode where
  hash : UInt64
  podID : Text
deriving DecidableEq

/-- **`ringSnapshot`**: virtual nodes in the order of their hashes, each of a pod of the map. -/
structure Ring where
  vnodes : List VNode
  pods : AList (fun _ : Text => Pod)
  sorted : vnodes.Pairwise (fun v w => v.hash ≤ w.hash)
  known : ∀ v ∈ vnodes, v.podID ∈ pods
  ids : ∀ e ∈ pods.entries, e.2.id = e.1

/-- `fnv.New64a` over the bytes of a text. -/
def fnv64a (s : Text) : UInt64 :=
  (s.flatMap String.utf8EncodeChar).foldl (fun h b => (h ^^^ b.toUInt64) * 1099511628211) 14695981039346656037

/-- `hashVnode`: the hash of `podID:i`. -/
def hashVnode (podID : Text) (i : Nat) : UInt64 := fnv64a (podID ++ ':' :: Nat.toDigits 10 i)

def hashKey (key : Text) : UInt64 := fnv64a key

/-- The map of `SetPods`: of two pods with one id the last. -/
def podMap (pods : List Pod) : AList (fun _ : Text => Pod) := pods.foldl (fun m p => m.insert p.id p) ∅

theorem podMap_spec (pods : List Pod) :
    (∀ p ∈ pods, p.id ∈ podMap pods) ∧ ∀ e ∈ (podMap pods).entries, e.2.id = e.1 := by
  have hf : ∀ (pods : List Pod) (m : AList (fun _ : Text => Pod)), (∀ e ∈ m.entries, e.2.id = e.1) →
      (∀ id, id ∈ m ∨ (∃ p ∈ pods, p.id = id) → id ∈ pods.foldl (fun m p => m.insert p.id p) m) ∧
        ∀ e ∈ (pods.foldl (fun m p => m.insert p.id p) m).entries, e.2.id = e.1 := by
    intro pods
    induction pods with
    | nil =>
      refine fun m hm => ⟨fun _ hid => ?_, hm⟩
      rcases hid with hid | ⟨p, hp, -⟩
      · exact hid
      · cases hp
    | cons p _ ih =>
      intro m hm
      obtain ⟨hmem, hi⟩ := ih (m.insert p.id p) fun e he => by
        rw [AList.entries_insert] at he
        rcases mem_cons.1 he with rfl | he
        · rfl
        · exact hm e ((kerase_sublist _ _).subset he)
      refine ⟨fun id hid => hmem id ?_, hi⟩
      rcases hid with hid | ⟨q, hq, rfl⟩
      · exact .inl (AList.mem_insert _ |>.2 (.inr hid))
      · rcases mem_cons.1 hq with rfl | hq
        · exact .inl (AList.mem_insert _ |>.2 (.inl rfl))
        · exact .inr ⟨q, hq, rfl⟩
  obtain ⟨hmem, hi⟩ := hf pods ∅ fun e he => absurd he not_mem_nil
  exact ⟨fun p hp => hmem p.id (.inr ⟨p, hp, rfl⟩), hi⟩

/-- `SetPods` with any hash of the nodes; nodes with one hash, which `sort.Slice` leaves in any order, stay in theirs. -/
def Ring.setPodsWith (hashVnode : Text → Nat → UInt64) (vnodeCount : Nat) (pods : List Pod) : Ring where
  vnodes := (pods.flatMap (fun p => (List.range vnodeCount).map (fun i => ⟨hashVnode p.id i, p.id⟩))).insertionSort
    (fun v w => v.hash ≤ w.hash)
  pods := podMap pods
  sorted := by
    have : Std.Total (fun v w : VNode => v.hash ≤ w.hash) := ⟨fun v w => UInt64.le_total v.hash w.hash⟩
    have : IsTrans VNode (fun v w => v.hash ≤ w.hash) := ⟨fun _ _ _ => UInt64.le_trans⟩
    exact pairwise_insertionSort _ _
  known := by
    intro v hv
    obtain ⟨p, hp, hv⟩ := mem_flatMap.1 ((perm_insertionSort _ _).mem_iff.1 hv)
    obtain ⟨i, -, rfl⟩ := mem_map.1 hv
    exact (podMap_spec pods).1 p hp
  ids := (podMap_spec pods).2

def Ring.setPods (vnodeCount : Nat) (pods : List Pod) : Ring := .setPodsWith hashVnode vnodeCount pods

/-- `sort.Search` on the sorted slice, from the start again when nothing is found. -/
def Ring.start (r : Ring) (key : Text) : Nat :=
  let idx := r.vnodes.findIdx (fun v => hashKey key ≤ v.hash)
  if idx = r.vnodes.length then 0 else idx

/-- `Ring.Get`, with `none` for the zero pod. -/
def Ring.get (r : Ring) (key : Text) : Option Pod := (r.vnodes[r.start key]?).bind (fun v => r.pods.lookup v.podID)

/-- `Ring.GetNext`: from the place of the key on, the first other pod. -/
def Ring.getNext (r : Ring) (key skipID : Text) : Option Pod :=
  let turned := r.vnodes.drop (r.start key) ++ r.vnodes.take (r.start key)
  (turned.tail.find? (fun v => v.podID ≠ skipID)).bind (fun v => r.pods.lookup v.podID)

/-- The pods of the ring; the order of `Pods` is that of a Go map. -/
def Ring.podList (r : Ring) : List Pod := r.pods.entries.map (·.2)

/-! ## `hint.go` -/

structure HintEntry where
  sessionID : Text
  podID : Text
  expiry : Nat
deriving DecidableEq

/-- **`cache.Hint`**: the entries, the most recently used first. -/
structure Hint where
  maxEntries : Nat
  ttl : Nat
  entries : List HintEntry
deriving DecidableEq

def Hint.invalidate (h : Hint) (sessionID : Text) : Hint :=
  { h with entries := h.entries.filter (fun e => e.sessionID ≠ sessionID) }

def Hint.get (h : Hint) (now : Nat) (sessionID : Text) : Option Text × Hint :=
  match h.entries.find? (fun e => e.sessionID = sessionID) with
  | none => (none, h)
  | some e =>
    if e.expiry < now then (none, h.invalidate sessionID)
    else (some e.podID, { h with entries := e :: (h.invalidate sessionID).entries })

def Hint.set (h : Hint) (now : Nat) (sessionID podID : Text) : Hint :=
  let entry : HintEntry := ⟨sessionID, podID, now + h.ttl⟩
  if h.entries.any (fun e => e.sessionID = sessionID) then { h with entries := entry :: (h.invalidate sessionID).entries }
  else
    let kept := if h.entries.length ≥ h.maxEntries then h.entries.dropLast else h.entries
    { h with entries := entry :: kept }

/-! ## `proxy.go` -/

/-- The router: the ring, the hint cache, and the counter of the round robin. -/
structure Router where
  ring : Ring
  hint : Hint
  counter : Nat

/-- `resolvePod`: the hinted pod where it is still in the ring, else the ring's. -/
def Router.resolvePod (r : Router) (now : Nat) (sessionID : Text) : Option Pod × Router :=
  match r.hint.get now sessionID with
  | (some podID, hint) =>
    match r.ring.podList.find? (fun p => p.id = podID) with
    | some p => (some p, { r with hint })
    | none => (r.ring.get sessionID, { r with hint := hint.invalidate sessionID })
  | (none, hint) => (r.ring.get sessionID, { r with hint })

/-! ## Two requests -/

theorem sessionID_wsTicket (jamSessionId : Text) : sessionID ⟨"/api/auth/ws-ticket".toList, jamSessionId⟩ = [] := by
  have hp : trimSlash "/api/auth/ws-ticket".toList = "/api/auth/ws-ticket".toList := by decide
  unfold sessionID
  rw [hp]
  rfl

theorem not_hasPrefix_of_second {s p : Text} {c : Char} (hp : p[1]? = some c) (hs : s[1]? ≠ some c) : hasPrefix s p = false := by
  rw [Bool.eq_false_iff, Ne, Text.hasPrefix_iff]
  rintro ⟨_, rfl⟩
  rw [List.getElem?_append_left (List.getElem?_eq_some_iff.1 hp).1, hp] at hs
  exact hs rfl

theorem sessionID_ws {id : Text} (hid : id ≠ []) (hslash : '/' ∉ id) (jamSessionId : Text) :
    sessionID ⟨"/ws/sessions/".toList ++ id, jamSessionId⟩ = id := by
  have hl : ("/ws/sessions/".toList ++ id).getLast? ≠ some '/' := by
    rw [List.getLast?_append_of_ne_nil _ hid]
    exact fun h => hslash (mem_of_getLast? h)
  have hpath : trimSlash ("/ws/sessions/".toList ++ id) = "/ws/sessions/".toList ++ id := by
    rw [trimSlash, decide_eq_false hl, Bool.and_false]
    rfl
  have hsegment : segment id = id := by
    rw [segment, takeWhile_eq_self_iff]
    intro c hc
    have hne : c ≠ '/' := fun h => hslash (h ▸ hc)
    simpa using hne
  have hs : ("/ws/sessions/".toList ++ id)[1]? = some 'w' := rfl
  have ho : ∀ {p : Text} {c : Char}, p[1]? = some c → c ≠ 'w' → hasPrefix ("/ws/sessions/".toList ++ id) p = false ∧
      "/ws/sessions/".toList ++ id ≠ p := by
    intro p c hp hc
    refine ⟨not_hasPrefix_of_second hp ?_, fun h => ?_⟩
    · rw [hs]
      exact fun h => hc (Option.some.inj h).symm
    · rw [h, hp] at hs
      exact hc (Option.some.inj hs)
  have hh := ho (p := "/healthz".toList) rfl (by decide)
  have hr := ho (p := "/readyz".toList) rfl (by decide)
  have hm := ho (p := "/metrics".toList) rfl (by decide)
  have hm' := ho (p := "/metrics/".toList) rfl (by decide)
  have ha := ho (p := "/auth".toList) rfl (by decide)
  have ha' := ho (p := "/auth/".toList) rfl (by decide)
  have hapi := ho (p := "/api/".toList) rfl (by decide)
  unfold sessionID
  simp only [hpath, hh.2, hr.2, hm.2, ha.2, hm'.1, ha'.1, hapi.1, decide_false, Bool.or_false,
    Bool.false_eq_true, if_false, Text.hasPrefix_append, if_true]
  have hd : ("/ws/sessions/".toList ++ id).drop "/ws/sessions/".length = id := rfl
  rw [extractWSSessionID, hd, hsegment]

end Jamsesh.Routing
