import Jamsesh.RingLaws
/-!
# ProxyRetry — one request, at most two attempts (`router/proxy/proxy.go`)

Where the first pod answers 503, or not at all, the router sends the request on to the next pod of the ring, once, if the body
can be sent again.  A lost connection also comes after the pod has executed the request, so at most one pod executes it exactly
when a first pod that has executed it is not replaced (`executed_once_iff`).
-/
namespace Jamsesh.Routing

/-! ## Attempts -/

/-- What becomes of the request at one pod; `executed` says whether the pod has carried it out.  An answer is whole: none is
cut off in its body. -/
inductive Upstream where
  | refused
  | reset (executed : Bool)
  | upgraded (executed : Bool)
  /-- the pod gives its final answer; one that does not say its length is streamed -/
  | respond (status : Nat) (streamed executed : Bool)
deriving DecidableEq

def Upstream.executed : Upstream → Bool
  | .refused => false
  | .reset executed | .upgraded executed | .respond _ _ executed => executed

structure BufferedResponse where
  status : Nat
  wrote : Bool
  committed : Bool
  transportErr : Bool
deriving DecidableEq

def proxyTo : Upstream → BufferedResponse
  | .refused | .reset _ => ⟨0, false, false, true⟩
  | .upgraded _ => ⟨0, false, true, false⟩
  | .respond status streamed _ => ⟨status, true, streamed, false⟩

structure Attempt where
  pod : Pod
  upstream : Upstream
deriving DecidableEq

inductive Reply where
  | direct (pod : Pod)
  | answer (pod : Pod) (status : Nat)
  | badGateway (pod : Pod)
  | noBackend
deriving DecidableEq

def writeFirstFailure (pod : Pod) (br : BufferedResponse) : Reply :=
  if br.transportErr ∧ !br.wrote then .badGateway pod else .answer pod br.status

def Attempt.reply (a : Attempt) : Reply :=
  if (proxyTo a.upstream).committed then .direct a.pod else writeFirstFailure a.pod (proxyTo a.upstream)

/-! ## `ServeHTTP` -/

/-- The body of a request, or the beginning of one that cannot be read to its end. -/
inductive Body where
  | none
  | bytes (content : List UInt8)
  | unreadable (content : List UInt8)
deriving DecidableEq

def maxRetryBodyBytes : Nat := 1048576

/-- `prepareRetryBody`: whether the body can be sent a second time. -/
def Body.retrySafe : Body → Bool
  | .none => true
  | .bytes content => content.length ≤ maxRetryBodyBytes
  | .unreadable _ => false

structure Served where
  attempts : List Attempt
  client : List Reply
  router : Router

/-- The first attempt has failed: it is surfaced, or the next pod of the ring gets its turn. -/
def Router.redispatch (r : Router) (sessionID : Text) (body : Body) (up : Nat → Pod → Upstream) (pod : Pod) : Served :=
  let first : Attempt := ⟨pod, up 0 pod⟩
  let r := { r with hint := r.hint.invalidate sessionID }
  match r.ring.getNext sessionID pod.id with
  | none => ⟨[first], [writeFirstFailure pod (proxyTo first.upstream)], r⟩
  | some retryPod =>
    if retryPod.address = [] ∨ retryPod.id = pod.id ∨ !body.retrySafe then
      ⟨[first], [writeFirstFailure pod (proxyTo first.upstream)], r⟩
    else
      let retry := proxyTo (up 1 retryPod)
      ⟨[first, ⟨retryPod, up 1 retryPod⟩],
        [if retry.committed then .direct retryPod else writeFirstFailure retryPod retry], r⟩

/-- `Handler.ServeHTTP` for a request with a session; `up i` is what the pods do at attempt `i`. -/
def Router.serveSession (r : Router) (now : Nat) (sessionID : Text) (body : Body) (up : Nat → Pod → Upstream) : Served :=
  match r.resolvePod now sessionID with
  | (none, r) => ⟨[], [.noBackend], r⟩
  | (some pod, r) =>
    if pod.address = [] then ⟨[], [.noBackend], r⟩
    else
      let first := proxyTo (up 0 pod)
      if first.committed then ⟨[⟨pod, up 0 pod⟩], [.direct pod], r⟩
      else if !first.transportErr ∧ first.status ≠ 503 then
        ⟨[⟨pod, up 0 pod⟩], [.answer pod first.status],
          if first.status = 0 ∨ 200 ≤ first.status ∧ first.status < 300 then
            { r with hint := r.hint.set now sessionID pod.id }
          else r⟩
      else r.redispatch sessionID body up pod

def Router.turn (r : Router) (pods : List Pod) : Option Pod := pods[(r.counter % 2 ^ 64) % pods.length]?

/-- `roundRobinFallback`: the pod whose turn it is, once and straight through. -/
def Router.fallback (r : Router) (pods : List Pod) (up : Nat → Pod → Upstream) : Served :=
  match r.turn pods with
  | none => ⟨[], [.noBackend], r⟩
  | some pod =>
    ⟨[⟨pod, up 0 pod⟩], [if (proxyTo (up 0 pod)).transportErr then .badGateway pod else .direct pod],
      { r with counter := r.counter + 1 }⟩

/-- **`Handler.ServeHTTP`**, when the ring's pods are listed in this order. -/
def Router.serveHTTP (r : Router) (now : Nat) (pods : List Pod) (body : Body) (up : Nat → Pod → Upstream) (req : Request) :
    Served :=
  if sessionID req = [] then r.fallback pods up else r.serveSession now (sessionID req) body up

/-- The pod of the last attempt, where it has carried the request out. -/
def Served.server (served : Served) : Option Pod := (served.attempts.getLast?.filter (·.upstream.executed)).map (·.pod)

/-! ## At most once -/

def Upstream.failed (u : Upstream) : Prop :=
  (proxyTo u).committed = false ∧ ((proxyTo u).transportErr = true ∨ (proxyTo u).status = 503)

/-- **One request**: at most two attempts, on distinct pods; one reply, that of an attempt if there is any; at most one pod
executes it; and there is a second attempt only where the first pod has not. -/
structure ExecutedOnce (served : Served) : Prop where
  attempts : served.attempts.length ≤ 2
  distinct : (served.attempts.map (·.pod.id)).Nodup
  client : ∃ reply, served.client = [reply] ∧
    (served.attempts = [] ∧ reply = .noBackend ∨ ∃ a ∈ served.attempts, reply = a.reply)
  executed : (served.attempts.filter (·.upstream.executed)).length ≤ 1
  second : ∀ a b, served.attempts = [a, b] → a.upstream.executed = false

/-- **A first pod that fails after it has executed the request is not replaced**: there is no other pod to go to, or the body
cannot be sent again. -/
def NotReplaced (r : Router) (now : Nat) (sessionID : Text) (body : Body) (up : Nat → Pod → Upstream) : Prop :=
  ∀ pod ∈ (r.resolvePod now sessionID).1, pod.address ≠ [] → (up 0 pod).failed → (up 0 pod).executed = true →
    body.retrySafe = false ∨ ∀ next ∈ r.ring.getNext sessionID pod.id, next.address = []

variable {r : Router} {now : Nat} {sessionID : Text} {body : Body} {up : Nat → Pod → Upstream}

theorem resolvePod_ring (r : Router) (now : Nat) (sessionID : Text) : (r.resolvePod now sessionID).2.ring = r.ring := by
  unfold Router.resolvePod
  split
  · split <;> rfl
  · rfl

theorem getNext_ne {ring : Ring} {key skipID : Text} {p : Pod} (h : ring.getNext key skipID = some p) : p.id ≠ skipID := by
  rw [getNext_eq, Option.bind_eq_some_iff] at h
  obtain ⟨v, hv, hp⟩ := h
  have hne : v.podID ≠ skipID := by simpa using List.find?_some hv
  rw [lookup_id ring hp]
  exact hne

theorem executedOnce_single {a : Attempt} {r : Router} : ExecutedOnce ⟨[a], [a.reply], r⟩ where
  attempts := by simp
  distinct := by simp
  client := ⟨a.reply, rfl, .inr ⟨a, List.mem_cons_self, rfl⟩⟩
  executed := List.length_filter_le _ _
  second := fun _ _ h => by cases h

theorem executedOnce_none {r : Router} : ExecutedOnce ⟨[], [.noBackend], r⟩ where
  attempts := by simp
  distinct := by simp
  client := ⟨_, rfl, .inl ⟨rfl, rfl⟩⟩
  executed := by simp
  second := fun _ _ h => by cases h

theorem executedOnce_pair {a b : Attempt} {r : Router} (hne : a.pod.id ≠ b.pod.id) :
    ExecutedOnce ⟨[a, b], [b.reply], r⟩ ↔ a.upstream.executed = false := by
  refine ⟨fun h => h.second a b rfl, fun ha => ⟨by simp, by simpa using hne, ?_, ?_, fun _ _ h => ?_⟩⟩
  · exact ⟨b.reply, rfl, .inr ⟨b, by simp, rfl⟩⟩
  · rw [List.filter_cons_of_neg (by simp [ha])]
    exact List.length_filter_le _ _
  · cases h
    exact ha

theorem reply_of_failed {pod : Pod} {u : Upstream} (h : u.failed) :
    writeFirstFailure pod (proxyTo u) = Attempt.reply ⟨pod, u⟩ := by
  simp [Attempt.reply, h.1]

theorem redispatch_executedOnce_iff {pod : Pod} (hf : (up 0 pod).failed) :
    ExecutedOnce (r.redispatch sessionID body up pod) ↔ ((up 0 pod).executed = true → body.retrySafe = false ∨
        ∀ next ∈ r.ring.getNext sessionID pod.id, next.address = []) := by
  unfold Router.redispatch
  cases hn : r.ring.getNext sessionID pod.id with
  | none =>
    simp only [hn, reply_of_failed hf]
    exact iff_of_true executedOnce_single fun _ => .inr fun _ h => by cases h
  | some next =>
    have hne : next.id ≠ pod.id := getNext_ne hn
    simp only [hn, hne, false_or, Option.mem_some_iff, forall_eq', Bool.not_eq_true']
    by_cases hs : next.address = [] ∨ body.retrySafe = false
    · rw [if_pos hs, reply_of_failed hf]
      exact iff_of_true executedOnce_single fun _ => hs.symm
    rw [if_neg hs, show (if (proxyTo (up 1 next)).committed = true then Reply.direct next else
      writeFirstFailure next (proxyTo (up 1 next))) = Attempt.reply ⟨next, up 1 next⟩ from rfl,
      executedOnce_pair (fun h => hne h.symm)]
    simp only [or_comm, hs, imp_false, Bool.not_eq_true]

/-- **At most one pod executes a request exactly when** a first pod that fails after executing it is not replaced. -/
theorem executed_once_iff (r : Router) (now : Nat) (sessionID : Text) (body : Body) (up : Nat → Pod → Upstream) :
    ExecutedOnce (r.serveSession now sessionID body up) ↔ NotReplaced r now sessionID body up := by
  have hring := resolvePod_ring r now sessionID
  unfold Router.serveSession NotReplaced
  rcases hresolve : r.resolvePod now sessionID with ⟨pod, _⟩
  rw [hresolve] at hring
  cases pod with
  | none => exact iff_of_true executedOnce_none fun _ h => by cases h
  | some pod =>
    simp only [Option.mem_some_iff, forall_eq']
    by_cases haddress : pod.address = []
    · simp only [haddress]
      exact iff_of_true executedOnce_none fun h => absurd rfl h
    by_cases hc : (proxyTo (up 0 pod)).committed = true
    · -- the connection or a stream: there is nothing left to retry
      have hr : Attempt.reply ⟨pod, up 0 pod⟩ = .direct pod := if_pos hc
      simp only [haddress, hc]
      rw [← hr]
      exact iff_of_true executedOnce_single fun _ hf => by rw [hf.1] at hc; cases hc
    by_cases ha : (!(proxyTo (up 0 pod)).transportErr) = true ∧ (proxyTo (up 0 pod)).status ≠ 503
    · have hr : Attempt.reply ⟨pod, up 0 pod⟩ = .answer pod (proxyTo (up 0 pod)).status := by
        have he : (proxyTo (up 0 pod)).transportErr = false := by simpa using ha.1
        simp [Attempt.reply, hc, writeFirstFailure, he]
      simp only [haddress, hc, ha, ne_eq]
      rw [← hr]
      refine iff_of_true executedOnce_single fun _ hf => ?_
      rcases hf.2 with he | hs
      · simp [he] at ha
      · exact absurd hs ha.2
    · have hf : (up 0 pod).failed := by
        refine ⟨by simpa using hc, ?_⟩
        by_contra hn
        rw [not_or] at hn
        exact ha ⟨by simpa using hn.1, hn.2⟩
      rw [if_neg haddress, if_neg hc, if_neg ha, redispatch_executedOnce_iff hf, hring]
      simp [haddress, hf]

def threePodRouter : Router := ⟨Ring.setPods 1 threePods, ⟨100, 60, []⟩, 0⟩

def lostAnswer (attempt : Nat) (_ : Pod) : Upstream := if attempt = 0 then .reset true else .respond 200 false true

/-- **Two pods execute one request**: the connection to the first is lost after it has executed the request. -/
theorem executed_twice :
    (threePodRouter.serveSession 0 "s".toList (.bytes [1]) lostAnswer).attempts =
        [⟨podA, .reset true⟩, ⟨podC, .respond 200 false true⟩] ∧
      ¬ ExecutedOnce (threePodRouter.serveSession 0 "s".toList (.bytes [1]) lostAnswer) := by
  have ha : (threePodRouter.serveSession 0 "s".toList (.bytes [1]) lostAnswer).attempts =
      [⟨podA, .reset true⟩, ⟨podC, .respond 200 false true⟩] := by
    decide +kernel
  exact ⟨ha, fun ho => by cases ho.second _ _ ha⟩

/-! ## A first pod that answers 503 -/

/-- **The first answer stays hidden**: there is one more attempt, on another pod, and the client gets its reply. -/
def FailsOver (served : Served) (pod : Pod) : Prop :=
  ∃ a b, served.attempts = [a, b] ∧ a.pod = pod ∧ b.pod.id ≠ pod.id ∧ served.client = [b.reply]

theorem not_failsOver_single {a : Attempt} {client : List Reply} {pod : Pod} : ¬ FailsOver ⟨[a], client, r⟩ pod := by
  rintro ⟨b, _, ha, -⟩
  cases ha

theorem redispatch_failsOver_iff {pod : Pod} (hb : body.retrySafe = true) :
    FailsOver (r.redispatch sessionID body up pod) pod ↔
      ∃ next, r.ring.getNext sessionID pod.id = some next ∧ next.address ≠ [] := by
  unfold Router.redispatch
  cases hn : r.ring.getNext sessionID pod.id with
  | none => simp [hn, not_failsOver_single]
  | some next =>
    have hne : next.id ≠ pod.id := getNext_ne hn
    by_cases ha : next.address = []
    · simp [hn, ha, not_failsOver_single]
    · simp only [hn, ha, hne, hb]
      exact iff_of_true ⟨_, _, rfl, rfl, hne, rfl⟩ ⟨next, rfl, ha⟩

/-- **A 503 of the first pod is hidden exactly when** it is not streamed and the walk of the ring comes to another pod with an
address. -/
theorem unavailable_hidden_iff (r : Router) (now : Nat) (sessionID : Text) {body : Body} (hbody : body.retrySafe = true)
    {up : Nat → Pod → Upstream} {pod : Pod} (hpod : (r.resolvePod now sessionID).1 = some pod) (haddress : pod.address ≠ [])
    {streamed executed : Bool} (h503 : up 0 pod = .respond 503 streamed executed) :
    FailsOver (r.serveSession now sessionID body up) pod ↔
      streamed = false ∧ ∃ next, r.ring.getNext sessionID pod.id = some next ∧ next.address ≠ [] := by
  have hring := resolvePod_ring r now sessionID
  unfold Router.serveSession
  rcases hr : r.resolvePod now sessionID with ⟨_, _⟩
  rw [hr] at hring hpod
  cases hpod
  simp only [haddress, h503, proxyTo]
  cases streamed with
  | true => simp [not_failsOver_single]
  | false =>
    simp only [Bool.false_eq_true, if_false, ne_eq, not_true_eq_false, and_false, true_and]
    rw [redispatch_failsOver_iff hbody, hring]

def firstUnavailable (streamed : Bool) (attempt : Nat) (_ : Pod) : Upstream :=
  if attempt = 0 then .respond 503 streamed false else .respond 200 false true

/-- Both sides hold: `c` is there to go on to. -/
theorem unavailable_hidden_iff_buffered :
    FailsOver (threePodRouter.serveSession 0 "s".toList .none (firstUnavailable false)) podA :=
  (unavailable_hidden_iff threePodRouter 0 "s".toList rfl (by decide +kernel) (by decide) rfl).2
    ⟨rfl, podC, by decide +kernel, by decide⟩

/-- **A streamed 503 is shown**: the flush commits it, and there is no second attempt although two more pods are there. -/
theorem streamed_503_shown :
    (threePodRouter.resolvePod 0 "s".toList).1 = some podA ∧ (∃ p ∈ threePodRouter.ring.podList, p.id ≠ podA.id) ∧
      (threePodRouter.serveSession 0 "s".toList .none (firstUnavailable true)).client = [.direct podA] ∧
      ¬ FailsOver (threePodRouter.serveSession 0 "s".toList .none (firstUnavailable true)) podA := by
  refine ⟨by decide +kernel, by decide +kernel, by decide +kernel, ?_⟩
  have ha : (threePodRouter.serveSession 0 "s".toList .none (firstUnavailable true)).attempts =
      [⟨podA, .respond 503 true false⟩] := by decide +kernel
  rintro ⟨a, b, hp, -⟩
  rw [ha] at hp
  cases hp

end Jamsesh.Routing
