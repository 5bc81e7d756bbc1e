import Jamsesh.Machine
import Jamsesh.ProxyRetry
/-!
# WsTickets — tickets for WebSocket upgrades behind the router (`wsgateway/tickets.go`, `wsgateway/gateway.go`)

A client gets a ticket by a request without a session, which the router gives to the pods in turn, and presents it on an upgrade,
which the router sends by its session.  The ticket is in the memory of the first pod only.  Along every run in which nobody else
presents it, the upgrade is authenticated exactly when the router sends it to that pod (`upgrade_authenticated_iff`).
-/
namespace Jamsesh.WsGateway

open Machine Routing

/-! ## `TicketStore` -/

/-- `TicketTTL`, in seconds. -/
def ticketTTL : Nat := 60

structure Ticket where
  account : Text
  expiresAt : Nat
deriving DecidableEq

/-- The entries of a `TicketStore`, by the ticket's text. -/
abbrev TicketStore : Type := Text → Option Ticket

/-- `Issue`, for a random text. -/
def TicketStore.issue (ts : TicketStore) (now : Nat) (tok account : Text) : TicketStore :=
  Function.update ts tok (some ⟨account, now + ticketTTL⟩)

/-- `Consume`: the entry is taken out, and its account given where it has not expired. -/
def TicketStore.consume (ts : TicketStore) (now : Nat) (tok : Text) : Option Text × TicketStore :=
  match ts tok with
  | none => (none, ts)
  | some t => (if now > t.expiresAt then none else some t.account, Function.update ts tok none)

def TicketStore.sweep (ts : TicketStore) (now : Nat) : TicketStore := fun tok => (ts tok).filter (fun t => ¬ t.expiresAt < now)

/-! ## Pods behind a router -/

/-- The router, the pods it cannot reach, the time, and the ticket store of the pod at each address. -/
structure Cluster where
  router : Router
  down : Text → Bool
  now : Nat
  stores : Text → TicketStore

/-- What a pod does with a request, `u` unless the router cannot reach it. -/
def Cluster.up (c : Cluster) (u : Upstream) (_ : Nat) (pod : Pod) : Upstream := if c.down pod.address then .refused else u

/-- `POST /api/auth/ws-ticket`, by an account: the pod that answers with the new ticket. -/
def Cluster.postTicket (c : Cluster) (pods : List Pod) (jamSessionId account tok : Text) : Option Pod × Cluster :=
  let served := c.router.serveHTTP c.now pods .none (c.up (.respond 200 false true)) ⟨"/api/auth/ws-ticket".toList, jamSessionId⟩
  match served.server with
  | none => (none, { c with router := served.router })
  | some p =>
    (some p, { c with
      router := served.router
      stores := Function.update c.stores p.address ((c.stores p.address).issue c.now tok account) })

/-- What an upgrade comes to at `Gateway.Handler`, up to the check of the ticket. -/
inductive Answer where
  | noBackend
  | unauthorized
  | authenticated (account : Text)
deriving DecidableEq

/-- `GET /ws/sessions/{id}` with a ticket.  The pod takes the connection over or refuses, and the router treats both alike: it
hints nothing and tries no other pod. -/
def Cluster.upgrade (c : Cluster) (pods : List Pod) (id jamSessionId tok : Text) : Answer × Cluster :=
  let served := c.router.serveHTTP c.now pods .none (c.up (.upgraded true)) ⟨"/ws/sessions/".toList ++ id, jamSessionId⟩
  match served.server with
  | none => (.noBackend, { c with router := served.router })
  | some p =>
    let (account, store) := (c.stores p.address).consume c.now tok
    (match account with
      | none => .unauthorized
      | some a => .authenticated a,
      { c with router := served.router, stores := Function.update c.stores p.address store })

/-- What happens to the cluster: requests for tickets, upgrades, other requests through the router, sweeps, time, the
discovery of pods, and pods that stop or start. -/
inductive Action where
  | post (pods : List Pod) (jamSessionId account tok : Text)
  | upgrade (pods : List Pod) (id jamSessionId tok : Text)
  | sweep (address : Text)
  | wait (seconds : Nat)
  | request (pods : List Pod) (body : Body) (up : Nat → Pod → Upstream) (req : Request)
  | discover (ring : Ring)
  | outage (down : Text → Bool)

def Cluster.step (c : Cluster) : Action → Option Cluster
  | .post pods jamSessionId account tok => some (c.postTicket pods jamSessionId account tok).2
  | .upgrade pods id jamSessionId tok => some (c.upgrade pods id jamSessionId tok).2
  | .sweep address => some { c with stores := Function.update c.stores address ((c.stores address).sweep c.now) }
  | .wait seconds => some { c with now := c.now + seconds }
  | .request pods body up req => some { c with router := (c.router.serveHTTP c.now pods body up req).router }
  | .discover ring => some { c with router := { c.router with ring } }
  | .outage down => some { c with down }

def Action.Leaves (tok : Text) : Action → Prop
  | .post _ _ _ tok' => tok' ≠ tok
  | .upgrade _ _ _ tok' => tok' ≠ tok
  | _ => True

/-! ## A ticket stays where it is -/

section
variable {ts : TicketStore} {now : Nat} {tok tok' account : Text}

theorem issue_ne (h : tok' ≠ tok) : ts.issue now tok' account tok = ts tok := Function.update_of_ne h.symm _ _

theorem consume_ne (h : tok' ≠ tok) : (ts.consume now tok').2 tok = ts tok := by
  unfold TicketStore.consume
  split
  · rfl
  · exact Function.update_of_ne h.symm _ _

theorem sweep_eq {t : Option Ticket} (h : ts tok = t) (hl : ∀ x, t = some x → now ≤ x.expiresAt) : ts.sweep now tok = t := by
  rw [TicketStore.sweep, h]
  cases t with
  | none => rfl
  | some x =>
    have hx := hl x rfl
    simp [hx]

end

/-- **The ticket is in one store**, with its expiry, and in no other, while the expiry has not passed. -/
structure Held (tok : Text) (t : Ticket) (address : Text) (c : Cluster) : Prop where
  here : c.now ≤ t.expiresAt → c.stores address tok = some t
  elsewhere : ∀ a, a ≠ address → c.stores a tok = none

section
variable {tok : Text} {t : Ticket} {address : Text} {c c' : Cluster}

theorem Held.update (h : Held tok t address c) {a : Text} {ts : TicketStore}
    (hts : c.now ≤ t.expiresAt ∨ a ≠ address → ts tok = c.stores a tok) {router : Router} :
    Held tok t address { c with router, stores := Function.update c.stores a ts } := by
  have hs : ∀ b, c.now ≤ t.expiresAt ∨ b ≠ address → Function.update c.stores a ts b tok = c.stores b tok := by
    intro b hb
    by_cases hba : b = a
    · subst hba
      rw [Function.update_self, hts hb]
    · rw [Function.update_of_ne hba]
  exact ⟨fun hn => (hs address (.inl hn)).trans (h.here hn),
    fun b hb => (hs b (.inr hb)).trans (h.elsewhere b hb)⟩

theorem Held.step {a : Action} (h : Held tok t address c) (ha : a.Leaves tok) (hs : c.step a = some c') :
    Held tok t address c' := by
  cases a with cases hs
  | post =>
    unfold Cluster.postTicket
    dsimp only
    split
    · exact ⟨h.here, h.elsewhere⟩
    · exact h.update fun _ => issue_ne ha
  | upgrade =>
    unfold Cluster.upgrade
    dsimp only
    split
    · exact ⟨h.here, h.elsewhere⟩
    · exact h.update fun _ => consume_ne ha
  | sweep a =>
    refine h.update fun hc => ?_
    by_cases ha' : a = address
    · subst ha'
      rcases hc with hn | hne
      · refine sweep_eq rfl fun x hx => ?_
        rw [h.here hn] at hx
        cases hx
        exact hn
      · exact absurd rfl hne
    · rw [h.elsewhere a ha']
      exact sweep_eq (h.elsewhere a ha') fun x hx => by cases hx
  | wait =>
    exact ⟨fun hn => h.here (Nat.le_trans (Nat.le_add_right _ _) hn), h.elsewhere⟩
  | request | discover | outage =>
    exact ⟨h.here, h.elsewhere⟩

theorem Held.run {as : List Action} (h : Held tok t address c) (has : ∀ a ∈ as, a.Leaves tok)
    (hr : exec Cluster.step c as = some c') : Held tok t address c' := by
  have hs : ∀ c a c', Held tok t address c → a.Leaves tok → c.step a = some c' → Held tok t address c' :=
    fun _ _ _ hI ha hs => hI.step ha hs
  exact invariant hs h (along_forall has) hr

end

/-! ## Where the ticket is asked for and where it is shown -/

theorem server_fallback {r : Router} {pods : List Pod} {up : Nat → Pod → Upstream} {p : Pod}
    (h : (r.fallback pods up).server = some p) : r.turn pods = some p := by
  unfold Router.fallback at h
  cases ht : r.turn pods with
  | none => simp [ht, Served.server] at h
  | some pod =>
    simp only [ht, Served.server, List.getLast?_singleton, Option.map_eq_some_iff, Option.filter_eq_some_iff] at h
    obtain ⟨a, ⟨ha, -⟩, rfl⟩ := h
    rw [← Option.some.inj ha]

/-- The session's pod, where an upgrade reaches one. -/
def Cluster.home (c : Cluster) (id : Text) : Option Pod := (c.router.serveSession c.now id .none (c.up (.upgraded true))).server

theorem postTicket_held {c c₁ : Cluster} {pods : List Pod} {jamSessionId account tok : Text} {p : Pod}
    (hf : ∀ a, c.stores a tok = none) (hp : c.postTicket pods jamSessionId account tok = (some p, c₁)) :
    c.router.turn pods = some p ∧ Held tok ⟨account, c.now + ticketTTL⟩ p.address c₁ := by
  unfold Cluster.postTicket at hp
  simp only [Router.serveHTTP, sessionID_wsTicket jamSessionId, if_true] at hp
  split at hp <;> cases hp
  refine ⟨server_fallback ‹_›, fun _ => ?_, fun a ha => ?_⟩
  · exact (congrFun (Function.update_self _ _ _) tok).trans (Function.update_self _ _ _)
  · exact (congrFun (Function.update_of_ne ha _ _) tok).trans (hf a)

theorem upgrade_answer {c : Cluster} {pods : List Pod} {id jamSessionId tok : Text} (hid : id ≠ []) (hs : '/' ∉ id) :
    (c.upgrade pods id jamSessionId tok).1 =
      match c.home id with
      | none => .noBackend
      | some p =>
        match ((c.stores p.address).consume c.now tok).1 with
        | none => .unauthorized
        | some a => .authenticated a := by
  unfold Cluster.upgrade
  simp only [Router.serveHTTP, sessionID_ws hid hs, hid, if_false]
  unfold Cluster.home
  cases (c.router.serveSession c.now id .none (c.up (.upgraded true))).server <;> rfl

theorem consume_fst {ts : TicketStore} {now : Nat} {tok : Text} :
    (ts tok = none → (ts.consume now tok).1 = none) ∧
      ∀ t, ts tok = some t → now ≤ t.expiresAt → (ts.consume now tok).1 = some t.account := by
  refine ⟨fun h => ?_, fun t h hn => ?_⟩
  · rw [TicketStore.consume, h]
  · rw [TicketStore.consume, h]
    exact if_neg (Nat.not_lt.2 hn)

def twoPodCluster : Cluster where
  router := ⟨Ring.setPods 4 twoPods, ⟨1000, 30, []⟩, 0⟩
  down := fun _ => false
  now := 0
  stores := fun _ _ => none

/-- **An upgrade is authenticated exactly when its session's pod is the pod whose turn it was**: the pod of the request keeps
the ticket, which is presented once and in time. -/
theorem upgrade_authenticated_iff {c c₁ c₂ : Cluster} {pods pods' : List Pod} {id jam jam' account tok : Text} {p : Pod}
    {as : List Action} (hid : id ≠ []) (hslash : '/' ∉ id) (hfresh : ∀ a, c.stores a tok = none)
    (hpost : c.postTicket pods jam account tok = (some p, c₁)) (has : ∀ a ∈ as, a.Leaves tok)
    (hrun : exec Cluster.step c₁ as = some c₂) (httl : c₂.now ≤ c.now + ticketTTL) :
    (c₂.upgrade pods' id jam' tok).1 = .authenticated account ↔
      ∃ home turn, c₂.home id = some home ∧ c.router.turn pods = some turn ∧ home.address = turn.address := by
  obtain ⟨ht, hh⟩ := postTicket_held hfresh hpost
  have hh₂ := hh.run has hrun
  rw [upgrade_answer hid hslash]
  cases c₂.home id with
  | none => simp
  | some home =>
    simp only [ht, Option.some.injEq, exists_and_left, exists_eq_left']
    by_cases ha : home.address = p.address
    · rw [ha, consume_fst.2 _ (hh₂.here httl) httl]
      simp
    · rw [consume_fst.1 (hh₂.elsewhere _ ha)]
      simp [ha]

/-- With the pods listed in one order the turn is that of the session's pod. -/
theorem upgrade_authenticated_oneSecondLater :
    ((twoPodCluster.postTicket twoPods [] "alice".toList "t".toList).2.step (.wait 1)).map
        (fun c => (c.upgrade twoPods "s1".toList [] "t".toList).1) = some (.authenticated "alice".toList) := by
  have hp : (twoPodCluster.postTicket twoPods [] "alice".toList "t".toList).1 = some podA := by decide
  have hr : exec Cluster.step (twoPodCluster.postTicket twoPods [] "alice".toList "t".toList).2 [.wait 1] = some _ := rfl
  refine congrArg some ((upgrade_authenticated_iff (by decide) (by decide) (fun _ => rfl) (Prod.ext hp rfl)
    (by simp [Action.Leaves]) hr (by decide)).2 ⟨podA, podA, ?_, ?_, rfl⟩)
  · decide
  · decide

/-- With the pods listed in the other order, the session's pod does not know the ticket. -/
theorem upgrade_unauthorized_otherPod :
    (((twoPodCluster.postTicket twoPods.reverse [] "alice".toList "t".toList).2.upgrade twoPods.reverse "s1".toList []
      "t".toList).1) = .unauthorized := by
  decide

end Jamsesh.WsGateway
