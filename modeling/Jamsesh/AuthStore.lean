import Jamsesh.Machine
/-!
# AuthStore — the browser's auth store (`auth.svelte.ts`)

Sign-ins, sign-outs and responses of `/api/me` in any order: the current user was loaded with the current token, as long as
`setTokens` does not come upon a user of another one (`user_of_token`).
-/
namespace Jamsesh.Frontend

structure User where
  id : String
  email : String
  displayName : String
deriving DecidableEq

/-- The current user, with the bearer of the request for `/api/me` that returned it. -/
structure Me where
  user : User
  bearer : Option String
deriving DecidableEq

/-- The store, and the tokens that the requests in flight were made with. -/
structure Auth where
  token : Option String
  refresh : Option String
  currentUser : Option Me
  orgs : Option (List String)
  loadingMe : Bool
  requests : List (Option String)

inductive AuthAct where
  | setTokens (access refreshTok : String)
  | setAccessOnly (access : String)
  | signOut
  | loadCurrentUser
  | respond (tokenAtStart : Option String) (data : Option (User × List String))
  | addOrg (org : String)

def Auth.step (s : Auth) : AuthAct → Option Auth
  | .setTokens access refreshTok => some { s with token := some access, refresh := some refreshTok }
  | .setAccessOnly access =>
    some { s with token := some access, refresh := none, currentUser := none, orgs := none, loadingMe := false }
  | .signOut => some { s with token := none, refresh := none, currentUser := none, orgs := none, loadingMe := false }
  | .loadCurrentUser =>
    if s.currentUser.isSome ∧ s.orgs.isSome ∨ s.loadingMe then some s
    else some { s with loadingMe := true, requests := s.token :: s.requests }
  | .respond tokenAtStart data =>
    if tokenAtStart ∈ s.requests then
      let s' := { s with loadingMe := false, requests := s.requests.erase tokenAtStart }
      match data with
      | some (user, orgs) =>
        if s.token ≠ none ∧ s.token = tokenAtStart then some { s' with currentUser := some ⟨user, tokenAtStart⟩, orgs := some orgs }
        else some s'
      | none => some s'
    else none
  | .addOrg org => some { s with orgs := some (s.orgs.getD [] ++ [org]) }

/-- Tokens are set while no user is loaded, or to the token that is there. -/
def Anonymous (s : Auth) : AuthAct → Prop
  | .setTokens access _ => s.currentUser = none ∨ s.token = some access
  | _ => True

def UserOfToken (s : Auth) : Prop := ∀ me, s.currentUser = some me → s.token.isSome ∧ me.bearer = s.token

theorem UserOfToken.step {s s' : Auth} {a : AuthAct} (h : UserOfToken s) (hok : Anonymous s a) (hstep : s.step a = some s') :
    UserOfToken s' := by
  intro me hme
  cases a with
  | setTokens =>
    cases hstep
    have ht := h me hme
    rcases hok with hn | hs
    · rw [hn] at hme
      cases hme
    · rwa [hs] at ht
  | setAccessOnly | signOut => cases hstep; cases hme
  | loadCurrentUser =>
    simp only [Auth.step] at hstep
    split at hstep <;> cases hstep <;> exact h me hme
  | respond =>
    simp only [Auth.step] at hstep
    split at hstep
    · split at hstep
      · split at hstep
        · rename_i ht
          cases hstep
          cases hme
          exact ⟨Option.isSome_iff_ne_none.2 ht.1, ht.2.symm⟩
        · cases hstep; exact h me hme
      · cases hstep; exact h me hme
    · cases hstep
  | addOrg => cases hstep; exact h me hme

/-- **The current user is the user of the current token**, whenever responses come. -/
theorem user_of_token (s₀ s : Auth) (as : List AuthAct) (hfresh : s₀.currentUser = none)
    (hok : Machine.Along Auth.step Anonymous s₀ as) (hrun : Machine.exec Auth.step s₀ as = some s) : UserOfToken s :=
  Machine.invariant (fun _ _ _ h hok hs => h.step hok hs) (by simp [UserOfToken, hfresh]) hok hrun

def signedOut : Auth := ⟨none, none, none, none, false, []⟩

def ada : User := ⟨"1", "ada@example", "Ada"⟩

def lateResponse : List AuthAct :=
  [.setTokens "a" "r", .loadCurrentUser, .setAccessOnly "b", .respond (some "a") (some (ada, []))]

theorem user_of_token_late : ∃ s, Machine.exec Auth.step signedOut lateResponse = some s ∧ UserOfToken s := by
  have hr : Machine.exec Auth.step signedOut lateResponse = some _ := rfl
  refine ⟨_, hr, user_of_token signedOut _ lateResponse rfl ⟨.inl rfl, fun _ _ => ?_⟩ hr⟩
  exact ⟨trivial, fun _ _ => ⟨trivial, fun _ _ => ⟨trivial, fun _ _ => trivial⟩⟩⟩

/-- **A second sign-in keeps the first user**, since `setTokens` leaves it in the store. -/
theorem first_user_stays : ∃ s, Machine.exec Auth.step signedOut
    [.setTokens "a" "r", .loadCurrentUser, .respond (some "a") (some (ada, [])), .setTokens "b" "r"] = some s ∧
      s.token = some "b" ∧ s.currentUser = some ⟨ada, some "a"⟩ :=
  ⟨_, rfl, rfl, rfl⟩

/-! ## A 401

It is handled by the store at its arrival, not by the request (`client.ts`).  It clears what the request carried if the token
and the playground context are still those the request was sent with (`own_cleared`); a late one takes a newer token
(`late_401`). -/

open Function (update update_apply)

/-- Paths by what `playgroundSessionIdForPath` finds, and the one of the socket's tickets. -/
inductive Path where
  | session (id : String)
  | wsTicket
  | other
deriving DecidableEq

/-- What a 401 clears: the context of a session (of all, if none is given), or the account's token. -/
inductive Target where
  | playground (sessionID : Option String)
  | account

/-- A request with the bearer it carries, the token and the context (session and bearer) when it was sent, and what its 401 is
about to clear. -/
structure Request where
  path : Path
  sent : Option String
  token : Option String
  context : Option (String × String)
  target : Option Target

/-- The account's token, the bearers of the stored contexts by their sessions, the session whose context is the current one,
and the requests. -/
structure Creds where
  token : Option String
  bearers : String → Option String
  active : Option String
  requests : Nat → Option Request

inductive CredAct where
  | setToken (token : Option String)
  | setPlaygroundContext (id bearer : String)
  | restorePlaygroundContext (id : String)
  | clearPlaygroundContext (id : Option String)
  | send (i : Nat) (path : Path) (header : Option String)
  | unauthorized (i : Nat)
  | clear (i : Nat)

def Creds.context (s : Creds) : Option (String × String) :=
  s.active.bind (fun id => (s.bearers id).map ((id, ·)))

def Creds.bearerForRequest (s : Creds) (path : Path) : Option String :=
  (s.context.filter (fun c => path = .session c.1)).elim s.token (fun c => some c.2)

/-- `unauthorizedMiddleware`, before it awaits the body. -/
def Request.aim (r : Request) (token : Option String) (context : Option (String × String)) : Target :=
  match r.path with
  | .session id => .playground (some id)
  | path =>
    if r.sent.isSome ∧ (r.sent = context.map (·.2) ∨ path = .wsTicket ∧ r.sent ≠ token) then .playground (context.map (·.1))
    else .account

def Creds.clearPlaygroundContext (s : Creds) (id : Option String) : Creds :=
  let gone := id <|> s.context.map (·.1)
  { s with bearers := gone.elim (fun _ => none) (update s.bearers · none), active := s.active.filter (fun id => gone.any (id ≠ ·)) }

def Creds.put (s : Creds) (i : Nat) (r : Option Request) : Creds :=
  { s with requests := update s.requests i r }

def Creds.request (s : Creds) (path : Path) (header : Option String) : Request :=
  ⟨path, header <|> s.bearerForRequest path, s.token, s.context, none⟩

def Creds.step (s : Creds) : CredAct → Option Creds
  | .setToken token => some { s with token := token }
  | .setPlaygroundContext id bearer => some { s with bearers := update s.bearers id (some bearer), active := some id }
  | .restorePlaygroundContext id => some (if (s.bearers id).isSome then { s with active := some id } else s)
  | .clearPlaygroundContext id => some (s.clearPlaygroundContext id)
  | .send i path header => some (s.put i (some (s.request path header)))
  | .unauthorized i => (s.requests i).map (fun r => s.put i (some { r with target := some (r.aim s.token s.context) }))
  | .clear i => ((s.requests i).bind (·.target)).map fun
    | .playground id => (s.clearPlaygroundContext id).put i none
    | .account => { s with token := none }.put i none

def ClearsOwn (s : Creds) : CredAct → Prop
  | .clear i => ∀ r s', s.requests i = some r → s.step (.clear i) = some s' →
    (s'.token = s.token ∨ s.token = r.sent) ∧ ∀ id, s'.bearers id = s.bearers id ∨ s.bearers id = r.sent
  | _ => True

/-- The request is for the session of the context and carries its bearer, or it is for another path and carries the token, if
there is one; a ticket's may do either. -/
def Request.Fits (r : Request) : Prop :=
  (∃ c, r.context = some c ∧ r.sent = some c.2 ∧ ∀ id, r.path = .session id → c.1 = id) ∨
    r.path = .wsTicket ∧ r.sent = r.token ∨ r.path = .other ∧ (r.sent = r.token ∨ r.token = none)

/-- A request fits when it is sent, and token and context have not changed since when its 401 is handled. -/
def Settled (s : Creds) : CredAct → Prop
  | .send _ path header => (s.request path header).Fits
  | .unauthorized i | .clear i => ∀ r, s.requests i = some r → s.token = r.token ∧ s.context = r.context
  | _ => True

def Request.Sound (r : Request) : Prop := r.Fits ∧ ∀ t, r.target = some t → t = r.aim r.token r.context

def Aimed (s : Creds) : Prop := ∀ i r, s.requests i = some r → r.Sound

theorem Request.Fits.aim {r : Request} (h : r.Fits) :
    r.aim r.token r.context = .account ∧ (r.token = r.sent ∨ r.token = none) ∨
      ∃ c, r.context = some c ∧ r.sent = some c.2 ∧ r.aim r.token r.context = .playground (some c.1) := by
  rcases r with ⟨_ | _ | _, _ | _, _, _ | _, _⟩ <;> simp_all [Request.Fits, Request.aim] <;> grind

theorem Aimed.put {s : Creds} {i : Nat} {r : Option Request} (h : Aimed s) (hr : ∀ r', r = some r' → r'.Sound) :
    Aimed (s.put i r) := by
  intro j r' hj
  simp only [Creds.put, update_apply] at hj
  split at hj
  · exact hr r' hj
  · exact h j r' hj

theorem Aimed.step {s s' : Creds} {a : CredAct} (h : Aimed s) (hok : Settled s a) (hs : s.step a = some s') : Aimed s' := by
  cases a with
  | setToken | setPlaygroundContext | clearPlaygroundContext =>
    cases hs
    exact h
  | restorePlaygroundContext =>
    cases hs
    split <;> exact h
  | send =>
    cases hs
    exact h.put fun r hr => by cases hr; exact ⟨hok, nofun⟩
  | unauthorized i =>
    obtain ⟨r, hr, rfl⟩ := Option.map_eq_some_iff.1 hs
    obtain ⟨ht, hc⟩ := hok r hr
    refine h.put fun r' hr' => ?_
    cases hr'
    refine ⟨(h i r hr).1, fun t h => ?_⟩
    cases h
    rw [ht, hc]
    rfl
  | clear =>
    obtain ⟨t, -, rfl⟩ := Option.map_eq_some_iff.1 hs
    cases t <;> exact Aimed.put h nofun

theorem Aimed.clearsOwn {s : Creds} {a : CredAct} (h : Aimed s) (hok : Settled s a) : ClearsOwn s a := by
  cases a with
  | clear i =>
    intro r s' hr hs
    obtain ⟨t, ht, rfl⟩ := Option.map_eq_some_iff.1 hs
    rw [hr, Option.bind_some] at ht
    obtain ⟨hf, hm⟩ := h i r hr
    obtain ⟨hk, hx⟩ := hok r hr
    rw [hm t ht]
    rcases hf.aim with ⟨ha, ho⟩ | ⟨c, hc, ho, ha⟩ <;> rw [ha]
    · refine ⟨?_, fun _ => .inl rfl⟩
      rw [hk]
      exact ho.symm.imp_left Eq.symm
    · refine ⟨.inl rfl, fun id => ?_⟩
      by_cases hid : id = c.1
      · obtain ⟨_, -, hmap⟩ := Option.bind_eq_some_iff.1 (hx.trans hc)
        obtain ⟨b, hb, rfl⟩ := Option.map_eq_some_iff.1 hmap
        exact .inr (by rw [hid, hb, ho])
      · exact .inl (Function.update_of_ne hid _ _)
  | _ => trivial

/-- **A 401 clears what the request carried**, along every run. -/
theorem own_cleared (s₀ : Creds) (as : List CredAct) (hnew : ∀ i, s₀.requests i = none)
    (hok : Machine.Along Creds.step Settled s₀ as) : Machine.Along Creds.step ClearsOwn s₀ as :=
  Machine.along_of_invariant (I := Aimed) (fun _ _ _ h hok hs => h.step hok hs) (fun _ _ h hok => h.clearsOwn hok)
    (fun i r hr => by simp [hnew] at hr) hok

def newPage : Creds := ⟨none, fun _ => none, none, fun _ => none⟩

theorem own_cleared_expired : Machine.Along Creds.step ClearsOwn newPage
    [.setToken (some "a"), .send 0 .other none, .unauthorized 0, .clear 0] := by
  refine own_cleared newPage _ (fun _ => rfl) (.cons_of_step trivial rfl (.cons_of_step (.inr (.inr ⟨rfl, .inl rfl⟩)) rfl
    (.cons_of_step ?_ rfl (.cons_of_step ?_ rfl trivial)))) <;>
  · intro r hr
    cases hr
    exact ⟨rfl, rfl⟩

/-- **A late 401 takes a newer token.** -/
theorem late_401 : ∃ s r, Machine.exec Creds.step newPage
      [.setToken (some "a"), .send 0 .other none, .setToken (some "b"), .unauthorized 0] = some s ∧
    s.requests 0 = some r ∧ r.sent = some "a" ∧ s.token = some "b" ∧ (s.step (.clear 0)).map (·.token) = some none :=
  ⟨_, _, rfl, rfl, rfl, rfl, rfl⟩

end Jamsesh.Frontend
