import Jamsesh.Machine
import Jamsesh.Text
/-!
# PlaygroundJoin — joins of one playground session (`playground/handler.go`)

A join counts the members, looks for a free nickname, makes an account and inserts the member, in statements of their own and
with no constraint behind them.  Where nothing changes the members between the count of a join and its insert (`version`), and
its nickname is known to be free, the session is within its bound and no nickname is there twice (`joins_within_bounds`).
-/
namespace Jamsesh.PlaygroundJoin

open List Machine Option

/-! ## Rows -/

structure Account where
  id : String
  displayName : String
deriving DecidableEq

structure Row where
  status : String
  hardCapAt : Option Int
deriving DecidableEq

/-- What a join found when it counted: the end of the session, and how often the members had changed. -/
structure Seen where
  hardCapAt : Option Int
  version : Nat
deriving DecidableEq

inductive Reply where
  | joined (accountID nickname : String)
  | fail (status : Nat) (error message : String)
  | err (text : String)
deriving DecidableEq

inductive Phase where
  | get (nickname : Option String)
  | count (nickname : Option String) (hardCapAt : Option Int)
  | handle (seen : Seen) (candidates tried : List String) (i : Nat)
  | issue (seen : Seen) (nickname : String) (checked : Bool)
  | add (seen : Seen) (accountID nickname : String) (checked : Bool)
  | revoke (accountID nickname : String)
  | done (reply : Reply)
deriving DecidableEq

structure State where
  maxParticipants : Nat
  session : Option Row
  accounts : List Account
  members : List String
  version : Nat
  calls : List Phase
deriving DecidableEq

/-- The display names of the members, by a join with `accounts`. -/
def State.nicknames (s : State) : List String :=
  s.members.filterMap (fun m => (s.accounts.find? (fun a => a.id = m)).map (·.displayName))

/-! ## Statements -/

/-- What becomes of a statement: carried out, not carried out, or carried out and its answer lost. -/
inductive Answer where
  | ok | failed | lost
deriving DecidableEq

/-- What a statement meets: its answer, the clock, and what is drawn at random for it. -/
structure Turn where
  answer : Answer
  now : Int
  pick : String
  hex : String
  accountID : String
deriving DecidableEq

def nicknameChar (c : Char) : Bool := ('a' ≤ c && c ≤ 'z') || ('A' ≤ c && c ≤ 'Z') || ('0' ≤ c && c ≤ '9') || c = '-'

def ended (message : String) : Reply := .fail 410 "playground.session_ended" message

/-- The nickname of the body, if it has one, as the candidate of `uniqueHandle`. -/
def candidates (nickname : Option String) : Except Reply (List String) :=
  match nickname with
  | none => .ok []
  | some raw =>
    let trimmed := Text.trimSpace raw.toList
    if trimmed = [] then .ok []
    else if trimmed.length < 2 ∨ trimmed.length > 24 ∨ !trimmed.all nicknameChar then
      .error (.fail 400 "playground.invalid_nickname" "nickname must be 2-24 characters, letters/digits/dashes only")
    else .ok [String.ofList trimmed]

def afterGet (nickname : Option String) (turn : Turn) : Option Row → Phase
  | none => .done (.fail 404 "session.not_found" "session not found")
  | some row =>
    if row.hardCapAt.any (fun cap => cap ≤ turn.now) then .done (ended "this session has ended (hard-cap elapsed)")
    else if row.status ≠ "active" then .done (ended "this session has ended")
    else .count nickname row.hardCapAt

def State.insertAccount (s : State) (a : Account) : State := { s with accounts := s.accounts ++ [a] }

def State.insertMember (s : State) (accountID : String) : State :=
  { s with members := s.members ++ [accountID], version := s.version + 1 }

def State.deleteAccount (s : State) (accountID : String) : State where
  maxParticipants := s.maxParticipants
  session := s.session
  accounts := s.accounts.filter (fun a => a.id ≠ accountID)
  members := s.members.filter (fun m => m ≠ accountID)
  version := if accountID ∈ s.members then s.version + 1 else s.version
  calls := s.calls

def State.next (s : State) (p : Phase) (turn : Turn) : Option (State × Phase) :=
  match p with
  | .get nickname =>
    some (s, if turn.answer = .ok then afterGet nickname turn s.session else .done (.err "playground: get session"))
  | .count nickname hardCapAt =>
    some (s, if turn.answer ≠ .ok then .done (.err "playground: count session members")
      else if s.members.length ≥ s.maxParticipants then
        .done (.fail 409 "playground.session_full" ("session is full (" ++ toString s.members.length ++ "/" ++
          toString s.maxParticipants ++ " participants)"))
      else match candidates nickname with
        | .error reply => .done reply
        | .ok cands => .handle ⟨hardCapAt, s.version⟩ cands [] 0)
  | .handle seen cands tried i =>
    if i < 10 then
      let nick := (cands[i]?).getD turn.pick
      if nick ∈ tried then some (s, .handle seen cands tried (i + 1))
      -- a query that fails counts as "not taken"
      else if turn.answer = .ok ∧ nick ∈ s.nicknames then some (s, .handle seen cands (nick :: tried) (i + 1))
      else some (s, .issue seen nick (turn.answer = .ok))
    else some (s, .issue seen (turn.pick ++ "-" ++ turn.hex) false)
  | .issue seen nickname checked =>
    if seen.hardCapAt.any (fun cap => cap ≤ turn.now) then some (s, .done (ended "this session has ended"))
    else if turn.answer = .failed ∨ turn.accountID ∈ s.accounts.map (·.id) then
      some (s, .done (.err "playground: issue bearer for joiner"))
    else
      some (s.insertAccount ⟨turn.accountID, nickname⟩,
        if turn.answer = .ok then .add seen turn.accountID nickname checked
        else .done (.err "playground: issue bearer for joiner"))
  | .add _ accountID nickname _ =>
    if turn.answer = .failed ∨ accountID ∈ s.members then some (s, .revoke accountID nickname)
    else
      some (s.insertMember accountID,
        if turn.answer = .ok then .done (.joined accountID nickname) else .revoke accountID nickname)
  | .revoke accountID _ =>
    some (if turn.answer = .failed then s else s.deleteAccount accountID, .done (.err "playground: add session member"))
  | .done _ => none

inductive Act where
  | join (nickname : Option String)
  | go (i : Nat) (turn : Turn)
deriving DecidableEq

def State.step (s : State) : Act → Option State
  | .join nickname => some { s with calls := s.calls ++ [.get nickname] }
  | .go i turn => do
    let p ← s.calls[i]?
    let (s', p') ← s.next p turn
    return { s' with calls := s.calls.set i p' }

/-! ## The names of the members -/

section
variable {s : State}

def State.Named (s : State) : Prop := ∀ m ∈ s.members, (s.accounts.find? (fun a => a.id = m)).isSome

theorem nicknames_insertAccount (h : s.Named) (a : Account) : (s.insertAccount a).nicknames = s.nicknames := by
  refine filterMap_congr fun m hm => ?_
  obtain ⟨b, hb⟩ := isSome_iff_exists.1 (h m hm)
  simp only [State.insertAccount, List.find?_append, hb, some_or]

theorem nicknames_insertMember {a : Account} (ha : s.accounts.find? (fun b => b.id = a.id) = some a) :
    (s.insertMember a.id).nicknames = s.nicknames ++ [a.displayName] := by
  simp [State.nicknames, State.insertMember, ha]

theorem find?_filter_ne {accounts : List Account} {id m : String} (hm : m ≠ id) :
    (accounts.filter (fun a => a.id ≠ id)).find? (fun a => a.id = m) = accounts.find? (fun a => a.id = m) := by
  rw [List.find?_filter]
  congr 1
  funext a
  by_cases h : a.id = m
  · simp [h, hm]
  · simp [h]

theorem nicknames_deleteAccount (s : State) (id : String) :
    (s.deleteAccount id).nicknames = (s.members.filter (fun m => m ≠ id)).filterMap
      (fun m => (s.accounts.find? (fun a => a.id = m)).map (·.displayName)) := by
  refine filterMap_congr fun m hm => ?_
  have hm : m ≠ id := by simpa using (mem_filter.1 hm).2
  simp only [State.deleteAccount, find?_filter_ne hm]

end

/-! ## What a statement does -/

/-- **The moves of a join**, with what the statement does to the tables. -/
inductive Move (s : State) (turn : Turn) : Phase → State → Phase → Prop
  | ends {p : Phase} {reply : Reply} : Move s turn p s (.done reply)
  | got {nickname : Option String} {cap : Option Int} : Move s turn (.get nickname) s (.count nickname cap)
  | counted {nickname : Option String} {cap : Option Int} {cands : List String}
    (hroom : s.members.length < s.maxParticipants) :
    Move s turn (.count nickname cap) s (.handle ⟨cap, s.version⟩ cands [] 0)
  | tried {seen : Seen} {cands tried tried' : List String} {i j : Nat} :
    Move s turn (.handle seen cands tried i) s (.handle seen cands tried' j)
  | named {seen : Seen} {cands tried : List String} {i : Nat} {nick : String} {checked : Bool}
    (hfree : checked = true → nick ∉ s.nicknames) : Move s turn (.handle seen cands tried i) s (.issue seen nick checked)
  | issued {seen : Seen} {id nick : String} {checked : Bool} {p' : Phase} (hfresh : id ∉ s.accounts.map (·.id))
    (hnext : p' = .add seen id nick checked ∨ ∃ reply, p' = .done reply) :
    Move s turn (.issue seen nick checked) (s.insertAccount ⟨id, nick⟩) p'
  | refused {seen : Seen} {id nick : String} {checked : Bool} : Move s turn (.add seen id nick checked) s (.revoke id nick)
  | added {seen : Seen} {id nick : String} {checked : Bool} {p' : Phase} (hrun : turn.answer ≠ .failed)
    (hnew : id ∉ s.members) (hnext : p' = .revoke id nick ∨ ∃ reply, p' = .done reply) :
    Move s turn (.add seen id nick checked) (s.insertMember id) p'
  | revoked {id nick : String} {reply : Reply} : Move s turn (.revoke id nick) (s.deleteAccount id) (.done reply)

theorem move_of_next {s s' : State} {p p' : Phase} {turn : Turn} (h : s.next p turn = some (s', p')) :
    Move s turn p s' p' := by
  cases p with simp only [State.next] at h
  | get =>
    cases h
    split
    · unfold afterGet
      split
      · exact .ends
      split
      · exact .ends
      · split
        · exact .ends
        · exact .got
    · exact .ends
  | count =>
    cases h
    split
    · exact .ends
    split
    · exact .ends
    rename_i hr
    split
    · exact .ends
    · exact .counted (Nat.lt_of_not_le hr)
  | handle =>
    split at h
    · split at h
      · cases h
        exact .tried
      split at h
      · cases h
        exact .tried
      · rename_i hfree
        cases h
        exact .named fun ha ht => hfree ⟨of_decide_eq_true ha, ht⟩
    · cases h
      exact .named fun ha => by cases ha
  | issue =>
    split at h
    · cases h
      exact .ends
    split at h
    · cases h
      exact .ends
    rename_i hf
    cases h
    refine .issued (fun hid => hf (.inr hid)) ?_
    split
    · exact .inl rfl
    · exact .inr ⟨_, rfl⟩
  | add =>
    split at h
    · cases h
      exact .refused
    rename_i hok
    rw [not_or] at hok
    cases h
    refine .added hok.1 hok.2 ?_
    split
    · exact .inr ⟨_, rfl⟩
    · exact .inl rfl
  | revoke =>
    split at h
    · cases h
      exact .ends
    · cases h
      exact .revoked
  | done => cases h

/-! ## The bounds -/

def Phase.seen : Phase → Option Seen
  | .handle seen _ _ _ | .issue seen _ _ | .add seen _ _ _ => some seen
  | _ => none

def Phase.checked : Phase → Option String
  | .issue _ nick true | .add _ _ nick true => some nick
  | _ => none

def Phase.owns : Phase → Option Account
  | .add _ id nick _ | .revoke id nick => some ⟨id, nick⟩
  | _ => none

/-- **What a call knows**: while the members have not changed since it counted them, there is room for one more, and the
nickname it has checked is free. -/
structure Knows (s : State) (p : Phase) : Prop where
  past : ∀ seen ∈ p.seen, seen.version ≤ s.version
  room : ∀ seen ∈ p.seen, seen.version = s.version → s.members.length < s.maxParticipants
  free : ∀ seen ∈ p.seen, seen.version = s.version → ∀ nick ∈ p.checked, nick ∉ s.nicknames

def State.owner (s : State) (i : Nat) : Option Account := (s.calls[i]?).bind Phase.owns

/-- **Within the bounds**, and what the calls in flight need to stay there. -/
structure Room (s : State) : Prop where
  capacity : s.members.length ≤ s.maxParticipants
  names : s.nicknames.Nodup
  named : s.Named
  knows : ∀ p ∈ s.calls, Knows s p
  owned : ∀ i a, s.owner i = some a → s.accounts.find? (fun b => b.id = a.id) = some a
  unique : ∀ i j a b, s.owner i = some a → s.owner j = some b → a.id = b.id → i = j

structure Initial (s : State) : Prop where
  capacity : s.members.length ≤ s.maxParticipants
  names : s.nicknames.Nodup
  named : s.Named
  calls : s.calls = []

theorem Initial.room {s : State} (h : Initial s) : Room s := by
  have ho : ∀ i, s.owner i = none := fun i => by simp [State.owner, h.calls]
  refine ⟨h.capacity, h.names, h.named, fun p hp => ?_, fun i a ha => ?_, fun i j a b ha => ?_⟩
  · rw [h.calls] at hp
    cases hp
  · rw [ho] at ha
    cases ha
  · rw [ho] at ha
    cases ha

/-- The insert of a member that an action makes: what the call has seen, its nickname, and whether it was checked. -/
def State.inserts (s : State) : Act → Option (Seen × String × Bool)
  | .go i turn =>
    match s.calls[i]? with
    | some (.add seen _ nick checked) => if turn.answer = .failed then none else some (seen, nick, checked)
    | _ => none
  | .join _ => none

/-- **An insert finds the members as its call counted them**, and a nickname that a query found free, or that nobody has. -/
def Undisturbed (s : State) (a : Act) : Prop :=
  ∀ x ∈ s.inserts a, x.1.version = s.version ∧ (x.2.2 = true ∨ x.2.1 ∉ s.nicknames)

instance (s : State) (a : Act) : Decidable (Undisturbed s a) :=
  inferInstanceAs (Decidable (∀ x ∈ s.inserts a, x.1.version = s.version ∧ (x.2.2 = true ∨ x.2.1 ∉ s.nicknames)))

section
variable {s s' : State} {p p' : Phase} {turn : Turn}

theorem Knows.of_same (h : Knows s p) (hv : s'.version = s.version) (hm : s'.members = s.members)
    (hmax : s'.maxParticipants = s.maxParticipants) (hnames : s'.nicknames = s.nicknames) : Knows s' p := by
  refine ⟨fun seen hs => ?_, fun seen hs heq => ?_, fun seen hs heq nick hn => ?_⟩
  · rw [hv]
    exact h.past seen hs
  · rw [hm, hmax]
    exact h.room seen hs (heq.trans hv)
  · rw [hnames]
    exact h.free seen hs (heq.trans hv) nick hn

theorem Knows.of_change (h : Knows s p) (hv : s'.version = s.version + 1) : Knows s' p := by
  have hlt : ∀ seen ∈ p.seen, seen.version < s'.version := fun seen hs => by
    have := h.past seen hs
    omega
  exact ⟨fun seen hs => (hlt seen hs).le, fun seen hs heq => absurd heq (hlt seen hs).ne,
    fun seen hs heq => absurd heq (hlt seen hs).ne⟩

theorem knows_of_seen_none (hs : p.seen = none) : Knows s p := by
  refine ⟨fun _ h => ?_, fun _ h => ?_, fun _ h => ?_⟩ <;>
  · rw [hs] at h
    cases h

theorem owner_set {i k : Nat} {q : Phase} (hq : s.calls[i]? = some q) {a : Account}
    (ha : State.owner { s' with calls := s.calls.set i p' } k = some a) :
    k = i ∧ p'.owns = some a ∨ k ≠ i ∧ s.owner k = some a := by
  have hi : i < s.calls.length := (List.getElem?_eq_some_iff.1 hq).1
  simp only [State.owner, List.getElem?_set, hi] at ha
  by_cases hk : i = k
  · subst hk
    exact .inl ⟨rfl, by simpa using ha⟩
  · rw [if_neg hk] at ha
    exact .inr ⟨Ne.symm hk, ha⟩

theorem Room.of_move (h : Room s) {i : Nat} (hp : s.calls[i]? = some p) (hc : s'.members.length ≤ s'.maxParticipants)
    (hn : s'.nicknames.Nodup) (hnamed : s'.Named) (hknows : ∀ q ∈ s.calls, Knows s' q) (hk' : Knows s' p')
    (ho : ∀ k a, k ≠ i → s.owner k = some a → s'.accounts.find? (fun b => b.id = a.id) = some a)
    (ho' : ∀ a ∈ p'.owns, s'.accounts.find? (fun b => b.id = a.id) = some a ∧
      ∀ k b, k ≠ i → s.owner k = some b → b.id ≠ a.id) :
    Room { s' with calls := s.calls.set i p' } := by
  refine ⟨hc, hn, hnamed, fun q hq => ?_, fun k a ha => ?_, fun j k a b ha hb hid => ?_⟩
  · rcases mem_or_eq_of_mem_set hq with hq | rfl
    · exact ⟨(hknows q hq).past, (hknows q hq).room, (hknows q hq).free⟩
    · exact ⟨hk'.past, hk'.room, hk'.free⟩
  · rcases owner_set hp ha with ⟨-, ha⟩ | ⟨hk, ha⟩
    · exact (ho' a ha).1
    · exact ho k a hk ha
  · rcases owner_set hp ha with ⟨hj, hm⟩ | ⟨hj, ha⟩
    · rcases owner_set hp hb with ⟨hk, -⟩ | ⟨hk, hb⟩
      · exact hj.trans hk.symm
      · exact absurd hid.symm ((ho' a hm).2 k b hk hb)
    · rcases owner_set hp hb with ⟨-, hm⟩ | ⟨-, hb⟩
      · exact absurd hid ((ho' b hm).2 j a hj ha)
      · exact h.unique j k a b ha hb hid

theorem Room.of_read (h : Room s) {i : Nat} (hp : s.calls[i]? = some p) (hknows : Knows s p')
    (ho : p'.owns = none ∨ p'.owns = p.owns) : Room { s with calls := s.calls.set i p' } := by
  refine h.of_move hp h.capacity h.names h.named h.knows hknows (fun k a _ => h.owned k a) fun a ha => ?_
  rcases ho with hn | hs
  · rw [hn] at ha
    cases ha
  · have hi : s.owner i = some a := by rw [State.owner, hp, bind_some, ← hs]; exact ha
    exact ⟨h.owned i a hi, fun k b hk hb hid => hk (h.unique k i b a hb hi hid)⟩

theorem Room.insertAccount (h : Room s) {i : Nat} (hp : s.calls[i]? = some p) {a : Account}
    (hfresh : a.id ∉ s.accounts.map (·.id)) (hknows : Knows s p') (ho : p'.owns = none ∨ p'.owns = some a) :
    Room { s.insertAccount a with calls := s.calls.set i p' } := by
  have hnames := nicknames_insertAccount h.named a
  have hk : ∀ {id : String} {b : Account}, s.accounts.find? (fun b => b.id = id) = some b →
      (s.insertAccount a).accounts.find? (fun b => b.id = id) = some b := fun hb => by
    simp only [State.insertAccount, List.find?_append, hb, some_or]
  refine h.of_move hp h.capacity (by rw [hnames]; exact h.names) (fun m hm => ?_)
    (fun q hq => (h.knows q hq).of_same rfl rfl rfl hnames) (hknows.of_same rfl rfl rfl hnames)
    (fun k b _ hb => hk (h.owned k b hb)) fun b hb => ?_
  · obtain ⟨b, hb⟩ := isSome_iff_exists.1 (h.named m hm)
    rw [hk hb]
    rfl
  · rcases ho with hn | hs
    · rw [hn] at hb
      cases hb
    rw [hs] at hb
    cases hb
    have hn : s.accounts.find? (fun b => b.id = a.id) = none :=
      List.find?_eq_none.2 fun b hb hid => hfresh (mem_map.2 ⟨b, hb, by simpa using hid⟩)
    refine ⟨by simp [State.insertAccount, hn], fun k b _ hb hid => ?_⟩
    have hf := h.owned k b hb
    rw [hid, hn] at hf
    cases hf

theorem Room.insertMember (h : Room s) {i : Nat} {seen : Seen} {id nick : String} {checked : Bool}
    (hp : s.calls[i]? = some (.add seen id nick checked)) (hv : seen.version = s.version)
    (hf : checked = true ∨ nick ∉ s.nicknames) (ho : p'.owns = none ∨ p'.owns = some ⟨id, nick⟩)
    (hseen : p'.seen = none) :
    Room { s.insertMember id with calls := s.calls.set i p' } := by
  have hi : s.owner i = some ⟨id, nick⟩ := by rw [State.owner, hp]; rfl
  have hknown := h.knows _ (mem_of_getElem? hp)
  have hr : s.members.length < s.maxParticipants := hknown.room seen rfl hv
  have hnick : nick ∉ s.nicknames := by
    rcases hf with rfl | hf
    · exact hknown.free seen rfl hv nick rfl
    · exact hf
  have hn : (s.insertMember id).nicknames = s.nicknames ++ [nick] := nicknames_insertMember (h.owned i ⟨id, nick⟩ hi)
  refine h.of_move hp ?_ ?_ (fun m hm => ?_) (fun q hq => (h.knows q hq).of_change rfl) (knows_of_seen_none hseen)
    (fun k a _ => h.owned k a) fun a ha => ?_
  · simp only [State.insertMember, length_append, length_singleton]
    omega
  · rw [hn]
    exact nodup_append.2 ⟨h.names, by simp, fun a ha b hb => by
      cases mem_singleton.1 hb
      exact fun heq => hnick (heq ▸ ha)⟩
  · rcases mem_append.1 hm with hm | hm
    · exact h.named m hm
    · cases mem_singleton.1 hm
      exact isSome_iff_exists.2 ⟨_, h.owned i ⟨id, nick⟩ hi⟩
  · rcases ho with hnone | hs
    · rw [hnone] at ha
      cases ha
    · rw [hs] at ha
      cases ha
      exact ⟨h.owned i ⟨id, nick⟩ hi, fun k b hk hb hid => hk (h.unique k i b ⟨id, nick⟩ hb hi hid)⟩

theorem Room.deleteAccount (h : Room s) {i : Nat} {id nick : String} (hp : s.calls[i]? = some (.revoke id nick))
    (ho : p'.owns = none) (hs : p'.seen = none) : Room { s.deleteAccount id with calls := s.calls.set i p' } := by
  have hi : s.owner i = some ⟨id, nick⟩ := by rw [State.owner, hp]; rfl
  have hnames : (s.deleteAccount id).nicknames.Sublist s.nicknames := by
    rw [nicknames_deleteAccount]
    exact List.Sublist.filterMap _ filter_sublist
  refine h.of_move hp ((length_filter_le _ _).trans h.capacity) (h.names.sublist hnames)
    (fun m hm => ?_) (fun q hq => ?_) (knows_of_seen_none hs) (fun k a hk ha => ?_) fun a ha => ?_
  · obtain ⟨hm, hne⟩ := mem_filter.1 hm
    have hne : m ≠ id := by simpa using hne
    simp only [State.deleteAccount, find?_filter_ne hne]
    exact h.named m hm
  · by_cases hm : id ∈ s.members
    · exact (h.knows q hq).of_change (if_pos hm)
    · have hsame : s.members.filter (fun m => m ≠ id) = s.members :=
        filter_eq_self.2 fun m hin => decide_eq_true fun heq => hm (heq ▸ hin)
      refine (h.knows q hq).of_same (if_neg hm) hsame rfl ?_
      rw [nicknames_deleteAccount, hsame, State.nicknames]
  · have hne : a.id ≠ id := fun hid => hk (h.unique k i a ⟨id, nick⟩ ha hi hid)
    simp only [State.deleteAccount, find?_filter_ne hne]
    exact h.owned k a ha
  · rw [ho] at ha
    cases ha

theorem Room.step (h : Room s) {a : Act} (hok : Undisturbed s a) (hstep : s.step a = some s') : Room s' := by
  cases a with
  | join nickname =>
    cases hstep
    have howner : ∀ {k : Nat} {a : Account}, State.owner { s with calls := s.calls ++ [.get nickname] } k = some a →
        s.owner k = some a := by
      intro k a ha
      simp only [State.owner, List.getElem?_append] at ha
      split at ha
      · exact ha
      cases hk : [Phase.get nickname][k - s.calls.length]? with
      | none =>
        rw [hk] at ha
        cases ha
      | some =>
        rw [hk] at ha
        cases mem_singleton.1 (mem_of_getElem? hk)
        cases ha
    refine ⟨h.capacity, h.names, h.named, fun q hq => ?_, fun k a ha => h.owned k a (howner ha),
      fun j k a b ha hb => h.unique j k a b (howner ha) (howner hb)⟩
    rcases mem_append.1 hq with hq | hq
    · exact ⟨(h.knows q hq).past, (h.knows q hq).room, (h.knows q hq).free⟩
    · cases mem_singleton.1 hq
      exact knows_of_seen_none rfl
  | go =>
    obtain ⟨p, hp, hstep⟩ := bind_eq_some_iff.1 hstep
    obtain ⟨⟨_, _⟩, hn, hstep⟩ := bind_eq_some_iff.1 hstep
    cases hstep
    have hknows := h.knows p (mem_of_getElem? hp)
    cases move_of_next hn with
    | ends | got => exact h.of_read hp (knows_of_seen_none rfl) (.inl rfl)
    | counted hr =>
      refine h.of_read hp ⟨fun _ hs => ?_, fun _ _ _ => hr, fun _ _ _ _ hnick => by cases hnick⟩ (.inl rfl)
      cases hs
      exact le_refl _
    | tried =>
      exact h.of_read hp ⟨hknows.past, hknows.room, fun _ _ _ _ hnick => by cases hnick⟩ (.inl rfl)
    | @named _ _ _ k _ checked hf =>
      refine h.of_read hp ⟨hknows.past, hknows.room, fun _ _ _ _ hnick => ?_⟩ (.inl rfl)
      cases checked with
      | false => cases hnick
      | true =>
        cases hnick
        exact hf rfl
    | @issued _ _ _ checked _ hfresh hn =>
      refine h.insertAccount hp hfresh ?_ ?_
      · rcases hn with rfl | ⟨-, rfl⟩
        · exact ⟨hknows.past, hknows.room, by cases checked <;> exact hknows.free⟩
        · exact knows_of_seen_none rfl
      · rcases hn with rfl | ⟨-, rfl⟩
        · exact .inr rfl
        · exact .inl rfl
    | refused => exact h.of_read hp (knows_of_seen_none rfl) (.inr rfl)
    | @added seen _ nick checked _ hrun _ hn =>
      obtain ⟨hv, hf⟩ := hok (seen, nick, checked) (by simp [State.inserts, hp, hrun])
      refine h.insertMember hp hv hf ?_ ?_
      · rcases hn with rfl | ⟨-, rfl⟩
        · exact .inr rfl
        · exact .inl rfl
      · rcases hn with rfl | ⟨-, rfl⟩ <;> rfl
    | revoked => exact h.deleteAccount hp rfl rfl

end

/-- **In every run of joins whose inserts are undisturbed**, the session is not over its bound and no two members have the same
nickname. -/
theorem joins_within_bounds {s s' : State} {as : List Act} (hinit : Initial s)
    (hok : Along State.step Undisturbed s as) (hrun : exec State.step s as = some s') :
    s'.members.length ≤ s'.maxParticipants ∧ s'.nicknames.Nodup := by
  have hr : Room s' := invariant (fun _ _ _ h hok hs => h.step hok hs) hinit.room hok hrun
  exact ⟨hr.capacity, hr.names⟩

def pairSession : State :=
  ⟨2, some ⟨"active", some 100⟩, [⟨"anon_1", "calm-otter"⟩], ["anon_1"], 0, []⟩

theorem pairSession_initial : Initial pairSession := ⟨by decide, by decide, by simp [State.Named, pairSession], rfl⟩

def reads (i : Nat) : List Act := List.replicate 3 (.go i ⟨.ok, 0, "", "", ""⟩)

def writes (i : Nat) (accountID : String) : List Act := List.replicate 2 (.go i ⟨.ok, 0, "", "", accountID⟩)

def trioSession : State := { pairSession with maxParticipants := 3 }

/-- The second join counts the members once the first one is in. -/
def joinsInTurn : List Act :=
  [.join (some "ada"), .join (some "eve")] ++ reads 0 ++ writes 0 "anon_2" ++ reads 1 ++ writes 1 "anon_3"

theorem joins_within_bounds_inTurn : ∃ s', exec State.step trioSession joinsInTurn = some s' ∧
    s'.members = ["anon_1", "anon_2", "anon_3"] ∧ s'.members.length ≤ s'.maxParticipants ∧ s'.nicknames.Nodup := by
  have hinit : Initial trioSession := ⟨by decide, by decide, by simp [State.Named, trioSession, pairSession], rfl⟩
  have hok : Along State.step Undisturbed trioSession joinsInTurn := by decide
  exact ⟨_, rfl, rfl, joins_within_bounds hinit hok rfl⟩

def joinedTogether : List Act :=
  [.join (some "ada"), .join (some "ada")] ++ reads 0 ++ reads 1 ++ writes 0 "anon_2" ++ writes 1 "anon_3"

/-- **Two joins at the same time**: three members in a session of two at most, and two of them with one nickname. -/
theorem joins_exceed_bounds : Initial pairSession ∧ ∃ s', exec State.step pairSession joinedTogether = some s' ∧
    s'.maxParticipants = 2 ∧ s'.members = ["anon_1", "anon_2", "anon_3"] ∧ s'.nicknames = ["calm-otter", "ada", "ada"] :=
  ⟨pairSession_initial, _, rfl, rfl, rfl, by decide⟩

end Jamsesh.PlaygroundJoin
