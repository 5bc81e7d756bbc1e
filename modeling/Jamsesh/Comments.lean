import Jamsesh.Pagination
import Jamsesh.Machine
import Mathlib
/-!
# Comments — listing and resolving comments (`comments/service.go`, `comments.sql`, `mcpendpoint/tools.go`)

The filter on the recipient is a `LIKE` pattern made of the caller's string, so that it looks for that string only where it has
no wildcard, no backslash and no letter (`literal_filter_iff`).  The session-state tool has two first pages of fifty, for two
recipients out of three (`addressed_once_iff`).  `Resolve` looks at the comment before its transaction (`resolved_once`).
-/
namespace Jamsesh.Comments

open List Pagination
open Function (update update_apply)

/-! ## The table and its query -/

structure Comment where
  id : String
  sessionID : String
  addressedTo : Option Text
  kind : String
  anchorCommitSHA : String
  anchorFilePath : Option String
  createdAt : Int
  resolvedAt : Option Int
  resolvedBy : Option String
  resolutionNote : Option String
deriving DecidableEq

def Comment.key (c : Comment) : Int ×ₗ String := toLex (c.createdAt, c.id)

/-- `ListParams`, apart from the cursor. -/
structure ListParams where
  sessionID : String
  addressedTo : Text
  kind : String
  resolved : Option Bool
  anchorCommitSHA : String
  anchorFilePath : String
  limit : Int

/-- The rows that `ListCommentsForSession` looks for, whatever the key; a `NULL` is like nothing. -/
def wanted (like : Text → Text → Bool) (p : ListParams) (c : Comment) : Bool :=
  c.sessionID = p.sessionID && (p.addressedTo = [] || c.addressedTo.any (like p.addressedTo)) &&
    (p.kind = "" || c.kind = p.kind) && p.resolved.all (fun resolved => c.resolvedAt.isSome = resolved) &&
    (p.anchorCommitSHA = "" || c.anchorCommitSHA = p.anchorCommitSHA) &&
    (p.anchorFilePath = "" || c.anchorFilePath = some p.anchorFilePath)

/-- `List`, of the rows in the order of the query. -/
def list (like : Text → Text → Bool) (rows : List Comment) (p : ListParams) (bound : Int ×ₗ String) :
    List Comment × Option (Int ×ₗ String) :=
  page Comment.key (rows.filter (wanted like p)) bound (pageLimit p.limit)

/-! ## Patterns -/

inductive Pattern where
  | any | one
  | char (c : Char)

/-- `LIKE`, where `same` compares a character of the pattern with one of the text. -/
def like (same : Char → Char → Bool) : List Pattern → Text → Bool
  | [], t => t.isEmpty
  | .any :: ps, t => t.tails.any (like same ps)
  | .one :: ps, t => t.casesOn false (fun _ t => like same ps t)
  | .char c :: ps, t => t.casesOn false (fun d t => same c d && like same ps t)

def wildcard : Char → Pattern
  | '%' => .any
  | '_' => .one
  | c => .char c

/-- In Postgres a backslash takes the next character as it is. -/
def escaped : Text → List Pattern
  | '\\' :: c :: t => .char c :: escaped t
  | c :: t => wildcard c :: escaped t
  | [] => []

/-- `addressed_to LIKE '%' || x || '%'`; SQLite does not tell the cases of a letter apart. -/
def sqliteLike (x : Text) : Text → Bool := like (fun c d => c.toLower = d.toLower) (.any :: x.map wildcard ++ [.any])

def postgresLike (x : Text) : Text → Bool := like (fun c d => c = d) (escaped ('%' :: x ++ ['%']))

def contains (x t : Text) : Bool := x <:+: t

def Plain (c : Char) : Prop := c ∉ ['%', '_', '\\'] ∧ c.isAlpha = false

section
variable {same : Char → Char → Bool} {x : Text}

theorem like_chars (hs : ∀ c ∈ x, ∀ d, same c d = true ↔ c = d) (t : Text) :
    like same (x.map .char ++ [.any]) t = true ↔ x <+: t := by
  induction x generalizing t with
  | nil => simp [like]
  | cons c x ih =>
    obtain ⟨hc, hx⟩ := forall_mem_cons.1 hs
    cases t with
    | nil => simp [like]
    | cons d t => simp [like, hc, ih hx]

theorem like_contains (hs : ∀ c ∈ x, ∀ d, same c d = true ↔ c = d) (t : Text) :
    like same (.any :: (x.map .char ++ [.any])) t = contains x t := by
  rw [Bool.eq_iff_iff, like, any_eq_true, contains, decide_eq_true_iff, infix_iff_prefix_suffix]
  simp only [mem_tails, like_chars hs, and_comm]

theorem wildcard_eq {c : Char} (h : c ∉ ['%', '_']) : wildcard c = .char c := by
  unfold wildcard
  split <;> simp_all

theorem escaped_eq (h : '\\' ∉ x) : escaped x = x.map wildcard := by
  induction x with
  | nil => rfl
  | cons c x ih =>
    rw [mem_cons, not_or] at h
    rw [escaped, ih h.2, map_cons]
    intro _ t hc
    exact absurd hc.symm h.1

def swap (c : Char) : Char := if c ∈ ['%', '_'] then '-' else if c.isUpper then c.toLower else c.toUpper

theorem swap_spec (c : Char) :
    (c ∈ ['%', '_'] ∨ c.isAlpha = true → swap c ≠ c) ∧ (c ∉ ['%', '_'] → c.toLower = (swap c).toLower) := by
  unfold swap
  split
  · rename_i hw
    exact ⟨fun _ heq => by simp [← heq] at hw, fun h => absurd hw h⟩
  · split
    · rename_i hup
      refine ⟨fun _ heq => ?_, by simp⟩
      rw [← heq, Char.isUpper_toLower_eq_false] at hup
      cases hup
    · rename_i hw hup
      refine ⟨fun h heq => hup ?_, by simp⟩
      rw [← heq, Char.isUpper_toUpper_eq_isAlpha]
      exact h.resolve_left hw

theorem like_swap (x : Text) : like (fun c d => c.toLower = d.toLower) (x.map wildcard ++ [.any]) (x.map swap) = true := by
  induction x with
  | nil => simp [like]
  | cons c x ih =>
    by_cases hc : c ∈ ['%', '_']
    · simp only [mem_cons, not_mem_nil, or_false] at hc
      rcases hc with rfl | rfl
      · exact any_eq_true.2 ⟨x.map swap, by simp, ih⟩
      · exact ih
    · simp [wildcard_eq hc, like, ih, (swap_spec c).2 hc]

theorem toLower_eq_iff {c : Char} (h : c.isAlpha = false) (d : Char) : c.toLower = d.toLower ↔ c = d := by
  have hf : ∀ {c : Char}, c.isAlpha = false → c.toLower = c := fun h =>
    Char.toLower_eq_of_not_isUpper (by simp [(Bool.or_eq_false_iff.1 h).1])
  refine ⟨fun heq => ?_, fun h => h ▸ rfl⟩
  have hd : d.isAlpha = false := by rw [← Char.isAlpha_toLower_eq_isAlpha, ← heq, hf h, h]
  rwa [hf h, hf hd] at heq

/-- What the pattern `%x%` is like in Postgres, without a wildcard in `x`. -/
def unescaped : Text → Text
  | '\\' :: c :: t => c :: unescaped t
  | ['\\'] => ['%']
  | c :: t => c :: unescaped t
  | [] => []

theorem unescaped_spec (hx : ∀ c ∈ x, c ∉ ['%', '_']) : (unescaped x).length ≤ x.length ∧ ('\\' ∈ x → unescaped x ≠ x) ∧
    like (fun c d => c = d) (escaped (x ++ ['%'])) (unescaped x) = true := by
  fun_induction unescaped x with
  | case1 c t ih =>
    obtain ⟨_, -, hl⟩ := ih fun d hd => hx d (by simp [hd])
    refine ⟨by simp; omega, fun _ h => ?_, by simpa [escaped, like] using hl⟩
    have := congrArg length h
    simp at this
    omega
  | case2 => decide
  | case3 c t _ _ ih =>
    obtain ⟨hlen, hne, hl⟩ := ih fun d hd => hx d (by simp [hd])
    have hc : c ≠ '\\' := by cases t <;> grind
    have he : escaped (c :: (t ++ ['%'])) = wildcard c :: escaped (t ++ ['%']) := by
      rw [escaped]
      exact fun _ _ h => absurd h hc
    refine ⟨by simpa using hlen, fun h heq => ?_, ?_⟩
    · exact hne ((mem_cons.1 h).resolve_left hc.symm) (cons.inj heq).2
    · simp [he, wildcard_eq (hx c mem_cons_self), like, hl]
  | case4 => decide

/-- **The recipient filter looks for its string exactly when** it has no wildcard, no backslash and no letter. -/
theorem literal_filter_iff (x : Text) :
    (∀ (rows : List Comment) (p : ListParams), p.addressedTo = x →
        rows.filter (wanted sqliteLike p) = rows.filter (wanted contains p) ∧
          rows.filter (wanted postgresLike p) = rows.filter (wanted contains p)) ↔
      ∀ c ∈ x, Plain c := by
  constructor
  · intro h c hc
    -- a table of one comment tells what is like the pattern
    have hlike : ∀ t, sqliteLike x t = contains x t ∧ postgresLike x t = contains x t := by
      intro t
      have hx := ne_nil_of_mem hc
      have hone := h [⟨"", "", some t, "", "", none, 0, none, none, none⟩] ⟨"", x, "", none, "", "", 0⟩ rfl
      simp only [wanted, filter_cons] at hone
      cases hs : sqliteLike x t <;> cases hp : postgresLike x t <;> cases hc : contains x t <;> simp [hx, hs, hp, hc] at hone ⊢
    have hself : ∀ t : Text, contains x t = true → t.length ≤ x.length → t = x := fun t ht hl =>
      ((of_decide_eq_true ht).eq_of_length_le hl).symm
    have hswap := hself (x.map swap) ((hlike _).1.symm.trans (any_eq_true.2 ⟨_, by simp, like_swap x⟩)) (by simp)
    have hplain : ∀ c ∈ x, c ∉ ['%', '_'] ∧ c.isAlpha = false := by
      intro c hc
      have hfix : swap c = c := map_inj_left.1 (hswap.trans (map_id x).symm) c hc
      exact ⟨fun h => (swap_spec c).1 (.inl h) hfix, Bool.eq_false_iff.2 fun h => (swap_spec c).1 (.inr h) hfix⟩
    obtain ⟨hl, hne, hu⟩ := unescaped_spec fun c hc => (hplain c hc).1
    have heq := hself _ ((hlike _).2.symm.trans (any_eq_true.2 ⟨_, by simp, hu⟩)) hl
    refine ⟨?_, (hplain c hc).2⟩
    have hback : c ≠ '\\' := fun h => hne (h ▸ hc) heq
    simpa [hback] using (hplain c hc).1
  · intro hx _ p hp
    have hmap : (x ++ ['%']).map wildcard = x.map .char ++ [.any] := by
      rw [map_append, map_congr_left fun c hc => wildcard_eq (by have := (hx c hc).1; simp_all)]
      rfl
    have hsqlite : sqliteLike x = contains x := by
      funext t
      have hsame : ∀ c ∈ x, ∀ d, (decide (c.toLower = d.toLower)) = true ↔ c = d := fun c hc d => by
        simpa using toLower_eq_iff (hx c hc).2 d
      rw [← like_contains hsame, ← hmap, map_append]
      rfl
    have hpostgres : postgresLike x = contains x := by
      funext t
      rw [← like_contains (fun _ _ _ => decide_eq_true_iff), ← hmap, postgresLike, escaped_eq]
      · rfl
      · intro h
        have hback : '\\' ∈ x := by simpa using h
        exact (hx _ hback).1 (by simp)
    have hwanted : wanted sqliteLike p = wanted contains p ∧ wanted postgresLike p = wanted contains p := by
      constructor <;> funext c <;> simp only [wanted, hp, hsqlite, hpostgres]
    rw [hwanted.1, hwanted.2]
    exact ⟨rfl, rfl⟩

end

/-- **Comments to somebody else**: the filter looks inside an address, an underscore stands for any character, and SQLite takes
capitals for small letters. -/
theorem filter_not_literal :
    sqliteLike "1".toList "12".toList = true ∧ postgresLike "1".toList "12".toList = true ∧
      sqliteLike "a_a".toList "ada".toList = true ∧ postgresLike "a_a".toList "ada".toList = true ∧
      contains "a_a".toList "ada".toList = false ∧ sqliteLike "ada".toList "ADA".toList = true ∧
      postgresLike "ada".toList "ADA".toList = false := by
  decide

/-! ## The session-state tool -/

def allAgents : Text := "@all-agents".toList

section
variable (like : Text → Text → Bool) (rows : List Comment) (sessionID : String) (email : Text) (now : Int)

def unresolvedFor (addr : Text) : ListParams := ⟨sessionID, addr, "", some false, "", "", 50⟩

def unresolvedComments : List Comment :=
  (list like rows (unresolvedFor sessionID email) (firstBound now)).1 ++
    (list like rows (unresolvedFor sessionID allAgents) (firstBound now)).1

/-- An unresolved comment of the session whose recipients have the caller among them, all agents or everyone. -/
def Addressed (c : Comment) : Prop :=
  c.sessionID = sessionID ∧ c.resolvedAt = none ∧
    ∃ t ∈ c.addressedTo, ∃ addr ∈ [email, allAgents, "@everyone".toList], contains addr t = true

/-- The comment is like the recipient, and fewer than fifty newer ones are. -/
def Newest (addr : Text) (c : Comment) : Prop :=
  let found := (rows.filter (wanted like (unresolvedFor sessionID addr))).filter (fun d => d.key < firstBound now)
  c ∈ found ∧ (found.filter (fun d => c.key < d.key)).length < 50

/-- **The tool has each comment to its caller once exactly when** each is among the newest fifty of one of its two queries, and
not of both. -/
theorem addressed_once_iff (hsorted : rows.Pairwise (fun a b => b.key < a.key)) :
    (∀ c ∈ rows, Addressed sessionID email c → (unresolvedComments like rows sessionID email now).count c = 1) ↔
      ∀ c ∈ rows, Addressed sessionID email c →
        Xor (Newest like rows sessionID now email c) (Newest like rows sessionID now allAgents c) := by
  have hp : ∀ addr c, ((list like rows (unresolvedFor sessionID addr) (firstBound now)).1).count c = 1 ∧
      Newest like rows sessionID now addr c ∨ ((list like rows (unresolvedFor sessionID addr) (firstBound now)).1).count c = 0 ∧
        ¬ Newest like rows sessionID now addr c := by
    intro addr c
    have hf := (hsorted.filter (wanted like (unresolvedFor sessionID addr))).filter (fun d => d.key < firstBound now)
    have hnodup := (hf.imp (S := (· ≠ ·)) fun h heq => (heq ▸ h).false).sublist (take_sublist 50 _)
    rw [list, page_fst]
    by_cases hc : c ∈ ((rows.filter (wanted like (unresolvedFor sessionID addr))).filter
        (fun d => d.key < firstBound now)).take 50
    · exact .inl ⟨count_eq_one_of_mem hnodup hc, (mem_take_iff hf).1 hc⟩
    · exact .inr ⟨count_eq_zero.2 hc, fun h => hc ((mem_take_iff hf).2 h)⟩
  refine forall_congr' fun c => imp_congr_right fun _ => imp_congr_right fun _ => ?_
  rw [unresolvedComments, count_append]
  rcases hp email c with ⟨h, hn⟩ | ⟨h, hn⟩ <;> rcases hp allAgents c with ⟨h', hn'⟩ | ⟨h', hn'⟩ <;>
    simp [h, h', hn, hn']

end

def comment (addressedTo : String) (resolvedAt : Option Int) : Comment :=
  ⟨"c", "s", some addressedTo.toList, "fyi", "sha", none, 0, resolvedAt, none, none⟩

theorem addressed_once_ada : Addressed "s" "ada".toList (comment "ada bob" none) ∧
    Xor (Newest postgresLike [comment "ada bob" none] "s" 0 "ada".toList (comment "ada bob" none))
      (Newest postgresLike [comment "ada bob" none] "s" 0 allAgents (comment "ada bob" none)) := by
  have ha : Addressed "s" "ada".toList (comment "ada bob" none) := ⟨rfl, rfl, _, rfl, "ada".toList, by simp, by decide⟩
  refine ⟨ha, (addressed_once_iff postgresLike [comment "ada bob" none] "s" "ada".toList 0 (by simp)).1 ?_ _ mem_cons_self ha⟩
  rintro c hc -
  cases mem_singleton.1 hc
  decide

/-- **A comment to everyone is not in the answer**, and one to the caller and all agents is there twice. -/
theorem everyone_missed : Addressed "s" "ada".toList (comment "@everyone" none) ∧
    unresolvedComments postgresLike [comment "@everyone" none] "s" "ada".toList 0 = [] ∧
    Addressed "s" "ada".toList (comment "ada @all-agents" none) ∧
    (unresolvedComments postgresLike [comment "ada @all-agents" none] "s" "ada".toList 0).count
      (comment "ada @all-agents" none) = 2 :=
  ⟨⟨rfl, rfl, _, rfl, "@everyone".toList, by simp, by decide⟩, by decide, ⟨rfl, rfl, _, rfl, "ada".toList, by simp, by decide⟩,
    by decide⟩

/-! ## Resolving -/

structure Resolve where
  sessionID : String
  accountID : String
  resolutionNote : Option String
  now : Int
deriving DecidableEq

inductive ResolveReply where
  | ok | notFound | alreadyResolved
deriving DecidableEq

/-- A call of `Resolve` is at its look at the comment, at its transaction, or over. -/
inductive Phase where
  | read (r : Resolve)
  | tx (r : Resolve)
  | done (r : Resolve) (reply : ResolveReply)
deriving DecidableEq

/-- One comment, the accounts and notes of its `comment.resolved` events, and the calls. -/
structure State where
  comment : Comment
  events : List (String × Option String)
  calls : Nat → Option Phase

/-- `ResolveComment` updates a row of the session that is not resolved. -/
def resolveComment (c : Comment) (r : Resolve) : Comment :=
  if c.sessionID = r.sessionID ∧ c.resolvedAt = none then
    { c with resolvedAt := some r.now, resolvedBy := some r.accountID, resolutionNote := r.resolutionNote }
  else c

inductive Act where
  | start (i : Nat) (r : Resolve)
  | go (i : Nat)

/-- The store's calls succeed: one that fails ends its call with nothing changed. -/
def State.step (s : State) : Act → Option State
  | .start i r => if s.calls i = none then some { s with calls := update s.calls i (some (.read r)) } else none
  | .go i =>
    match s.calls i with
    | some (.read r) =>
      let p := if s.comment.sessionID ≠ r.sessionID then .done r .notFound
        else if s.comment.resolvedAt.isSome then .done r .alreadyResolved else .tx r
      some { s with calls := update s.calls i (some p) }
    | some (.tx r) =>
      some ⟨resolveComment s.comment r, s.events ++ [(r.accountID, r.resolutionNote)], update s.calls i (some (.done r .ok))⟩
    | _ => none

/-- **A transaction finds the comment as its call has read it**; all calls are for the comment's session. -/
def FindsUnresolved (s : State) : Act → Prop
  | .start _ r => r.sessionID = s.comment.sessionID
  | .go i => ∀ r, s.calls i = some (.tx r) → s.comment.resolvedAt = none

def Phase.request : Phase → Resolve
  | .read r | .tx r | .done r _ => r

/-- Nothing has been done: no call is over. -/
structure Unresolved (s : State) : Prop where
  comment : s.comment.resolvedAt = none
  event : s.events = []
  calls : ∀ i r reply, s.calls i ≠ some (.done r reply)

/-- **The call `i` has resolved the comment**, with the one event, and any other that is over was told so. -/
structure ResolvedBy (s : State) (i : Nat) (r : Resolve) : Prop where
  call : s.calls i = some (.done r .ok)
  comment : s.comment.resolvedAt = some r.now ∧ s.comment.resolvedBy = some r.accountID
  event : s.events = [(r.accountID, r.resolutionNote)]
  others : ∀ j r' reply, s.calls j = some (.done r' reply) → j ≠ i → reply = .alreadyResolved

structure Sound (s : State) : Prop where
  session : ∀ i q, s.calls i = some q → q.request.sessionID = s.comment.sessionID
  once : Unresolved s ∨ ∃ i r, ResolvedBy s i r

theorem Sound.step {s s' : State} {a : Act} (h : Sound s) (hok : FindsUnresolved s a) (hstep : s.step a = some s') : Sound s' := by
  obtain ⟨hs, hc⟩ := h
  cases a with
  | start i r =>
    simp only [State.step] at hstep
    split at hstep <;> cases hstep
    refine ⟨fun j q _ => ?_, hc.imp (fun h => ⟨h.comment, h.event, fun j r' _ => ?_⟩) fun ⟨k, r', h⟩ =>
      ⟨k, r', ?_, h.comment, h.event, fun j q _ _ => ?_⟩⟩
    · grind [Phase.request, FindsUnresolved]
    · grind [Unresolved]
    · grind [ResolvedBy]
    · grind [ResolvedBy]
  | go i =>
    simp only [State.step] at hstep
    split at hstep
    · rename_i r hi
      cases hstep
      have hr : r.sessionID = s.comment.sessionID := hs i _ hi
      rw [if_neg (not_not.2 hr.symm)]
      refine ⟨fun j q _ => ?_, hc.imp (fun h => ⟨h.comment, h.event, fun j r' _ => ?_⟩) fun ⟨k, r', h⟩ =>
        ⟨k, r', ?_, h.comment, h.event, fun j q _ _ => ?_⟩⟩
      · grind [Phase.request]
      · grind [Unresolved]
      · grind [ResolvedBy]
      · grind [ResolvedBy]
    · rename_i r hi
      cases hstep
      have hr : r.sessionID = s.comment.sessionID := hs i _ hi
      have ho : Unresolved s := hc.resolve_right fun ⟨k, r', h⟩ => by
        simpa [hok r hi] using h.comment.1
      rw [resolveComment, if_pos ⟨hr.symm, ho.comment⟩]
      refine ⟨fun j q hj => ?_, .inr ⟨i, r, by simp, ⟨rfl, rfl⟩, by simp [ho.event], fun j r' reply hj hne => ?_⟩⟩
      · grind [Phase.request]
      · simp only [update_apply, if_neg hne] at hj
        exact absurd hj (ho.calls j r' reply)
    · cases hstep

/-- **The comment is resolved once**: by one call, with one event; a call that comes later is told so. -/
theorem resolved_once (s₀ s : State) (as : List Act) (hfresh : s₀.comment.resolvedAt = none ∧ s₀.events = [])
    (hcalls : ∀ i, s₀.calls i = none) (hok : Machine.Along State.step FindsUnresolved s₀ as)
    (hrun : Machine.exec State.step s₀ as = some s) : Unresolved s ∨ ∃ i r, ResolvedBy s i r := by
  have hs : Sound s₀ := ⟨by simp [hcalls], .inl ⟨hfresh.1, hfresh.2, by simp [hcalls]⟩⟩
  exact (Machine.invariant (fun _ _ _ h hok hstep => h.step hok hstep) hs hok hrun).once

def resolve (accountID : String) : Resolve := ⟨"s", accountID, none, 1⟩

def unresolvedState : State := ⟨comment "ada" none, [], fun _ => none⟩

def inTurn : List Act := [.start 0 (resolve "ada"), .go 0, .go 0, .start 1 (resolve "bob"), .go 1]

theorem resolved_once_inTurn : ∃ s, Machine.exec State.step unresolvedState inTurn = some s ∧
    s.calls 1 = some (.done (resolve "bob") .alreadyResolved) ∧ (Unresolved s ∨ ∃ i r, ResolvedBy s i r) := by
  have hr : Machine.exec State.step unresolvedState inTurn = some _ := rfl
  refine ⟨_, hr, rfl, resolved_once unresolvedState _ _ ⟨rfl, rfl⟩ (fun _ => rfl) ?_ hr⟩
  exact .cons_of_step rfl rfl (.cons_of_step nofun rfl (.cons_of_step (fun _ _ => rfl) rfl
    (.cons_of_step rfl rfl (.cons_of_step nofun rfl trivial))))

/-- **Two calls that have both read the comment both succeed**, and the log has two events. -/
theorem resolved_twice :
    ∃ s, Machine.exec State.step unresolvedState
        [.start 0 (resolve "ada"), .start 1 (resolve "bob"), .go 0, .go 1, .go 0, .go 1] = some s ∧
      s.calls 0 = some (.done (resolve "ada") .ok) ∧ s.calls 1 = some (.done (resolve "bob") .ok) ∧
        s.events = [("ada", none), ("bob", none)] ∧ s.comment.resolvedBy = some "ada" :=
  ⟨_, rfl, rfl, rfl, rfl, rfl⟩

end Jamsesh.Comments
