import Jamsesh.Machine
import Mathlib.Data.List.Nodup
/-!
# Tokens — access and refresh tokens, and their calls (`tokens/service_impl.go`, `oauth_tokens.sql`)

Any number of calls of `Refresh`, `Issue` and `Revoke` run at the same time, each cut at its SQL statements, which take their
own readings of the clock.  A statement may fail, or be carried out and its answer lost.  Each row also carries what the table
does not: the first token of its chain of refreshes.
-/
namespace Jamsesh.Tokens

/-! ## The table -/

inductive Kind where
  | access | refresh | anonymousSessionBearer
deriving DecidableEq

/-- A row of `oauth_tokens`; times are in nanoseconds, and `root` is the id of the first token of its chain of refreshes. -/
structure Row where
  id : Nat
  accountID : String
  tokenHash : String
  kind : Kind
  issuedAt : Int
  expiresAt : Int
  lastUsedAt : Option Int
  revokedAt : Option Int
  root : Nat
deriving DecidableEq

/-- **The table**, with its primary key and the unique index on the hashes. -/
structure Table where
  rows : List Row
  ids : (rows.map (·.id)).Nodup
  hashes : (rows.map (·.tokenHash)).Nodup

namespace Table

/-- `GetOAuthTokenByHash` -/
def getByHash (t : Table) (hash : String) : Option Row := t.rows.find? (fun r => r.tokenHash = hash)

/-- `CreateOAuthToken`, refused when the id or the hash is taken. -/
def insert (t : Table) (row : Row) : Option Table :=
  if h : row.id ∉ t.rows.map (·.id) ∧ row.tokenHash ∉ t.rows.map (·.tokenHash) then
    some ⟨t.rows ++ [row], by simpa [List.nodup_append] using ⟨t.ids, fun r hr he => h.1 (List.mem_map.2 ⟨r, hr, he⟩)⟩,
      by simpa [List.nodup_append] using ⟨t.hashes, fun r hr he => h.2 (List.mem_map.2 ⟨r, hr, he⟩)⟩⟩
  else none

/-- An `UPDATE` that sets neither the id nor the hash. -/
def updateWhere (t : Table) (p : Row → Bool) (set : Row → Row) (hid : ∀ r, (set r).id = r.id)
    (hhash : ∀ r, (set r).tokenHash = r.tokenHash) : Table where
  rows := t.rows.map (fun r => if p r then set r else r)
  ids := by
    have hsame : ∀ r : Row, (if p r then set r else r).id = r.id := fun r => by split <;> simp [hid]
    simpa [List.map_map, Function.comp_def, hsame] using t.ids
  hashes := by
    have hsame : ∀ r : Row, (if p r then set r else r).tokenHash = r.tokenHash := fun r => by split <;> simp [hhash]
    simpa [List.map_map, Function.comp_def, hsame] using t.hashes

/-- `TouchOAuthTokenLastUsed` -/
def touchLastUsed (t : Table) (id : Nat) (now : Int) : Table :=
  t.updateWhere (fun r => r.id = id) (fun r => { r with lastUsedAt := some now }) (fun _ => rfl) (fun _ => rfl)

/-- `RevokeOAuthToken`: whatever the row has as its time of revocation. -/
def revoke (t : Table) (id : Nat) (now : Int) : Table :=
  t.updateWhere (fun r => r.id = id) (fun r => { r with revokedAt := some now }) (fun _ => rfl) (fun _ => rfl)

/-- `RevokeAllOAuthTokensForAccount` -/
def revokeAll (t : Table) (accountID : String) (now : Int) : Table :=
  t.updateWhere (fun r => r.accountID = accountID && r.revokedAt.isNone) (fun r => { r with revokedAt := some now })
    (fun _ => rfl) (fun _ => rfl)

end Table

/-! ## The calls -/

inductive TokenErr where
  | invalid | expired | revoked | forbidden | store
deriving DecidableEq

/-- The checks of `Validate` on the row it has read: revocation before expiry. -/
def check (row : Option Row) (now : Int) : Except TokenErr Row :=
  match row with
  | none => .error .invalid
  | some row =>
    if row.revokedAt.isSome then .error .revoked
    else if row.expiresAt < now then .error .expired
    else .ok row

/-- `Validate` up to its look at the account, which is always there: a token is accepted when its row passes the checks. -/
def validate (hashToken : String → String) (t : Table) (raw : String) (now : Int) : Except TokenErr Row :=
  if raw = "" then .error .invalid else check (t.getByHash (hashToken raw)) now

structure Pair where
  accessToken : String
  refreshToken : String
  accessExpiresAt : Int
  refreshExpiresAt : Int
deriving DecidableEq

def accessTokenTTL : Int := 3600 * 1000000000

def refreshTokenTTL : Int := 30 * 24 * 3600 * 1000000000

structure Source where
  raw : String
  rowID : Nat
  root : Nat
deriving DecidableEq

inductive Outcome where
  | pair (p : Pair)
  | revoked
  | failed (e : TokenErr)
deriving DecidableEq

inductive Op where
  | refresh (raw : String)
  | issue (accountID : String)
  | revoke (callerAccountID raw : String) (revokeAll : Bool)
deriving DecidableEq

inductive Phase where
  | validate (raw : String)
  | touch (raw : String) (row : Row)
  | account (raw : String) (row : Row)
  | refetch (raw accountID : String)
  | consume (raw accountID : String) (row : Row)
  /-- the two inserts of `Issue`, for a call of its own or at the end of a `Refresh` -/
  | access (accountID : String) (src : Option Source)
  | refresh (accountID : String) (src : Option Source) (now : Int) (accessRaw : String)
  | lookup (callerAccountID raw : String) (revokeAll : Bool)
  | revokeOne (id : Nat)
  | revokeAll (accountID : String)
  | done (src : Option Source) (o : Outcome)
deriving DecidableEq

def Op.entry : Op → Phase
  | .refresh raw => .validate raw
  | .issue accountID => .access accountID none
  | .revoke caller raw all => .lookup caller raw all

/-- What becomes of a statement: carried out, not carried out, or carried out and its answer lost. -/
inductive Reply where
  | ok | failed | lost
deriving DecidableEq

/-- What a statement meets: its reply, the clock, and the random values drawn for it. -/
structure Turn where
  reply : Reply
  now : Int
  newID : Nat
  newRaw : String
deriving DecidableEq

/-- A statement that makes `t'` of the table `t` and lets the call go on as `p`. -/
def Reply.run (r : Reply) (t t' : Table) (p : Phase) : Table × Phase :=
  match r with
  | .ok => (t', p)
  | .lost => (t', .done none (.failed .store))
  | .failed => (t, .done none (.failed .store))

def Reply.create (r : Reply) (t : Table) (row : Row) (p : Phase) : Table × Phase :=
  match t.insert row with
  | none => (t, .done none (.failed .store))
  | some t' => r.run t t' p

/-- The root of a token that a call inserts: that of the token it consumed, or the token itself. -/
def rootOf (src : Option Source) (id : Nat) : Nat := (src.map (·.root)).getD id

def Phase.next (hashToken : String → String) (t : Table) (p : Phase) (turn : Turn) : Option (Table × Phase) :=
  match p with
  | .validate raw =>
    if raw = "" then some (t, .done none (.failed .invalid))
    else some (match check (t.getByHash (hashToken raw)) turn.now with
      | .error e => turn.reply.run t t (.done none (.failed e))
      | .ok row => turn.reply.run t t (.touch raw row))
  | .touch raw row =>
    -- the answer of this statement is not looked at
    some (if turn.reply = .failed then t else t.touchLastUsed row.id turn.now, .account raw row)
  | .account raw row => some (turn.reply.run t t (.refetch raw row.accountID))
  | .refetch raw accountID =>
    some (match t.getByHash (hashToken raw) with
      | none => (t, .done none (.failed .store))
      | some row =>
        if row.kind = .refresh then turn.reply.run t t (.consume raw accountID row)
        else turn.reply.run t t (.done none (.failed .invalid)))
  | .consume raw accountID row =>
    some (turn.reply.run t (t.revoke row.id turn.now) (.access accountID (some ⟨raw, row.id, row.root⟩)))
  | .access accountID src =>
    some (turn.reply.create t ⟨turn.newID, accountID, hashToken turn.newRaw, .access, turn.now, turn.now + accessTokenTTL,
      none, none, rootOf src turn.newID⟩ (.refresh accountID src turn.now turn.newRaw))
  | .refresh accountID src now accessRaw =>
    some (turn.reply.create t ⟨turn.newID, accountID, hashToken turn.newRaw, .refresh, now, now + refreshTokenTTL, none, none,
      rootOf src turn.newID⟩
      (.done src (.pair ⟨accessRaw, turn.newRaw, now + accessTokenTTL, now + refreshTokenTTL⟩)))
  | .lookup caller raw all =>
    some (match t.getByHash (hashToken raw) with
      | none => turn.reply.run t t (.done none .revoked)
      | some row =>
        if row.accountID ≠ caller then turn.reply.run t t (.done none (.failed .forbidden))
        else turn.reply.run t t (if all then .revokeAll row.accountID else .revokeOne row.id))
  | .revokeOne id => some (turn.reply.run t (t.revoke id turn.now) (.done none .revoked))
  | .revokeAll accountID => some (turn.reply.run t (t.revokeAll accountID turn.now) (.done none .revoked))
  | .done _ _ => none

/-! ## Runs -/

/-- A revoke-all statement that was executed, with the tokens of the account that there were. -/
structure Sweep where
  accountID : String
  issued : List Nat
deriving DecidableEq

structure State where
  table : Table
  calls : List Phase
  swept : List Sweep

inductive Act where
  | start (op : Op)
  | go (i : Nat) (turn : Turn)
deriving DecidableEq

def Phase.sweep (t : Table) (p : Phase) (turn : Turn) : List Sweep :=
  match p with
  | .revokeAll accountID =>
    if turn.reply = .failed then []
    else [⟨accountID, (t.rows.filter (fun r => r.accountID = accountID)).map (·.id)⟩]
  | _ => []

def State.step (hashToken : String → String) (s : State) : Act → Option State
  | .start op => some { s with calls := s.calls ++ [op.entry] }
  | .go i turn => do
    let p ← s.calls[i]?
    let (t, p') ← p.next hashToken s.table turn
    return ⟨t, s.calls.set i p', s.swept ++ p.sweep s.table turn⟩

/-- **Any tokens, each with a first token of the same account, and no call yet.** -/
structure Initial (s : State) : Prop where
  calls : s.calls = []
  swept : s.swept = []
  roots : ∀ r ∈ s.table.rows, ∃ r₀ ∈ s.table.rows, r₀.id = r.root ∧ r₀.accountID = r.accountID

end Jamsesh.Tokens
