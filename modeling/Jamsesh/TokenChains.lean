import Jamsesh.Tokens
/-!
# TokenChains — refresh tokens that are used once, and chains that a logout ends

`Refresh` revokes its token without looking at what the row has become, and inserts a new pair whatever was revoked
meanwhile.  Where each revocation finds its row still live a token is used once (`refresh_used_once`); where a revoke-all
statement meets no refresh under way, it ends every chain of refreshes (`chains_ended`).
-/
namespace Jamsesh.Tokens

open List

variable {hashToken : String → String}

/-! ## What a statement does to the table -/

/-- **A row as a later table has it**: revocation is never undone. -/
structure Row.Kept (r r' : Row) : Prop where
  id : r'.id = r.id
  accountID : r'.accountID = r.accountID
  tokenHash : r'.tokenHash = r.tokenHash
  root : r'.root = r.root
  revokedAt : r'.revokedAt = none → r.revokedAt = none

theorem Row.Kept.refl (r : Row) : r.Kept r := ⟨rfl, rfl, rfl, rfl, fun h => h⟩

variable {p : Phase} {now : Int} {accountID : String} {r : Row} {src : Source}

namespace Table

variable {t t' : Table} {r r' : Row}

theorem eq_of_hash (hr : r ∈ t.rows) (hr' : r' ∈ t.rows) (h : r.tokenHash = r'.tokenHash) : r = r' :=
  inj_on_of_nodup_map t.hashes hr hr' h

theorem eq_of_id (hr : r ∈ t.rows) (hr' : r' ∈ t.rows) (h : r.id = r'.id) : r = r' :=
  inj_on_of_nodup_map t.ids hr hr' h

theorem getByHash_eq_some {hash : String} (h : t.getByHash hash = some r) : r ∈ t.rows ∧ r.tokenHash = hash :=
  ⟨mem_of_find?_eq_some h, by simpa using List.find?_some h⟩

theorem mem_insert {row : Row} (h : t.insert row = some t') : ∀ r, r ∈ t'.rows ↔ r ∈ t.rows ∨ r = row := by
  unfold insert at h
  split at h <;> cases h
  intro r
  simp

theorem insert_fresh {row : Row} (h : t.insert row = some t') : ∀ r ∈ t.rows, r.id ≠ row.id := by
  unfold insert at h
  split at h
  · rename_i hn
    exact fun r hr hid => hn.1 (mem_map.2 ⟨r, hr, hid⟩)
  · cases h

/-- **Every row of `t` is kept in `t'`, and there is no other.** -/
structure Updates (t t' : Table) : Prop where
  kept : ∀ r ∈ t.rows, ∃ r' ∈ t'.rows, r.Kept r'
  origin : ∀ r' ∈ t'.rows, ∃ r ∈ t.rows, r.Kept r'

theorem Updates.refl (t : Table) : t.Updates t := ⟨fun r hr => ⟨r, hr, .refl r⟩, fun r hr => ⟨r, hr, .refl r⟩⟩

theorem updates_updateWhere {p : Row → Bool} {set : Row → Row} {hid hhash} (hs : ∀ r : Row, r.Kept (set r)) :
    t.Updates (t.updateWhere p set hid hhash) := by
  have hk : ∀ r : Row, r.Kept (if p r then set r else r) := fun r => by
    split
    · exact hs r
    · exact .refl r
  refine ⟨fun r hr => ⟨_, mem_map.2 ⟨r, hr, rfl⟩, hk r⟩, fun _ hr' => ?_⟩
  obtain ⟨r, hr, rfl⟩ := mem_map.1 hr'
  exact ⟨r, hr, hk r⟩

theorem updates_touchLastUsed (id : Nat) (now : Int) : t.Updates (t.touchLastUsed id now) :=
  updates_updateWhere fun _ => ⟨rfl, rfl, rfl, rfl, fun h => h⟩

theorem updates_revoke (id : Nat) (now : Int) : t.Updates (t.revoke id now) :=
  updates_updateWhere fun _ => ⟨rfl, rfl, rfl, rfl, fun h => by cases h⟩

theorem updates_revokeAll (accountID : String) (now : Int) : t.Updates (t.revokeAll accountID now) :=
  updates_updateWhere fun _ => ⟨rfl, rfl, rfl, rfl, fun h => by cases h⟩

theorem revokedAt_revoke {id : Nat} (hr : r ∈ (t.revoke id now).rows) (hid : r.id = id) : r.revokedAt ≠ none := by
  obtain ⟨r₀, -, rfl⟩ := mem_map.1 hr
  by_cases h : r₀.id = id
  · simp [h]
  · simp [h] at hid

theorem revokedAt_revokeAll (hr : r ∈ (t.revokeAll accountID now).rows)
    (ha : r.accountID = accountID) : r.revokedAt ≠ none := by
  obtain ⟨r₀, -, rfl⟩ := mem_map.1 hr
  by_cases h : (r₀.accountID = accountID && r₀.revokedAt.isNone) = true
  · simp [h]
  · rw [if_neg h] at ha ⊢
    intro hn
    simp [ha, hn] at h

end Table

/-! ## What a statement does to its call -/

/-- **The moves of a call**, with what the statement does to the table. -/
inductive Move (hashToken : String → String) (t : Table) (turn : Turn) : Phase → Table → Phase → Prop
  | ends {p : Phase} {o : Outcome} (hsweep : p.sweep t turn = []) : Move hashToken t turn p t (.done none o)
  | validated {raw : String} {row : Row} (hread : t.getByHash (hashToken raw) = some row) (hlive : row.revokedAt = none) :
    Move hashToken t turn (.validate raw) t (.touch raw row)
  | touched {raw : String} {row : Row} {t' : Table} (htable : t.Updates t') :
    Move hashToken t turn (.touch raw row) t' (.account raw row)
  | found {raw : String} {row : Row} : Move hashToken t turn (.account raw row) t (.refetch raw row.accountID)
  | refetched {raw accountID : String} {row : Row} (hread : t.getByHash (hashToken raw) = some row) :
    Move hashToken t turn (.refetch raw accountID) t (.consume raw accountID row)
  | consumed {raw accountID : String} {row : Row} {now : Int} {p' : Phase} (hrun : turn.reply ≠ .failed)
    (hnext : p' = .access accountID (some ⟨raw, row.id, row.root⟩) ∨ ∃ o, p' = .done none o) :
    Move hashToken t turn (.consume raw accountID row) (t.revoke row.id now) p'
  | access {accountID : String} {src : Option Source} {row : Row} {t' : Table} {p' : Phase}
    (hinsert : t.insert row = some t') (haccount : row.accountID = accountID) (hroot : row.root = rootOf src row.id)
    (hnext : (∃ now accessRaw, p' = .refresh accountID src now accessRaw) ∨ ∃ o, p' = .done none o) :
    Move hashToken t turn (.access accountID src) t' p'
  | refresh {accountID accessRaw : String} {src : Option Source} {row : Row} {t' : Table} {p' : Phase} {now : Int}
    (hinsert : t.insert row = some t') (haccount : row.accountID = accountID) (hroot : row.root = rootOf src row.id)
    (hnext : (∃ pair, p' = .done src (.pair pair)) ∨ ∃ o, p' = .done none o) :
    Move hashToken t turn (.refresh accountID src now accessRaw) t' p'
  | looked {caller raw : String} {all : Bool} {p' : Phase} (hnext : (∃ id, p' = .revokeOne id) ∨ ∃ a, p' = .revokeAll a) :
    Move hashToken t turn (.lookup caller raw all) t p'
  | revokedOne {id : Nat} {now : Int} {o : Outcome} : Move hashToken t turn (.revokeOne id) (t.revoke id now) (.done none o)
  | revokedAll {accountID : String} {now : Int} {o : Outcome} (hrun : turn.reply ≠ .failed) :
    Move hashToken t turn (.revokeAll accountID) (t.revokeAll accountID now) (.done none o)

theorem check_eq_ok {row : Option Row} (h : check row now = .ok r) : row = some r ∧ r.revokedAt = none := by
  unfold check at h
  split at h
  · cases h
  rename_i row
  by_cases hr : row.revokedAt.isSome = true
  · rw [if_pos hr] at h
    cases h
  rw [if_neg hr] at h
  split at h <;> cases h
  exact ⟨rfl, by simpa using hr⟩

theorem next_move {t t' : Table} {p' : Phase} {turn : Turn} (h : p.next hashToken t turn = some (t', p')) :
    Move hashToken t turn p t' p' := by
  obtain ⟨reply, now, _, _⟩ := turn
  cases p with simp only [Phase.next] at h
  | validate raw =>
    split at h
    · cases h
      exact .ends rfl
    cases hc : check (t.getByHash (hashToken raw)) now with
    | error =>
      cases reply <;> simp only [hc] at h <;> obtain ⟨rfl, rfl⟩ := h <;>
        exact .ends rfl
    | ok =>
      obtain ⟨hr, hl⟩ := check_eq_ok hc
      cases reply <;> simp only [hc] at h <;> obtain ⟨rfl, rfl⟩ := h
      · exact .validated hr hl
      · exact .ends rfl
      · exact .ends rfl
  | touch =>
    obtain ⟨-, -⟩ := h
    refine .touched ?_
    split
    · exact .refl t
    · exact Table.updates_touchLastUsed _ _
  | account =>
    cases reply <;> obtain ⟨rfl, rfl⟩ := h
    · exact .found
    · exact .ends rfl
    · exact .ends rfl
  | refetch =>
    split at h
    · cases h
      exact .ends rfl
    rename_i hr
    split at h <;> cases reply <;> cases h
    · exact .refetched hr
    all_goals exact .ends rfl
  | consume =>
    cases reply <;> obtain ⟨rfl, rfl⟩ := h
    · exact .consumed (by simp) (.inl rfl)
    · exact .ends rfl
    · exact .consumed (by simp) (.inr ⟨_, rfl⟩)
  | access =>
    simp only [Reply.create] at h
    split at h
    · cases h
      exact .ends rfl
    rename_i hi
    cases reply <;> cases h
    · exact .access hi rfl rfl (.inl ⟨_, _, rfl⟩)
    · exact .ends rfl
    · exact .access hi rfl rfl (.inr ⟨_, rfl⟩)
  | refresh =>
    simp only [Reply.create] at h
    split at h
    · cases h
      exact .ends rfl
    rename_i hi
    cases reply <;> cases h
    · exact .refresh hi rfl rfl (.inl ⟨_, rfl⟩)
    · exact .ends rfl
    · exact .refresh hi rfl rfl (.inr ⟨_, rfl⟩)
  | lookup =>
    split at h
    · cases reply <;> cases h <;> exact .ends rfl
    split at h
    · cases reply <;> cases h <;> exact .ends rfl
    cases reply <;> cases h
    · refine .looked ?_
      split
      · exact .inr ⟨_, rfl⟩
      · exact .inl ⟨_, rfl⟩
    · exact .ends rfl
    · exact .ends rfl
  | revokeOne =>
    cases reply <;> obtain ⟨rfl, rfl⟩ := h
    · exact .revokedOne
    · exact .ends rfl
    · exact .revokedOne
  | revokeAll =>
    cases reply <;> obtain ⟨rfl, rfl⟩ := h
    · exact .revokedAll (by simp)
    · exact .ends rfl
    · exact .revokedAll (by simp)
  | done => cases h

def Phase.source : Phase → Option Source
  | .consume raw _ row => some ⟨raw, row.id, row.root⟩
  | .access _ src => src
  | .refresh _ src _ _ => src
  | .done src _ => src
  | _ => none

def Phase.spent : Phase → Option Source
  | .consume _ _ _ => none
  | p => p.source

section
variable {t t' : Table} {turn : Turn} {p p' : Phase}

theorem source_of_spent (h : p.spent = some src) : p.source = some src := by
  cases p with
  | consume => cases h
  | _ => exact h

variable (h : Move hashToken t turn p t' p')
include h

theorem Move.kept : ∀ r ∈ t.rows, ∃ r' ∈ t'.rows, r.Kept r' := by
  cases h with
  | touched ht => exact ht.kept
  | consumed | revokedOne => exact (Table.updates_revoke _ _).kept
  | access hi | refresh hi => exact fun r hr => ⟨r, (Table.mem_insert hi r).2 (.inl hr), .refl r⟩
  | revokedAll => exact (Table.updates_revokeAll _ _).kept
  | _ => exact (Table.Updates.refl t).kept

theorem Move.source (hs : p'.source = some src) :
    p.source = some src ∨ ∃ row ∈ t.rows, row.tokenHash = hashToken src.raw ∧ src = ⟨src.raw, row.id, row.root⟩ := by
  cases h with
  | refetched hr =>
    cases hs
    obtain ⟨hrow, hh⟩ := Table.getByHash_eq_some hr
    exact .inr ⟨_, hrow, hh, rfl⟩
  | consumed _ hn =>
    rcases hn with rfl | ⟨o, rfl⟩
    · exact .inl hs
    · cases hs
  | access _ _ _ hn =>
    rcases hn with ⟨_, _, rfl⟩ | ⟨o, rfl⟩
    · exact .inl hs
    · cases hs
  | refresh _ _ _ hn =>
    rcases hn with ⟨_, rfl⟩ | ⟨o, rfl⟩
    · exact .inl hs
    · cases hs
  | looked hn => rcases hn with ⟨_, rfl⟩ | ⟨a, rfl⟩ <;> cases hs
  | _ => cases hs

theorem Move.spent (hs : p'.spent = some src) :
    p.spent = some src ∨ ∃ accountID row now, p = .consume src.raw accountID row ∧ src.rowID = row.id ∧
      turn.reply ≠ .failed ∧ t' = t.revoke row.id now := by
  cases h with
  | consumed hr hn =>
    rcases hn with rfl | ⟨o, rfl⟩
    · cases hs
      exact .inr ⟨_, _, _, rfl, rfl, hr, rfl⟩
    · cases hs
  | access _ _ _ hn =>
    rcases hn with ⟨_, _, rfl⟩ | ⟨o, rfl⟩
    · exact .inl hs
    · cases hs
  | refresh _ _ _ hn =>
    rcases hn with ⟨_, rfl⟩ | ⟨o, rfl⟩
    · exact .inl hs
    · cases hs
  | looked hn => rcases hn with ⟨_, rfl⟩ | ⟨a, rfl⟩ <;> cases hs
  | _ => cases hs

def Phase.issuing : Phase → Option (String × Option Source)
  | .access accountID src => some (accountID, src)
  | .refresh accountID src _ _ => some (accountID, src)
  | _ => none

theorem Move.origin {r' : Row} (hr' : r' ∈ t'.rows) :
    (∃ r ∈ t.rows, r.Kept r') ∨ ∃ src, p.issuing = some (r'.accountID, src) ∧ r'.root = rootOf src r'.id ∧
      ∀ r ∈ t.rows, r.id ≠ r'.id := by
  cases h with
  | touched ht => exact .inl (ht.origin r' hr')
  | consumed | revokedOne => exact .inl ((Table.updates_revoke _ _).origin r' hr')
  | access hi ha hroot | refresh hi ha hroot =>
    rcases (Table.mem_insert hi r').1 hr' with hr | rfl
    · exact .inl ⟨r', hr, .refl r'⟩
    · exact .inr ⟨_, by rw [ha]; rfl, hroot, Table.insert_fresh hi⟩
  | revokedAll => exact .inl ((Table.updates_revokeAll _ _).origin r' hr')
  | _ => exact .inl ⟨r', hr', .refl r'⟩

/-- The token and the account of a refresh that has passed `Validate` and has not inserted its pair. -/
def Phase.flying : Phase → Option (String × String)
  | .touch raw row => some (raw, row.accountID)
  | .account raw row => some (raw, row.accountID)
  | .refetch raw accountID => some (raw, accountID)
  | .consume raw accountID _ => some (raw, accountID)
  | .access accountID src => src.map (fun src => (src.raw, accountID))
  | .refresh accountID src _ _ => src.map (fun src => (src.raw, accountID))
  | _ => none

theorem Move.flying {raw : String} (hf : p'.flying = some (raw, accountID)) : p.flying = some (raw, accountID) ∨
      ∃ r ∈ t.rows, r.tokenHash = hashToken raw ∧ r.accountID = accountID ∧ r.revokedAt = none := by
  cases h with
  | validated hread hl =>
    cases hf
    obtain ⟨hr, hh⟩ := Table.getByHash_eq_some hread
    exact .inr ⟨_, hr, hh, rfl, hl⟩
  | touched | found | refetched => exact .inl hf
  | consumed _ hn =>
    rcases hn with rfl | ⟨o, rfl⟩
    · exact .inl hf
    · cases hf
  | access _ _ _ hn =>
    rcases hn with ⟨_, _, rfl⟩ | ⟨o, rfl⟩
    · exact .inl hf
    · cases hf
  | refresh _ _ _ hn => rcases hn with ⟨_, rfl⟩ | ⟨o, rfl⟩ <;> cases hf
  | looked hn => rcases hn with ⟨_, rfl⟩ | ⟨a, rfl⟩ <;> cases hf
  | _ => cases hf

theorem Move.sweep {sw : Sweep} (hsw : sw ∈ p.sweep t turn) :
    ∃ accountID now, p = .revokeAll accountID ∧ turn.reply ≠ .failed ∧ t' = t.revokeAll accountID now ∧
      sw = ⟨accountID, (t.rows.filter (fun r => r.accountID = accountID)).map (·.id)⟩ := by
  cases h with
  | ends hs =>
    rw [hs] at hsw
    cases hsw
  | revokedAll hr =>
    simp only [Phase.sweep, if_neg hr, mem_singleton] at hsw
    exact ⟨_, _, rfl, hr, rfl, hsw⟩
  | _ => cases hsw

end

section
variable {s s' : State} {a : Act}

theorem step_cases (h : s.step hashToken a = some s') :
    (∃ op, a = .start op ∧ s' = { s with calls := s.calls ++ [op.entry] }) ∨
    ∃ i turn p t p', a = .go i turn ∧ s.calls[i]? = some p ∧ Move hashToken s.table turn p t p' ∧
      s' = ⟨t, s.calls.set i p', s.swept ++ p.sweep s.table turn⟩ := by
  cases a with
  | start op =>
    cases h
    exact .inl ⟨op, rfl, rfl⟩
  | go i turn =>
    simp only [State.step, Option.bind_eq_bind, Option.bind_eq_some_iff] at h
    obtain ⟨p, hp, ⟨t, p'⟩, hn, hs'⟩ := h
    cases hs'
    exact .inr ⟨i, turn, p, t, p', rfl, hp, next_move hn, rfl⟩

theorem entry_source (op : Op) : op.entry.source = none := by cases op <;> rfl

/-- **The token of every call is in the table**, under the hash of what the call presented. -/
def Sourced (hashToken : String → String) (s : State) : Prop :=
  ∀ p ∈ s.calls, ∀ src, p.source = some src →
    ∃ r ∈ s.table.rows, r.id = src.rowID ∧ r.tokenHash = hashToken src.raw ∧ r.root = src.root

theorem Sourced.step (h : Sourced hashToken s) (hstep : s.step hashToken a = some s') : Sourced hashToken s' := by
  obtain ⟨_, rfl, rfl⟩ | ⟨i, _, p, t, _, rfl, hp, hm, rfl⟩ := step_cases hstep
  · intro q hq src hsrc
    rcases mem_append.1 hq with hq | hq
    · exact h q hq src hsrc
    · rw [mem_singleton.1 hq, entry_source] at hsrc
      cases hsrc
  · have hin : ∀ src : Source, (∃ r ∈ s.table.rows, r.id = src.rowID ∧ r.tokenHash = hashToken src.raw ∧ r.root = src.root) →
        ∃ r ∈ t.rows, r.id = src.rowID ∧ r.tokenHash = hashToken src.raw ∧ r.root = src.root := by
      rintro _ ⟨r, hr, hid, hh, hroot⟩
      obtain ⟨r', hr', hk⟩ := hm.kept r hr
      exact ⟨r', hr', hk.id.trans hid, hk.tokenHash.trans hh, hk.root.trans hroot⟩
    intro q hq src hsrc
    refine hin src ?_
    rcases mem_or_eq_of_mem_set hq with hq | rfl
    · exact h q hq src hsrc
    · rcases hm.source hsrc with hsrc | ⟨row, hrow, hh, hs⟩
      · exact h p (mem_of_getElem? hp) src hsrc
      · exact ⟨row, hrow, by rw [hs], hh, by rw [hs]⟩

/-! ## A refresh token is used once -/

/-- **The revocation at the end of a refresh finds its token live.** -/
def RevokesLive (s : State) : Act → Prop
  | .start _ => True
  | .go i turn =>
    match s.calls[i]? with
    | some (.consume _ _ row) => turn.reply ≠ .failed → ∀ r ∈ s.table.rows, r.id = row.id → r.revokedAt = none
    | _ => True

instance (s : State) (a : Act) : Decidable (RevokesLive s a) := by
  unfold RevokesLive
  repeat' split
  all_goals infer_instance

def SpentAt (s : State) (i id : Nat) : Prop := ∃ p src, s.calls[i]? = some p ∧ Phase.spent p = some src ∧ src.rowID = id

theorem spentAt_step {j id : Nat} (hstep : s.step hashToken a = some s') (h : SpentAt s' j id) :
    SpentAt s j id ∨ ∃ turn raw accountID row now, a = .go j turn ∧ s.calls[j]? = some (.consume raw accountID row) ∧
      row.id = id ∧ turn.reply ≠ .failed ∧ s'.table = s.table.revoke id now := by
  obtain ⟨q, src, hq, hs, rfl⟩ := h
  obtain ⟨_, rfl, rfl⟩ | ⟨i, turn, p, t, _, rfl, hp, hm, rfl⟩ := step_cases hstep
  · by_cases hj : j < s.calls.length
    · exact .inl ⟨q, src, by rwa [List.getElem?_append_left hj] at hq, hs, rfl⟩
    -- a call that has just started has no token yet
    rw [List.getElem?_append_right (Nat.le_of_not_lt hj)] at hq
    have hn := source_of_spent hs
    rw [mem_singleton.1 (mem_of_getElem? hq), entry_source] at hn
    cases hn
  · by_cases hij : i = j
    · subst hij
      have hlt : i < s.calls.length := (List.getElem?_eq_some_iff.1 hp).1
      rw [List.getElem?_set_self hlt] at hq
      cases hq
      rcases hm.spent hs with hs | ⟨accountID, row, now, rfl, hid, hr, rfl⟩
      · exact .inl ⟨p, src, hp, hs, rfl⟩
      · exact .inr ⟨turn, _, accountID, row, now, rfl, hp, hid.symm, hr, by rw [hid]⟩
    · rw [List.getElem?_set_ne hij] at hq
      exact .inl ⟨q, src, hq, hs, rfl⟩

structure SpentOnce (s : State) : Prop where
  revoked : ∀ i id, SpentAt s i id → ∃ r ∈ s.table.rows, r.id = id ∧ r.revokedAt ≠ none
  once : ∀ i j id, SpentAt s i id → SpentAt s j id → i = j

theorem rows_step (hs : s.step hashToken a = some s') : ∀ r ∈ s.table.rows, ∃ r' ∈ s'.table.rows, r.Kept r' := by
  obtain ⟨_, rfl, rfl⟩ | ⟨i, _, p, t, _, rfl, -, hm, rfl⟩ := step_cases hs
  · exact fun r hr => ⟨r, hr, .refl r⟩
  · exact hm.kept

theorem SpentOnce.step (h : SpentOnce s) (hsourced : Sourced hashToken s) (hok : RevokesLive s a)
    (hstep : s.step hashToken a = some s') : SpentOnce s' := by
  -- a token that is being consumed was spent by nobody, since a spent one is revoked
  have hf : ∀ {i j turn raw accountID row}, a = .go j turn → s.calls[j]? = some (.consume raw accountID row) →
      turn.reply ≠ .failed → ¬ SpentAt s i row.id := by
    intro i j _ _ _ row ha hp hrun hs
    obtain ⟨r, hr, hid, hrevoked⟩ := h.revoked i row.id hs
    subst ha
    simp only [RevokesLive, hp] at hok
    exact hrevoked (hok hrun r hr hid)
  constructor
  · intro i id hs
    rcases spentAt_step hstep hs with hs | ⟨-, _, _, row, now, -, hp, rfl, -, ht⟩
    · obtain ⟨r, hr, hid, hrevoked⟩ := h.revoked i id hs
      obtain ⟨r', hr', hk⟩ := rows_step hstep r hr
      exact ⟨r', hr', hk.id.trans hid, fun hn => hrevoked (hk.revokedAt hn)⟩
    · obtain ⟨r, hr, hid, -⟩ := hsourced _ (mem_of_getElem? hp) _ rfl
      obtain ⟨r', hr', hk⟩ := (Table.updates_revoke row.id now).kept r hr
      exact ⟨r', ht ▸ hr', hk.id.trans hid, Table.revokedAt_revoke hr' (hk.id.trans hid)⟩
  · intro i j id hi hj
    rcases spentAt_step hstep hi with hi | ⟨_, _, _, _, -, ha, hp, rfl, hrun, -⟩
    · rcases spentAt_step hstep hj with hj | ⟨_, _, _, _, -, ha, hp, rfl, hrun, -⟩
      · exact h.once i j id hi hj
      · exact absurd hi (hf ha hp hrun)
    rcases spentAt_step hstep hj with hj | ⟨_, -, -, -, -, ha', -, -, -, -⟩
    · exact absurd hj (hf ha hp hrun)
    · rw [ha] at ha'
      cases ha'
      rfl

def Returned (s : State) (i : Nat) (raw : String) : Prop :=
  ∃ rowID root pair, s.calls[i]? = some (.done (some ⟨raw, rowID, root⟩) (.pair pair))

/-- **A refresh token gives at most one pair**, in every run in which each refresh finds its token still live when it revokes
it. -/
theorem refresh_used_once {as : List Act} (hinit : Initial s) (hlive : Machine.Along (State.step hashToken) RevokesLive s as)
    (hrun : Machine.exec (State.step hashToken) s as = some s') {raw : String} {i j : Nat} (hi : Returned s' i raw)
    (hj : Returned s' j raw) : i = j := by
  have hstart : Sourced hashToken s ∧ SpentOnce s := by
    refine ⟨fun p hp => ?_, fun i _ hi => ?_, fun i j _ hi => ?_⟩
    · rw [hinit.calls] at hp
      cases hp
    all_goals
      obtain ⟨p, _, hp, -⟩ := hi
      rw [hinit.calls] at hp
      cases hp
  obtain ⟨hs, hspent⟩ := Machine.invariant (I := fun s => Sourced hashToken s ∧ SpentOnce s)
    (fun _ _ _ hI hok hstep => ⟨hI.1.step hstep, hI.2.step hI.1 hok hstep⟩) hstart hlive hrun
  obtain ⟨id, _, _, hi⟩ := hi
  obtain ⟨_, _, _, hj⟩ := hj
  obtain ⟨r, hr, hid, hh, -⟩ := hs _ (mem_of_getElem? hi) _ rfl
  obtain ⟨r', hr', hi', hh', -⟩ := hs _ (mem_of_getElem? hj) _ rfl
  have hrow : r = r' := Table.eq_of_hash hr hr' (hh.trans hh'.symm)
  refine hspent.once i j id ⟨_, _, hi, rfl, rfl⟩ ⟨_, _, hj, rfl, ?_⟩
  exact hi'.symm.trans ((congrArg Row.id hrow.symm).trans hid)

/-! ## A logout ends the chains -/

/-- **A revoke-all statement meets no refresh of its account** that has passed `Validate` and has not inserted its pair. -/
def SweepsAlone (s : State) : Act → Prop
  | .start _ => True
  | .go i turn =>
    match s.calls[i]? with
    | some (.revokeAll accountID) => turn.reply ≠ .failed → ∀ p ∈ s.calls, (Phase.flying p).map Prod.snd ≠ some accountID
    | _ => True

instance (s : State) (a : Act) : Decidable (SweepsAlone s a) := by
  unfold SweepsAlone
  repeat' split
  all_goals infer_instance

/-- **The chains of a sweep are over**: what came of its tokens is revoked, and no refresh under way has one of them. -/
structure Ended (hashToken : String → String) (s : State) : Prop where
  roots : ∀ r ∈ s.table.rows, ∃ r₀ ∈ s.table.rows, r₀.id = r.root ∧ r₀.accountID = r.accountID
  issued : ∀ sw ∈ s.swept, ∀ id ∈ sw.issued, ∃ r ∈ s.table.rows, r.id = id
  ended : ∀ sw ∈ s.swept, ∀ r ∈ s.table.rows, r.root ∈ sw.issued → r.revokedAt ≠ none
  flying : ∀ p ∈ s.calls, ∀ raw accountID, Phase.flying p = some (raw, accountID) →
    ∃ r ∈ s.table.rows, r.tokenHash = hashToken raw ∧ r.accountID = accountID ∧ ∀ sw ∈ s.swept, r.root ∉ sw.issued

theorem entry_flying (op : Op) : op.entry.flying = none := by cases op <;> rfl

theorem Ended.inserted (h : Ended hashToken s) (hsourced : Sourced hashToken s) (hp : p ∈ s.calls)
    {src : Option Source} (hi : p.issuing = some (r.accountID, src)) (hr : r.root = rootOf src r.id)
    (hf : ∀ r₀ ∈ s.table.rows, r₀.id ≠ r.id) :
    (∀ sw ∈ s.swept, r.root ∉ sw.issued) ∧
      (r.root = r.id ∨ ∃ r₀ ∈ s.table.rows, r₀.id = r.root ∧ r₀.accountID = r.accountID) := by
  cases src with
  | none =>
    have hs : r.root = r.id := hr
    refine ⟨fun sw hsw hm => ?_, .inl hs⟩
    obtain ⟨r₀, hr₀, hid⟩ := h.issued sw hsw _ hm
    exact hf r₀ hr₀ (hid.trans hs)
  | some src =>
    have hsrc : p.source = some src ∧ p.flying = some (src.raw, r.accountID) := by
      cases p with
      | access | refresh => cases hi; exact ⟨rfl, rfl⟩
      | _ => cases hi
    obtain ⟨r₁, hr₁, -, hh₁, hroot₁⟩ := hsourced p hp src hsrc.1
    obtain ⟨_, hr₂, hh₂, ha₂, ho⟩ := h.flying p hp _ _ hsrc.2
    obtain rfl := Table.eq_of_hash hr₁ hr₂ (hh₁.trans hh₂.symm)
    have hsame : r.root = r₁.root := hr.trans hroot₁.symm
    obtain ⟨r₀, hr₀, hi₀, ha₀⟩ := h.roots r₁ hr₁
    exact ⟨fun sw hsw => hsame ▸ ho sw hsw, .inr ⟨r₀, hr₀, hi₀.trans hsame.symm, ha₀.trans ha₂⟩⟩

theorem Ended.account_of_root (h : Ended hashToken s) (hr : r ∈ s.table.rows)
    (hroot : r.root ∈ (s.table.rows.filter (fun r => r.accountID = accountID)).map (·.id)) : r.accountID = accountID := by
  obtain ⟨_, hr₁, hi₁⟩ := mem_map.1 hroot
  obtain ⟨hr₁, ha₁⟩ := mem_filter.1 hr₁
  obtain ⟨_, hr₀, hi₀, ha₀⟩ := h.roots r hr
  obtain rfl := Table.eq_of_id hr₁ hr₀ (hi₁.trans hi₀.symm)
  exact ha₀.symm.trans (by simpa using ha₁)

theorem Ended.flying_moved (h : Ended hashToken s) {i : Nat} {turn : Turn} {p' q : Phase} {t : Table} (hc : p ∈ s.calls)
    (hm : Move hashToken s.table turn p t p') (hq : q ∈ s.calls.set i p') {raw : String}
    (hf : q.flying = some (raw, accountID)) :
    ∃ r ∈ s.table.rows, r.tokenHash = hashToken raw ∧ r.accountID = accountID ∧ ∀ sw ∈ s.swept, r.root ∉ sw.issued := by
  rcases mem_or_eq_of_mem_set hq with hq | rfl
  · exact h.flying q hq raw accountID hf
  · rcases hm.flying hf with hf | ⟨r, hr, hh, ha, hl⟩
    · exact h.flying p hc raw accountID hf
    · exact ⟨r, hr, hh, ha, fun sw hsw hroot => h.ended sw hsw r hr hroot hl⟩

theorem Ended.step (h : Ended hashToken s) (hsourced : Sourced hashToken s) (hok : SweepsAlone s a)
    (hstep : s.step hashToken a = some s') : Ended hashToken s' := by
  obtain ⟨_, rfl, rfl⟩ | ⟨i, _, p, t, _, rfl, hp, hm, rfl⟩ := step_cases hstep
  · refine ⟨h.roots, h.issued, h.ended, fun q hq raw accountID hf => ?_⟩
    rcases mem_append.1 hq with hq | hq
    · exact h.flying q hq raw accountID hf
    · rw [mem_singleton.1 hq, entry_flying] at hf
      cases hf
  · have hcall := mem_of_getElem? hp
    refine ⟨fun r' hr' => ?_, fun sw hsw id hid => ?_, fun sw hsw r' hr' hroot => ?_, fun q hq _ accountID hf => ?_⟩
    · -- the first token of a chain stays, with its account
      rcases hm.origin hr' with ⟨r, hr, hk⟩ | ⟨_, hi, hroot, hfresh⟩
      · obtain ⟨r₀, hr₀, hid, haccount⟩ := h.roots r hr
        obtain ⟨r₀', hr₀', hk₀⟩ := hm.kept r₀ hr₀
        exact ⟨r₀', hr₀', (hk₀.id.trans hid).trans hk.root.symm, (hk₀.accountID.trans haccount).trans hk.accountID.symm⟩
      · rcases (h.inserted hsourced hcall hi hroot hfresh).2 with hs | ⟨r₀, hr₀, hid, haccount⟩
        · exact ⟨r', hr', hs.symm, rfl⟩
        · obtain ⟨r₀', hr₀', hk₀⟩ := hm.kept r₀ hr₀
          exact ⟨r₀', hr₀', hk₀.id.trans hid, hk₀.accountID.trans haccount⟩
    · have hthere : ∃ r ∈ s.table.rows, r.id = id := by
        rcases mem_append.1 hsw with hsw | hsw
        · exact h.issued sw hsw id hid
        · obtain ⟨_, -, -, -, -, rfl⟩ := hm.sweep hsw
          obtain ⟨r, hr, hrid⟩ := mem_map.1 hid
          exact ⟨r, (mem_filter.1 hr).1, hrid⟩
      obtain ⟨r, hr, hrid⟩ := hthere
      obtain ⟨r', hr', hk⟩ := hm.kept r hr
      exact ⟨r', hr', hk.id.trans hrid⟩
    · rcases mem_append.1 hsw with hsw | hsw
      · rcases hm.origin hr' with ⟨r, hr, hk⟩ | ⟨_, hi, hroot', hfresh⟩
        · exact fun hn => h.ended sw hsw r hr (hk.root ▸ hroot) (hk.revokedAt hn)
        · exact absurd hroot ((h.inserted hsourced hcall hi hroot' hfresh).1 sw hsw)
      obtain ⟨accountID, now, -, -, rfl, rfl⟩ := hm.sweep hsw
      obtain ⟨r, hr, hk⟩ := (Table.updates_revokeAll accountID now).origin r' hr'
      have haccount := h.account_of_root hr (hk.root ▸ hroot)
      exact Table.revokedAt_revokeAll hr' (hk.accountID.trans haccount)
    · -- the new sweep does not meet a refresh of its account
      obtain ⟨r, hr, hh, haccount, ho⟩ := h.flying_moved hcall hm hq hf
      obtain ⟨r', hr', hk⟩ := hm.kept r hr
      refine ⟨r', hr', hk.tokenHash.trans hh, hk.accountID.trans haccount, fun sw hsw hroot => ?_⟩
      rw [hk.root] at hroot
      rcases mem_append.1 hsw with hsw | hsw
      · exact ho sw hsw hroot
      obtain ⟨swept, -, rfl, hrun, -, rfl⟩ := hm.sweep hsw
      have hsame : accountID = swept := haccount.symm.trans (h.account_of_root hr hroot)
      simp only [SweepsAlone, hp] at hok
      rcases mem_or_eq_of_mem_set hq with hq | rfl
      · exact hok hrun q hq (by rw [hf, hsame]; rfl)
      · cases hm <;> cases hf

/-- **A revoked token is never accepted again**, in whatever order the statements come and whichever fail. -/
theorem revoked_for_good {as : List Act} (hrun : Machine.exec (State.step hashToken) s as = some s') {r : Row}
    (hr : r ∈ s.table.rows) (hrevoked : r.revokedAt ≠ none) {raw : String} (hraw : hashToken raw = r.tokenHash) (now : Int) :
    ∃ e, validate hashToken s'.table raw now = .error e := by
  obtain ⟨r', hr', hh, hn⟩ : ∃ r' ∈ s'.table.rows, r'.tokenHash = r.tokenHash ∧ r'.revokedAt ≠ none := by
    refine Machine.always (I := fun s => ∃ r' ∈ s.table.rows, r'.tokenHash = r.tokenHash ∧ r'.revokedAt ≠ none) ?_
      ⟨r, hr, rfl, hrevoked⟩ hrun
    rintro s a s' ⟨r', hr', hh, hn⟩ hs
    obtain ⟨r'', hr'', hk⟩ := rows_step hs r' hr'
    exact ⟨r'', hr'', hk.tokenHash.trans hh, fun h => hn (hk.revokedAt h)⟩
  cases hv : validate hashToken s'.table raw now with
  | error e => exact ⟨e, rfl⟩
  | ok row =>
    unfold validate at hv
    split at hv
    · cases hv
    obtain ⟨hread, hl⟩ := check_eq_ok hv
    obtain ⟨hrow, hhash⟩ := Table.getByHash_eq_some hread
    rw [Table.eq_of_hash hr' hrow (by rw [hh, hhash, hraw])] at hn
    exact absurd hl hn

/-- **After a revoke-all statement no token is accepted whose chain of refreshes starts from a token issued before it**, where
such a statement meets no refresh of the account. -/
theorem chains_ended {as : List Act} (hinit : Initial s) (halone : Machine.Along (State.step hashToken) SweepsAlone s as)
    (hrun : Machine.exec (State.step hashToken) s as = some s') {raw : String} {now : Int} {row : Row}
    (haccepted : validate hashToken s'.table raw now = .ok row) : ∀ sw ∈ s'.swept, row.root ∉ sw.issued := by
  have hstart : Sourced hashToken s ∧ Ended hashToken s := by
    refine ⟨fun p hp => ?_, hinit.roots, fun _ hsw => ?_, fun _ hsw => ?_, fun p hp => ?_⟩
    · rw [hinit.calls] at hp
      cases hp
    · rw [hinit.swept] at hsw
      cases hsw
    · rw [hinit.swept] at hsw
      cases hsw
    · rw [hinit.calls] at hp
      cases hp
  obtain ⟨-, he⟩ := Machine.invariant (I := fun s => Sourced hashToken s ∧ Ended hashToken s)
    (fun _ _ _ hI hok hs => ⟨hI.1.step hs, hI.2.step hI.1 hok hs⟩) hstart halone hrun
  intro sw hsw hr
  unfold validate at haccepted
  split at haccepted
  · cases haccepted
  · obtain ⟨hread, hl⟩ := check_eq_ok haccepted
    exact he.ended sw hsw row (Table.getByHash_eq_some hread).1 hr hl

end

def oneToken : Table := ⟨[⟨1, "ada", "r", .refresh, 0, refreshTokenTTL, none, none, 1⟩], by simp, by simp⟩

def loggedIn : State := ⟨oneToken, [], []⟩

theorem loggedIn_initial : Initial loggedIn := ⟨rfl, rfl, by decide⟩

def reads (i : Nat) : List Act := List.replicate 4 (.go i ⟨.ok, 0, 0, ""⟩)

def writes (i id : Nat) (access refresh : String) : List Act :=
  [.go i ⟨.ok, 0, 0, ""⟩, .go i ⟨.ok, 0, id, access⟩, .go i ⟨.ok, 0, id + 1, refresh⟩]

def inTurn : List Act :=
  [.start (.refresh "r"), .start (.refresh "r")] ++ reads 0 ++ writes 0 2 "a" "b" ++ [.go 1 ⟨.ok, 0, 0, ""⟩]

theorem refresh_used_once_inTurn : ∃ s, Machine.exec (State.step id) loggedIn inTurn = some s ∧ Returned s 0 "r" ∧
    ∀ j, Returned s j "r" → 0 = j := by
  have hr : Machine.exec (State.step id) loggedIn inTurn = some _ := rfl
  refine ⟨_, hr, ⟨1, 1, _, rfl⟩, fun j hj => ?_⟩
  exact refresh_used_once loggedIn_initial (by decide) hr ⟨1, 1, _, rfl⟩ hj

def together : List Act :=
  [.start (.refresh "r"), .start (.refresh "r")] ++ reads 0 ++ reads 1 ++ writes 0 2 "a" "b" ++ writes 1 4 "c" "d"

/-- **Two calls that have both read the token both return a pair.** -/
theorem refresh_used_twice : Initial loggedIn ∧ ∃ s, Machine.exec (State.step id) loggedIn together = some s ∧
    Returned s 0 "r" ∧ Returned s 1 "r" :=
  ⟨loggedIn_initial, _, rfl, ⟨1, 1, _, rfl⟩, ⟨1, 1, _, rfl⟩⟩

def logout (i : Nat) (raw : String) : List Act :=
  [.start (.revoke "ada" raw true), .go i ⟨.ok, 1, 0, ""⟩, .go i ⟨.ok, 1, 0, ""⟩]

def afterRevoke : List Act :=
  [.start (.refresh "r"), .go 0 ⟨.ok, 0, 0, ""⟩, .start (.issue "ada"), .go 1 ⟨.ok, 0, 2, "a"⟩, .go 1 ⟨.ok, 0, 3, "b"⟩] ++
    logout 2 "a"

/-- The token is tried again, and its account logs in and out. -/
theorem revoked_for_good_again : ∃ s, Machine.exec (State.step id) ⟨oneToken.revoke 1 0, [], []⟩ afterRevoke = some s ∧
    s.table.rows.map (·.revokedAt) = [some 0, some 1, some 1] ∧ ∃ e, validate id s.table "r" 0 = .error e := by
  have hr : Machine.exec (State.step id) ⟨oneToken.revoke 1 0, [], []⟩ afterRevoke = some _ := rfl
  exact ⟨_, hr, rfl, revoked_for_good hr (mem_singleton_self _) (by decide) rfl 0⟩

def logoutAfter : List Act :=
  [.start (.refresh "r")] ++ reads 0 ++ writes 0 2 "a" "b" ++ logout 1 "a" ++
    [.start (.issue "ada"), .go 2 ⟨.ok, 2, 4, "c"⟩, .go 2 ⟨.ok, 2, 5, "d"⟩]

theorem chains_ended_logoutAfter : ∃ s, Machine.exec (State.step id) loggedIn logoutAfter = some s ∧
    s.swept = [⟨"ada", [1, 2, 3]⟩] ∧ ∃ row, validate id s.table "c" 3 = .ok row ∧ ∀ sw ∈ s.swept, row.root ∉ sw.issued := by
  have hr : Machine.exec (State.step id) loggedIn logoutAfter = some _ := rfl
  refine ⟨_, hr, rfl, _, rfl, ?_⟩
  exact chains_ended loggedIn_initial (by decide) hr (rfl : validate id _ "c" 3 = .ok _)

def logoutAmid : List Act :=
  [.start (.refresh "r")] ++ reads 0 ++ logout 1 "r" ++ writes 0 2 "a" "b"

/-- **The pair of a refresh that was under way is accepted after the logout.** -/
theorem chain_outlives_logout : Initial loggedIn ∧ ∃ s, Machine.exec (State.step id) loggedIn logoutAmid = some s ∧
    s.swept = [⟨"ada", [1]⟩] ∧ (∃ row, validate id s.table "a" 2 = .ok row ∧ row.root = 1) ∧
      ∃ row, validate id s.table "b" 2 = .ok row ∧ row.root = 1 :=
  ⟨loggedIn_initial, _, rfl, rfl, ⟨_, rfl, rfl⟩, ⟨_, rfl, rfl⟩⟩

end Jamsesh.Tokens
