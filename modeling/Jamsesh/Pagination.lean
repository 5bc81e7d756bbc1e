import Jamsesh.Text
import Mathlib.Data.Prod.Lex
import Mathlib.Data.String.Basic
/-!
# Pagination — cursors that are bound to a filter, and pages behind a key (`pagination/cursor.go`, `sessions/listing.go`)

A cursor carries the hash of the filter and the key of the last row.  The text that is hashed has one reading unless the values
may hold `&`, `=` and something else (`filterText_injective_iff`).  The pages behind a first request have each row of that time
once, in order, exactly when each was below the bound that stands for no cursor (`pages_complete_iff`).
-/
namespace Jamsesh.Pagination

open List

/-! ## Filters -/

/-- **A filter map**, as its entries in the order of the keys. -/
@[ext] structure Filter where
  entries : List (Text × Text)
  sorted : entries.Pairwise (fun e e' => e.1 < e'.1)

def filterPart (e : Text × Text) : Text := e.1 ++ '=' :: e.2

/-- What `FilterHash` hashes. -/
def filterText (f : Filter) : Text := ['&'].intercalate (f.entries.map filterPart)

structure Cursor where
  filterHash : Text
  lastCreatedAt : Int
  lastID : String

inductive CursorErr where
  | decode | unmarshal | filterMismatch

/-- `Decode`, behind base64 and JSON, which `read` stands for. -/
def decode (hash : Text → Text) (read : Text → Except CursorErr Cursor) (s : Text) (currentFilter : Option Filter) :
    Except CursorErr Cursor :=
  match read s with
  | .error e => .error e
  | .ok c =>
    match currentFilter with
    | none => .ok c
    | some f => if c.filterHash ≠ hash (filterText f) then .error .filterMismatch else .ok c

def newCursor (hash : Text → Text) (createdAt : Int) (id : String) (f : Filter) : Cursor := ⟨hash (filterText f), createdAt, id⟩

/-- A key as the handlers have them, with a value over an alphabet. -/
@[mk_iff over_iff] structure Over (allowed : Char → Prop) (e : Text × Text) : Prop where
  key : e.1 ≠ [] ∧ '&' ∉ e.1 ∧ '=' ∉ e.1
  value : ∀ c ∈ e.2, allowed c

/-- The alphabet has the two signs and something to make a key of. -/
def Ambiguous (allowed : Char → Prop) : Prop := allowed '&' ∧ allowed '=' ∧ ∃ c, allowed c ∧ c ≠ '&' ∧ c ≠ '='

section
variable {allowed : Char → Prop}

/-- What follows a part: nothing, or the next one. -/
def follows : List (Text × Text) → Text
  | [] => []
  | e :: es => '&' :: (filterPart e ++ follows es)

theorem intercalate_parts (e : Text × Text) (es : List (Text × Text)) :
    ['&'].intercalate ((e :: es).map filterPart) = filterPart e ++ follows es := by
  induction es generalizing e with
  | nil => simp [follows]
  | cons _ _ ih => simp only [map_cons, intercalate_cons_cons, follows, ← ih, append_assoc, singleton_append]

theorem key_eq {k k' r r' : Text} (hk : '=' ∉ k) (hk' : '=' ∉ k') (h : k ++ '=' :: r = k' ++ '=' :: r') : k = k' ∧ r = r' := by
  rcases append_eq_append_iff.1 h with ⟨a, _, h⟩ | ⟨a, _, h⟩ <;> cases a <;> simp_all

/-- A value does not reach into what follows another. -/
theorem value_stops (hno : ¬ Ambiguous allowed) {w : Text} {es es' : List (Text × Text)}
    (hw : ∀ c ∈ w, allowed c) (hes : ∀ e ∈ es, Over allowed e) (h : follows es = w ++ follows es') : w = [] := by
  have hs : ∀ c t, follows es' = c :: t → c = '&' := by
    intro c t hc
    cases es' with
    | nil => cases hc
    | cons => exact (cons.inj hc).1.symm
  rcases es with _ | ⟨⟨k, v⟩, _⟩
  · simp_all [follows]
  rcases w with _ | ⟨c, w⟩
  · rfl
  obtain ⟨hk, ha, heq⟩ := (hes (k, v) mem_cons_self).key
  simp only [follows, filterPart, cons_append, append_assoc, cons.injEq] at h
  obtain ⟨rfl, h⟩ := h
  exfalso
  rcases append_eq_append_iff.1 h with ⟨a, rfl, hr⟩ | ⟨a, rfl, hr⟩
  · -- the next key and its sign stand in the value
    cases a with
    | nil => exact absurd (hs _ _ hr.symm) (by decide)
    | cons c a =>
      obtain ⟨x, hx⟩ := exists_mem_of_ne_nil k hk
      obtain rfl := (cons.inj hr).1
      exact hno ⟨hw _ (by simp), hw _ (by simp), x, hw _ (by simp [hx]), fun h => ha (h ▸ hx), fun h => heq (h ▸ hx)⟩
  · cases a with
    | nil => exact absurd (hs _ _ hr) (by decide)
    | cons c a => simp [hs _ _ hr] at ha

theorem parts_injective (hno : ¬ Ambiguous allowed) {es es' : List (Text × Text)} (hes : ∀ e ∈ es, Over allowed e)
    (hes' : ∀ e ∈ es', Over allowed e) (h : follows es = follows es') : es = es' := by
  induction es generalizing es' with
  | nil => cases es' <;> simp_all [follows]
  | cons e _ ih =>
    rcases es' with _ | ⟨e', _⟩
    · simp_all [follows]
    obtain ⟨k, v⟩ := e
    obtain ⟨_, _⟩ := e'
    obtain ⟨he, ht⟩ := forall_mem_cons.1 hes
    obtain ⟨he', ht'⟩ := forall_mem_cons.1 hes'
    simp only [follows, filterPart, append_assoc, cons.injEq, true_and] at h
    obtain ⟨rfl, hv⟩ := key_eq he.key.2.2 he'.key.2.2 h
    rcases append_eq_append_iff.1 hv with ⟨w, rfl, hr⟩ | ⟨w, rfl, hr⟩
    · obtain rfl := value_stops hno (fun c hc => he'.value c (by simp [hc])) ht hr
      rw [ih ht ht' hr, append_nil]
    · obtain rfl := value_stops hno (fun c hc => he.value c (by simp [hc])) ht' hr
      rw [ih ht ht' hr.symm, append_nil]

/-- **Filters over an alphabet have texts of their own exactly when** the alphabet lacks `&` or `=`, or has nothing else; then,
where the hash has no collisions, a cursor is accepted under its own filter only. -/
theorem filterText_injective_iff (allowed : Char → Prop) (hash : Text → Text) (hhash : Function.Injective hash)
    (read : Text → Except CursorErr Cursor) (s : Text) (createdAt : Int) (id : String) :
    (∀ f g : Filter, (∀ e ∈ f.entries, Over allowed e) → (∀ e ∈ g.entries, Over allowed e) → f ≠ g → filterText f ≠ filterText g ∧
        (read s = .ok (newCursor hash createdAt id f) → ∀ c, decode hash read s (some g) ≠ .ok c)) ↔
      ¬ Ambiguous allowed := by
  constructor
  · rintro h ⟨ha, heq, c, hc, hne, hn'⟩
    refine (h ⟨[([c], ['&', c, c, '='])], by simp⟩ ⟨[([c], []), ([c, c], [])], by simp⟩ ?_ ?_ (by simp)).1 ?_
    · simp [over_iff, hne.symm, hn'.symm, ha, heq, hc]
    · simp [over_iff, hne.symm, hn'.symm]
    · simp [filterText, filterPart]
  · intro hno f g hf hg hne
    have ht : filterText f ≠ filterText g := by
      intro h
      refine hne (Filter.ext (parts_injective hno hf hg ?_))
      rcases hfe : f.entries with _ | ⟨e, _⟩ <;> rcases hge : g.entries with _ | ⟨_, _⟩ <;>
        simp only [filterText, hfe, hge, intercalate_parts] at h
      · rfl
      · simp [filterPart] at h
      · simp [filterPart] at h
      · rw [follows, follows, h]
    refine ⟨ht, fun hr c hc => ?_⟩
    simp only [decode, hr, newCursor] at hc
    rw [if_pos fun h => ht (hhash h)] at hc
    cases hc

end

/-- **A value that looks like the next entry**: one comment list filtered by an address, another by an address and a kind. -/
theorem filterText_collides :
    filterText ⟨[("addressed_to".toList, "ada&kind=fyi".toList), ("session_id".toList, "s".toList)], by decide⟩ =
      filterText ⟨[("addressed_to".toList, "ada".toList), ("kind".toList, "fyi".toList), ("session_id".toList, "s".toList)],
        by decide⟩ := by decide

def fyis (sessionID : Char) : Filter :=
  ⟨[("kind".toList, "fyi".toList), ("session_id".toList, [sessionID])], by
    have : "kind".toList < "session_id".toList := by decide
    simpa using this⟩

/-- A cursor of one session is refused for another. -/
theorem filterText_injective_sessions : filterText (fyis 's') ≠ filterText (fyis 't') ∧
    ∀ c, decode id (fun _ => .ok (newCursor id 0 "c" (fyis 's'))) [] (some (fyis 't')) ≠ .ok c := by
  have hiff := filterText_injective_iff (· ≠ '&') id Function.injective_id (fun _ => .ok (newCursor id 0 "c" (fyis 's'))) [] 0 "c"
  have h := hiff.2 (fun h => h.1 rfl) (fyis 's') (fyis 't') (by simp [fyis, over_iff]) (by simp [fyis, over_iff]) (by simp [fyis])
  exact ⟨h.1, h.2 rfl⟩

/-! ## Pages -/

section
variable {α K : Type} [LinearOrder K] (key : α → K)

/-- A page of a table in the order of the query, the greatest key first, and the bound of the next page: one row more than the
limit is fetched. -/
def page (rows : List α) (bound : K) (limit : Nat) : List α × Option K :=
  let found := (rows.filter (fun r => key r < bound)).take (limit + 1)
  if found.length > limit then (found.take limit, (found.take limit).getLast?.map key) else (found, none)

/-- The items behind all pages, each of the table as it is then; `none` where a further request would be needed.  The bound
comes back as it was sent (`decode_newCursor`). -/
def follow (limit : Nat) : List (List α) → K → Option (List α)
  | [], _ => none
  | rows :: later, bound =>
    match page key rows bound limit with
    | (items, none) => some items
    | (items, some next) => (follow limit later next).map (items ++ ·)

variable {key} {limit : Nat} {rows : List α}

theorem page_fst (bound : K) : (page key rows bound limit).1 = (rows.filter (fun r => key r < bound)).take limit := by
  simp only [page]
  split
  · rw [take_take, Nat.min_eq_left (Nat.le_succ limit)]
  · rename_i h
    rw [length_take] at h
    rw [take_of_length_le (by omega), take_of_length_le (by omega)]

/-- The first rows are those with few rows above them. -/
theorem mem_take_iff (hs : rows.Pairwise (fun a b => key b < key a)) {r : α} :
    r ∈ rows.take limit ↔ r ∈ rows ∧ (rows.filter (fun x => key r < key x)).length < limit := by
  induction rows generalizing limit with
  | nil => simp
  | cons x rows ih =>
    obtain ⟨hx, hrows⟩ := pairwise_cons.1 hs
    cases limit with
    | zero => simp
    | succ =>
      rw [take_succ_cons, mem_cons, mem_cons, ih hrows]
      by_cases hr : r = x
      · subst hr
        have hn : rows.filter (fun x => key r < key x) = [] := filter_eq_nil_iff.2 fun y hy => by simpa using (hx y hy).le
        simp [hn]
      · simp only [hr, false_or]
        refine and_congr_right fun hm => ?_
        rw [filter_cons_of_pos (by simpa using hx r hm), length_cons, Nat.add_lt_add_iff_right]

theorem filter_lt_last (hsorted : rows.Pairwise (fun a b => key b < key a)) {bound : K} {r : α}
    (hr : ((rows.filter (fun r => key r < bound)).take limit).getLast? = some r) :
    rows.filter (fun x => key x < key r) = (rows.filter (fun r => key r < bound)).drop limit := by
  have hs := hsorted.filter (fun r => key r < bound)
  have hm := mem_of_mem_take (mem_of_getLast? hr)
  have hb : key r < bound := by simpa using (mem_filter.1 hm).2
  have hf : rows.filter (fun x => key x < key r) =
      (rows.filter (fun r => key r < bound)).filter (fun x => key x < key r) := by
    rw [filter_filter]
    refine filter_congr fun x _ => ?_
    have : key x < key r → key x < bound := fun h => h.trans hb
    grind
  rw [hf]
  generalize rows.filter (fun r => key r < bound) = l at *
  obtain ⟨_, hi⟩ := getLast?_eq_some_iff.1 hr
  rw [← take_append_drop limit l, pairwise_append] at hs
  conv_lhs => rw [← take_append_drop limit l, filter_append]
  rw [hi, pairwise_append] at hs
  rw [hi, filter_eq_nil_iff.2, filter_eq_self.2, nil_append]
  · exact fun x hx => by simpa using hs.2.2 r (by simp) x hx
  · intro x hx
    rcases mem_append.1 hx with hx | hx
    · simpa using (hs.1.2.2 x hx r (by simp)).le
    · simp [mem_singleton.1 hx]

theorem follow_eq (hl : 0 < limit) (hs : rows.Pairwise (fun a b => key b < key a)) {tables : List (List α)} {bound : K}
    (hb : ∀ t ∈ tables.head?, t.filter (fun x => key x < bound) = rows.filter (fun x => key x < bound))
    (hrows : ∀ t ∈ tables, ∀ r ∈ rows, t.filter (fun x => key x < key r) = rows.filter (fun x => key x < key r))
    (hlen : (rows.filter (fun x => key x < bound)).length < tables.length) :
    follow key limit tables bound = some (rows.filter (fun x => key x < bound)) := by
  induction tables generalizing bound with
  | nil => simp at hlen
  | cons t _ ih =>
    rw [follow, page, hb t rfl]
    by_cases hf : ((rows.filter (fun x => key x < bound)).take (limit + 1)).length > limit
    · rw [if_pos hf, take_take, Nat.min_eq_left (Nat.le_succ limit)]
      rw [length_take] at hf
      cases hr : ((rows.filter (fun x => key x < bound)).take limit).getLast? with
      | none =>
        rw [getLast?_eq_none_iff, take_eq_nil_iff] at hr
        rcases hr with hr | hr
        · omega
        · simp [hr] at hf
      | some r =>
        have hd := filter_lt_last hs hr
        have hm := (mem_filter.1 (mem_of_mem_take (mem_of_getLast? hr))).1
        dsimp only [Option.map_some]
        rw [ih (fun t ht => hrows t (mem_cons_of_mem _ (mem_of_mem_head? ht)) r hm)
          (fun t ht => hrows t (mem_cons_of_mem _ ht)), hd, Option.map_some, take_append_drop]
        rw [hd, length_drop]
        rw [length_cons] at hlen
        omega
    · rw [if_neg hf]
      rw [length_take] at hf
      rw [take_of_length_le (by omega)]

end

/-- The bound of a page, sent as a cursor and read under the same filter, is the bound; `write` is `Encode`. -/
theorem decode_newCursor (hash : Text → Text) {read : Text → Except CursorErr Cursor} {write : Cursor → Text}
    (hread : ∀ c, read (write c) = .ok c) (next : Int ×ₗ String) (f : Filter) :
    (decode hash read (write (newCursor hash (ofLex next).1 (ofLex next).2 f)) (some f)).map
      (fun c => toLex (c.lastCreatedAt, c.lastID)) = .ok next := by
  simp only [decode, hread, newCursor, ne_eq, not_true_eq_false, if_false]
  rfl

/-- Where there is no cursor: a second from now, and an id above those of all rows. -/
def firstBound (now : Int) : Int ×ₗ String := toLex (now + 1000000000, "zzzzzzzzzzzzzzzzzzzzzzzzzz")

def pageLimit (limit : Int) : Nat := if limit ≤ 0 then 20 else min limit.toNat 100

/-- **The pages have each row of the first request once, in order, exactly when** each was below the first bound; newer rows
come in front meanwhile. -/
theorem pages_complete_iff {α : Type} (key : α → Int ×ₗ String) (wanted : α → Bool) (rows : List α) (limit now : Int)
    (hsorted : rows.Pairwise (fun a b => key b < key a)) :
    (∀ news : List (List α), rows.length ≤ news.length → (∀ new ∈ news, (new ++ rows).Pairwise (fun a b => key b < key a)) →
        follow key (pageLimit limit) ((rows :: news.map (· ++ rows)).map (·.filter wanted)) (firstBound now) =
          some (rows.filter wanted)) ↔
      ∀ r ∈ rows, wanted r = true → key r < firstBound now := by
  have hl : 0 < pageLimit limit := by
    unfold pageLimit
    split <;> omega
  have hf : ∀ news : List (List α), rows.length ≤ news.length →
      (∀ new ∈ news, (new ++ rows).Pairwise (fun a b => key b < key a)) →
      follow key (pageLimit limit) ((rows :: news.map (· ++ rows)).map (·.filter wanted)) (firstBound now) =
        some ((rows.filter wanted).filter (fun x => key x < firstBound now)) := by
    intro _ _ hn
    refine follow_eq hl (hsorted.filter _) (fun t ht => ?_) (fun t ht r hr => ?_) ?_
    · cases ht
      rfl
    · rcases mem_cons.1 ht with rfl | ht
      · rfl
      simp only [map_map, mem_map, Function.comp_apply] at ht
      obtain ⟨new, hnew, rfl⟩ := ht
      have ha : ∀ x ∈ new.filter wanted, ¬ key x < key r := fun x hx =>
        ((pairwise_append.1 (hn new hnew)).2.2 x (mem_filter.1 hx).1 r (mem_filter.1 hr).1).not_gt
      rw [filter_append, filter_append, filter_eq_nil_iff.2 (by simpa using ha), nil_append]
    · have h₁ := (rows.filter wanted).length_filter_le (fun x => key x < firstBound now)
      have h₂ := rows.length_filter_le wanted
      simp only [length_cons, length_map]
      omega
  have hs : (rows.filter wanted).filter (fun x => key x < firstBound now) = rows.filter wanted ↔
      ∀ r ∈ rows, wanted r = true → key r < firstBound now := by
    rw [filter_eq_self]
    simp
  rw [← hs]
  constructor
  · intro h
    have hnone := h (replicate rows.length []) (by simp) (by simp [hsorted])
    rw [hf _ (by simp) (by simp [hsorted])] at hnone
    exact Option.some.inj hnone
  · intro h news hlen hn
    rw [hf news hlen hn, h]

theorem pages_complete_tie :
    follow (fun r => r) (pageLimit 1) ([[toLex (1, "b"), toLex (1, "a")], [toLex (2, "c"), toLex (1, "b"), toLex (1, "a")],
        [toLex (1, "b"), toLex (1, "a")]].map (·.filter (fun _ => true))) (firstBound 0) =
      some ([toLex (1, "b"), toLex (1, "a")].filter (fun _ => true)) :=
  (pages_complete_iff (fun r => r) (fun _ => true) [toLex (1, "b"), toLex (1, "a")] 1 0 (by decide)).2 (by decide)
    [[toLex (2, "c")], []] (by decide) (by decide)

/-- **A row of a clock that is two seconds ahead is on no page.** -/
theorem pages_miss_ahead : follow (fun r => r) (pageLimit 1) [[toLex (2000000000, "a")]] (firstBound 0) = some [] := by decide

end Jamsesh.Pagination
