import Jamsesh.SyncTrace
/-!
# LazyDelete — packs that come back before they are deleted

After its manifest is saved a sync deletes the packs that are no longer listed, at any later time and without another
look.  While no sync finds a pack whose deletion is ahead, what is listed is never deleted (`deletes_unlisted`), and with
complete packs what is listed is stored (`saved_packs_stored`).
-/
namespace Jamsesh.Objectstore

open List Prog
open GoString (ofString coerce Valid)

/-! ## Manifests of the code -/

/-- **A manifest that names its packs by the code's keys**, in well-formed text. -/
def WellPacked (sessionID : GoString) (m : Manifest) : Prop := ∀ p ∈ m.packs, ∃ sha, Valid sha ∧ p = packEntry sessionID sha

variable {m : Manifest} {key : GoString} {t : SyncThread} {o : Op} {r : o.Res} {e : Σ o, Op.Res o}
  {old : Manifest × Option Nat} {ts : List SyncThread}

variable {sessionID : GoString} {s : State Store Op.Res (Except Err Unit)} {s' : Store}

theorem WellPacked.coerced_packs (hsession : Valid sessionID) (h : WellPacked sessionID m) : m.coerced.packs = m.packs := by
  refine (map_congr_left fun p hp => ?_).trans (map_id m.packs)
  obtain ⟨sha, hs, rfl⟩ := h p hp
  have hs' : coerce sessionID = sessionID := hsession
  have hsha' : coerce sha = sha := hs
  simp [PackEntry.coerced, packEntry, packKey, idxKey, hs', hsha']

theorem WellPacked.mem_keys (h : WellPacked sessionID m)
    (hk : key ∈ m.keys) : ∃ sha, packEntry sessionID sha ∈ m.packs ∧ key ∈ (packEntry sessionID sha).keys := by
  obtain ⟨p, hp, hk⟩ := mem_flatMap.1 hk
  obtain ⟨sha, -, rfl⟩ := h p hp
  exact ⟨sha, hp, hk⟩

/-! ## The syncs of a session -/

/-- **The syncs of a session**, on any pods, with their deleting goroutines; the rest of the store moves as it likes, and
nothing is known of the directories. -/
def syncs (sessionID : GoString) : System Store Op.Res (Except Err Unit) where
  does := answers
  env := fun s s' => (∀ key, sessionDir sessionID <+: key → s'.at? key = s.at? key) ∧ s.next ≤ s'.next
  starts := fun _ p => ∃ order token, p = syncAndDelete order sessionID token

abbrev SyncThread := Thread Store Op.Res (Except Err Unit)

abbrev SyncEvent := Event Store Op.Res (Except Err Unit)

def Pending (ts : List SyncThread) (key : GoString) : Prop := ∃ t ∈ ts, key ∈ toDelete t.past

def Fresh (sessionID : GoString) (s : Store) (old : Manifest × Option Nat) : Prop :=
  (s.at? (manifestKey sessionID)).map (·.etag) = old.2

/-- **What a trace says of the store**: while the manifest it began with is current, no pack it has found is to be deleted, and
what it has stored is there. -/
structure PastOk (sessionID : GoString) (s : Store) (pending : GoString → Prop) (past : Trace Op.Res) : Prop where
  issued : ∀ e old etag, past.head? = some e → Loaded sessionID e old → old.2 = some etag → etag < s.next
  began : ∀ e old x, past.head? = some e → Loaded sessionID e old → s.at? (manifestKey sessionID) = some x →
    old.2 = some x.etag → ∃ m, x.data = .json m ∧ old.1 = m.coerced
  valid : ∀ entries, Listed packDir entries past → ∀ lp ∈ localPacks entries, Valid lp.sha
  clear : ∀ e old entries, past.head? = some e → Loaded sessionID e old → Fresh sessionID s old →
    Listed packDir entries past → ∀ lp ∈ localPacks entries, ∀ key ∈ (packEntry sessionID lp.sha).keys,
      ¬ pending key ∧ (Stored key past → (s.at? key).isSome)

/-- **What holds in every state**: the manifest names its packs by their keys and lists none that is to be deleted. -/
structure SyncsOk (sessionID : GoString) (s : State Store Op.Res (Except Err Unit)) : Prop where
  obeys : ∀ t ∈ s.threads, Obeys (SyncRule sessionID) (fun _ _ => True) t.past t.rest
  stored : ∀ x, s.world.at? (manifestKey sessionID) = some x → x.etag < s.world.next ∧
    ∃ m, x.data = .json m ∧ WellPacked sessionID m ∧ ∀ key ∈ m.keys, ¬ Pending s.threads key
  past : ∀ t ∈ s.threads, PastOk sessionID s.world (Pending s.threads) t.past
  ahead : ∀ key, Pending s.threads key → ∃ sha, key ∈ (packEntry sessionID sha).keys

theorem SyncsOk.listed (hI : SyncsOk sessionID s) (x : Object)
    (m : Manifest) (hx : s.world.at? (manifestKey sessionID) = some x) (hm : x.data = .json m) :
    ∀ key ∈ m.keys, ¬ Pending s.threads key := by
  obtain ⟨-, _, hm', -, hk⟩ := hI.stored x hx
  rw [hm] at hm'
  cases hm'
  exact hk

theorem SyncsOk.ahead_ne (hI : SyncsOk sessionID s)
    (ht : t ∈ s.threads) : ∀ key ∈ toDelete t.past, key ≠ manifestKey sessionID := by
  intro key hk
  obtain ⟨_, hs⟩ := hI.ahead key ⟨t, ht, hk⟩
  exact ne_manifestKey_of_mem_keys hs

theorem SyncsOk.wellPacked (hI : SyncsOk sessionID s)
    (x : Object) (hx : s.world.at? (manifestKey sessionID) = some x) : ∃ m, x.data = .json m ∧ WellPacked sessionID m :=
  (hI.stored x hx).2.imp fun _ hm => ⟨hm.1, hm.2.1⟩

/-! ## What a call does -/

/-- **What a call of a sync does to the store**: it leaves the manifest and takes no key but the next to delete, or it writes
the manifest it has collected. -/
inductive SyncEffect (sessionID : GoString) (s s' : Store) (past : Trace Op.Res) (e : Σ o, Op.Res o) : Prop where
  | quiet (same : s'.at? (manifestKey sessionID) = s.at? (manifestKey sessionID)) (next : s.next ≤ s'.next)
      (keep : ∀ key, (s.at? key).isSome → key ∉ toDelete past → (s'.at? key).isSome)
      (unsaved : savedBy e = none)
  | wrote (m : Manifest) (token : Int) (ifMatch : Option Nat) (etag : Nat) (old : Manifest × Option Nat) (e₀ : Σ o, Op.Res o)
      (event : e = ⟨.store (.put (manifestKey sessionID) (.json m) token ifMatch), .ok etag⟩)
      (head : past.head? = some e₀) (loaded : Loaded sessionID e₀ old) (given : ifMatch = old.2)
      (found : ifMatch = none ∨ Fresh sessionID s old) (unsaved : saved past = none) (undeleted : past.countP isDelete = 0)
      (collected : Collected sessionID old.1 m past) (after : s' = s.write (manifestKey sessionID) (.json m) token)

theorem call_syncEffect {s : Store} {past : Trace Op.Res}
    (ha : ∀ key ∈ toDelete past, key ≠ manifestKey sessionID) (hr : SyncRule sessionID past o)
    (hd : answers o s r s') : SyncEffect sessionID s s' past ⟨o, r⟩ := by
  cases o with
  | disk =>
    have hs : s' = s := hd
    subst hs
    exact .quiet rfl le_rfl (fun _ h _ => h) rfl
  | store o =>
    cases o with
    | get =>
      obtain ⟨rfl, -⟩ := Store.Does.get hd
      exact .quiet rfl le_rfl (fun _ h _ => h) rfl
    | put _ _ token =>
      obtain ⟨rfl, hunsaved, hu, e₀, old, m, hh, hl, rfl, rfl, -, -, hc⟩ := hr
      rcases Store.Does.put hd with ⟨rfl, rfl, hm⟩ | ⟨-, rfl, rfl⟩
      · exact .wrote m token old.2 _ old e₀ rfl hh hl rfl (hm.imp_right Eq.symm) hunsaved hu hc rfl
      · exact .quiet rfl le_rfl (fun _ h _ => h) rfl
    | putIdempotent key data token =>
      have hkey : manifestKey sessionID ≠ key := by
        rcases hr with ⟨name, obj, rfl⟩ | ⟨sha, rfl | rfl⟩
        · exact (looseKey_ne_manifestKey sessionID name obj).symm
        · exact (packKey_ne_manifestKey sessionID sha).symm
        · exact (idxKey_ne_manifestKey sessionID sha).symm
      rcases (Store.Does.putIdempotent hd).1 with rfl | ⟨-, rfl⟩
      · exact .quiet rfl le_rfl (fun _ h _ => h) rfl
      · exact .quiet (s.write_at?_ne hkey data token) (Nat.le_succ _) (fun _ hk _ => s.write_isSome key data token hk) rfl
    | delete key =>
      have hmem : key ∈ toDelete past := mem_of_head? hr
      rcases Store.Does.delete hd with rfl | rfl
      · refine .quiet (s.erase_at?_ne (ha key hmem).symm) le_rfl (fun k hk hkk => ?_) rfl
        have hne : k ≠ key := by
          rintro rfl
          exact hkk hmem
        rw [s.erase_at?_ne hne]
        exact hk
      · exact .quiet rfl le_rfl (fun _ h _ => h) rfl
    | list => cases hr

theorem stored_present {s : Store} (hd : answers o s r s') (h : Stored key [⟨o, r⟩]) : (s'.at? key).isSome := by
  obtain ⟨_, _, _, hm, hr'⟩ := h
  cases mem_singleton.1 hm
  exact (Store.Does.putIdempotent hd).2 hr'

/-! ## What a step keeps -/

section
variable {sessionID : GoString} {s s' : Store} {pending pending' : GoString → Prop} {past : Trace Op.Res}

theorem PastOk.quiet (h : PastOk sessionID s pending past)
    (hsame : s'.at? (manifestKey sessionID) = s.at? (manifestKey sessionID)) (hn : s.next ≤ s'.next)
    (hpending : ∀ key, pending' key → pending key)
    (hkeep : ∀ key, sessionDir sessionID <+: key → (s.at? key).isSome → ¬ pending key → (s'.at? key).isSome) :
    PastOk sessionID s' pending' past := by
  refine ⟨fun e old etag he hl ho => Nat.lt_of_lt_of_le (h.issued e old etag he hl ho) hn, fun e old x he hl hx => ?_,
    h.valid, fun e old entries he hl hf hlist lp hlp key hk => ?_⟩
  · rw [hsame] at hx
    exact h.began e old x he hl hx
  · rw [Fresh, hsame] at hf
    obtain ⟨hc, hs⟩ := h.clear e old entries he hl hf hlist lp hlp key hk
    exact ⟨fun hp => hc (hpending key hp), fun hst => hkeep key (sessionDir_of_mem_keys hk) (hs hst) hc⟩

theorem PastOk.stale (h : PastOk sessionID s pending past) {data : Content} {token : Int} :
    PastOk sessionID (s.write (manifestKey sessionID) data token) pending' past := by
  have hs : ∀ e old, past.head? = some e → Loaded sessionID e old →
      ¬ Fresh sessionID (s.write (manifestKey sessionID) data token) old := by
    intro e old he hl hf
    rw [Fresh, Store.write_at?_self] at hf
    exact Nat.lt_irrefl _ (h.issued e old _ he hl hf.symm)
  refine ⟨fun e old etag he hl ho => Nat.lt_succ_of_lt (h.issued e old etag he hl ho), fun e old x he hl hx ho => ?_, h.valid,
    fun e old _ he hl hf => absurd hf (hs e old he hl)⟩
  refine absurd ?_ (hs e old he hl)
  rw [Fresh, hx, ho]
  rfl

theorem head?_snoc {e' : Σ o, Op.Res o} (h : (past ++ [e]).head? = some e') : past.head? = some e' ∨ past = [] ∧ e' = e := by
  cases past with
  | nil => exact .inr ⟨rfl, (Option.some.inj h).symm⟩
  | cons => exact .inl h

theorem listed_snoc {p : FilePath} {entries : List (GoString × Bool)} (h : Listed p entries (past ++ [e])) :
    Listed p entries past ∨ e = ⟨.disk (.readDir p), .ok entries⟩ :=
  (mem_append.1 h).imp_right fun hm => (mem_singleton.1 hm).symm

theorem PastOk.snoc (h : PastOk sessionID s pending past)
    (hfirst : ∀ old, Loaded sessionID e old → (∀ etag, old.2 = some etag → etag < s.next) ∧
      ∀ x, s.at? (manifestKey sessionID) = some x → ∃ m, x.data = .json m ∧ old.1 = m.coerced)
    (hlist : ∀ entries, e = ⟨.disk (.readDir packDir), .ok entries⟩ → Unpacked sessionID past ∧
      ∀ lp ∈ localPacks entries, Valid lp.sha ∧ ∀ key ∈ (packEntry sessionID lp.sha).keys, ¬ pending key)
    (hs : ∀ key, Stored key [e] → (s.at? key).isSome) : PastOk sessionID s pending (past ++ [e]) := by
  refine ⟨fun e' old etag he hl ho => ?_, fun e' old x he hl hx ho => ?_, fun entries hlisted lp hlp => ?_,
    fun e' old entries he hl hf hlisted lp hlp key hkey => ?_⟩
  · rcases head?_snoc he with he | ⟨-, rfl⟩
    · exact h.issued e' old etag he hl ho
    · exact (hfirst old hl).1 etag ho
  · rcases head?_snoc he with he | ⟨-, rfl⟩
    · exact h.began e' old x he hl hx ho
    · exact (hfirst old hl).2 x hx
  · rcases listed_snoc hlisted with hlisted | he
    · exact h.valid entries hlisted lp hlp
    · exact ((hlist entries he).2 lp hlp).1
  · rcases listed_snoc hlisted with hlisted | rfl
    · rcases head?_snoc he with he | ⟨rfl, -⟩
      · obtain ⟨hc, hk⟩ := h.clear e' old entries he hl hf hlisted lp hlp key hkey
        exact ⟨hc, fun hst => (stored_snoc hst).elim hk (hs key)⟩
      · cases hlisted
    · obtain ⟨hu, hfound⟩ := hlist entries rfl
      refine ⟨(hfound lp hlp).2 key hkey, fun hst => ?_⟩
      -- packs are uploaded after the listing
      rcases stored_snoc hst with hst | hst
      · exact absurd hst (hu lp.sha key hkey)
      · exact absurd hst (unpacked_disk _ _ lp.sha key hkey)

theorem PastOk.old_listed (hsession : Valid sessionID) (h : PastOk sessionID s pending past)
    (hh : past.head? = some e) (hl : Loaded sessionID e old)
    (hf : Fresh sessionID s old)
    (hs : ∀ x, s.at? (manifestKey sessionID) = some x → ∃ m, x.data = .json m ∧ WellPacked sessionID m)
    {p : PackEntry} (hp : p ∈ old.1.packs) :
    ∃ x m, s.at? (manifestKey sessionID) = some x ∧ x.data = .json m ∧ p ∈ m.packs ∧ ∃ sha, Valid sha ∧ p = packEntry sessionID sha := by
  cases hx : s.at? (manifestKey sessionID) with
  | none =>
    rw [Fresh, hx] at hf
    cases hl with
    | missing => cases hp
    | found => cases hf
  | some x =>
    rw [Fresh, hx] at hf
    obtain ⟨m, hm, ho⟩ := h.began e old x hh hl hx hf.symm
    obtain ⟨_, hm', hw⟩ := hs x hx
    rw [hm] at hm'
    cases hm'
    rw [ho, hw.coerced_packs hsession] at hp
    exact ⟨x, m, rfl, hm, hp, hw p hp⟩

/-- **What a sync has collected**, when the manifest it began with is still the current one: packs under their keys, and none
that is to be deleted. -/
theorem collected_clear (hsession : Valid sessionID) (h : PastOk sessionID s pending past)
    (hh : past.head? = some e) (hl : Loaded sessionID e old)
    (hf : Fresh sessionID s old) (hc : Collected sessionID old.1 m past)
    (hstored : ∀ x, s.at? (manifestKey sessionID) = some x → ∃ m, x.data = .json m ∧ WellPacked sessionID m)
    (hlisted : ∀ x m, s.at? (manifestKey sessionID) = some x → x.data = .json m → ∀ key ∈ m.keys, ¬ pending key) :
    WellPacked sessionID m ∧ ∀ key ∈ m.keys, ¬ pending key := by
  rcases hc.packs with ⟨-, hs⟩ | ⟨entries, he, hm, -⟩
  · -- without a directory the old packs are carried over
    refine ⟨fun p hp => ?_, fun key hk => ?_⟩
    · rw [hs] at hp
      obtain ⟨-, -, -, -, -, hsha⟩ := h.old_listed hsession hh hl hf hstored hp
      exact hsha
    · obtain ⟨p, hp, hk⟩ := mem_flatMap.1 hk
      rw [hs] at hp
      obtain ⟨x, m₀, hx, hm₀, hp, -⟩ := h.old_listed hsession hh hl hf hstored hp
      exact hlisted x m₀ hx hm₀ key (mem_flatMap.2 ⟨p, hp, hk⟩)
  · refine ⟨fun p hp => ?_, fun key hk => ?_⟩
    · obtain ⟨lp, hlp, rfl⟩ := (hm p).1 hp
      exact ⟨lp.sha, h.valid entries he lp hlp, rfl⟩
    · obtain ⟨p, hp, hk⟩ := mem_flatMap.1 hk
      obtain ⟨lp, hlp, rfl⟩ := (hm p).1 hp
      exact (h.clear e old entries hh hl hf he lp hlp key hk).1

theorem removed_unlisted {old : Manifest} (hold : WellPacked sessionID old) (hm : WellPacked sessionID m)
    (hk : key ∈ removedPackKeys old.packs m.packs) : key ∉ m.keys ∧ ∃ sha, key ∈ (packEntry sessionID sha).keys := by
  obtain ⟨p, hp, hg, hk⟩ := mem_removedPackKeys.1 hk
  obtain ⟨sha, -, rfl⟩ := hold p hp
  refine ⟨fun hl => hg ?_, sha, hk⟩
  obtain ⟨_, hmem, hk'⟩ := hm.mem_keys hl
  rw [sha_eq_of_mem_keys hk hk']
  exact mem_map.2 ⟨_, hmem, rfl⟩

end

/-! ## No deletion of what is listed -/

def packListing : SyncEvent → Option (List SyncThread × SyncThread × List LocalPack)
  | .call before t (.disk (.readDir p)) (.ok entries) _ =>
    if p = packDir then some (before.threads, t, localPacks entries) else none
  | _ => none

def firstWrite : SyncEvent → Option (Store × GoString)
  | .call before _ (.store (.put key _ _ none)) (.ok _) _ => some (before.world, key)
  | _ => none

def deletion : SyncEvent → Option (Store × GoString)
  | .call before _ (.store (.delete key)) _ _ => some (before.world, key)
  | _ => none

def current (sessionID : GoString) (s : Store) : Option Manifest :=
  (s.at? (manifestKey sessionID)).bind (fun x => x.data.unmarshal)

/-- **An orderly step**: a listing finds packs with well-formed names and none whose deletion is ahead, and a first manifest is
written where there is none. -/
def Orderly (sessionID : GoString) (e : SyncEvent) : Prop :=
  (∀ l ∈ packListing e, ∀ lp ∈ l.2.2, Valid lp.sha ∧ ∀ key ∈ (packEntry sessionID lp.sha).keys, ¬ Pending l.1 key) ∧
    ∀ w ∈ firstWrite e, w.1.at? w.2 = none

def SparesListed (sessionID : GoString) (e : SyncEvent) : Prop :=
  ∀ d ∈ deletion e, ∀ m ∈ current sessionID d.1, d.2 ∉ m.keys

instance (ts : List SyncThread) (key : GoString) : Decidable (Pending ts key) :=
  inferInstanceAs (Decidable (∃ t ∈ ts, key ∈ toDelete t.past))

instance (sessionID : GoString) (e : SyncEvent) : Decidable (Orderly sessionID e) := inferInstanceAs (Decidable (_ ∧ _))

instance (sessionID : GoString) (e : SyncEvent) : Decidable (SparesListed sessionID e) :=
  inferInstanceAs (Decidable (∀ d ∈ deletion e, ∀ m ∈ current sessionID d.1, d.2 ∉ m.keys))

theorem Orderly.fresh {s : Store} {data : Content} {token : Int} {ifMatch : Option Nat} {etag : Nat}
    (h : Orderly sessionID (.call ⟨s, ts⟩ t (.store (.put (manifestKey sessionID) data token ifMatch)) (.ok etag) s'))
    (hg : ifMatch = old.2) (hf : ifMatch = none ∨ Fresh sessionID s old) : Fresh sessionID s old := by
  refine hf.elim (fun hn => ?_) id
  subst hn
  have he : s.at? (manifestKey sessionID) = none := h.2 (s, manifestKey sessionID) rfl
  rw [Fresh, he, ← hg]
  rfl

theorem SyncsOk.quiet {s : Store} {ts' : List SyncThread} (hI : SyncsOk sessionID ⟨s, ts⟩)
    (hs : s'.at? (manifestKey sessionID) = s.at? (manifestKey sessionID)) (hn : s.next ≤ s'.next)
    (hpending : ∀ key, Pending ts' key → Pending ts key)
    (hkeep : ∀ key, sessionDir sessionID <+: key → (s.at? key).isSome → ¬ Pending ts key → (s'.at? key).isSome)
    (ht : ∀ u ∈ ts', u ∈ ts ∨ Obeys (SyncRule sessionID) (fun _ _ => True) u.past u.rest ∧
      PastOk sessionID s' (Pending ts') u.past) : SyncsOk sessionID ⟨s', ts'⟩ := by
  refine ⟨fun u hu => ?_, fun x hx => ?_, fun u hu => ?_, fun key hkey => hI.ahead key (hpending key hkey)⟩
  · exact (ht u hu).elim (hI.obeys u) And.left
  · have hx' : s.at? (manifestKey sessionID) = some x := hs ▸ hx
    obtain ⟨he, m, hm, hw, hk⟩ := hI.stored x hx'
    exact ⟨Nat.lt_of_lt_of_le he hn, m, hm, hw, fun key hkey hp => hk key hkey (hpending key hp)⟩
  · exact (ht u hu).elim (fun hu => (hI.past u hu).quiet hs hn hpending hkeep) And.right

theorem pending_replaced {pre post : List SyncThread} {t' : SyncThread}
    (h : Pending (pre ++ t' :: post) key) : Pending (pre ++ t :: post) key ∨ key ∈ toDelete t'.past := by
  obtain ⟨u, hu, hk⟩ := h
  rcases mem_append.1 hu with hu | hu
  · exact .inl ⟨u, mem_append_left _ hu, hk⟩
  · rcases mem_cons.1 hu with rfl | hu
    · exact .inr hk
    · exact .inl ⟨u, mem_append_right _ (mem_cons_of_mem _ hu), hk⟩

theorem mem_replaced {A : Type} {pre post : List A} {t t' u : A} (h : u ∈ pre ++ t' :: post) :
    u ∈ pre ++ t :: post ∨ u = t' := by
  rcases mem_append.1 h with h | h
  · exact .inl (mem_append_left _ h)
  · rcases mem_cons.1 h with h | h
    · exact .inr h
    · exact .inl (mem_append_right _ (mem_cons_of_mem _ h))

theorem SyncsOk.first {s : Store} (hI : SyncsOk sessionID ⟨s, ts⟩)
    (hd : answers o s r s') (hl : Loaded sessionID ⟨o, r⟩ old) :
    (∀ etag, old.2 = some etag → etag < s.next) ∧
      ∀ x, s.at? (manifestKey sessionID) = some x → ∃ m, x.data = .json m ∧ old.1 = m.coerced := by
  have hc : (∃ x m, s.at? (manifestKey sessionID) = some x ∧ x.data = .json m ∧ old = (m.coerced, some x.etag)) ∨
      (s.at? (manifestKey sessionID) = none ∧ old = (.zero, none)) := by
    cases hl with
    | missing hk => exact Loaded.saw hd (.missing hk)
    | found hv hs => exact Loaded.saw hd (.found hv hs)
  rcases hc with ⟨x, m, hx, hm, rfl⟩ | ⟨hn, rfl⟩
  · refine ⟨fun _ he => ?_, fun y hy => ?_⟩
    · cases he
      exact (hI.stored x hx).1
    · rw [hx] at hy
      cases hy
      exact ⟨m, hm, rfl⟩
  · refine ⟨fun _ he => ?_, fun y hy => ?_⟩
    · cases he
    · rw [hn] at hy
      cases hy

theorem SyncsOk.call (hsession : Valid sessionID) {s : Store} {pre post : List SyncThread}
    {k : o.Res → Prog Op.Res (Except Err Unit)}
    (hI : SyncsOk sessionID ⟨s, pre ++ t :: post⟩) (hrest : t.rest = .op o k) (hd : answers o s r s')
    (hgood : Orderly sessionID (.call ⟨s, pre ++ t :: post⟩ t o r s')) :
    SyncsOk sessionID ⟨s', pre ++ ⟨t.born, t.past ++ [⟨o, r⟩], k r⟩ :: post⟩ := by
  have ht : t ∈ pre ++ t :: post := by simp
  have hobeys := hI.obeys t ht
  rw [hrest] at hobeys
  obtain ⟨hr, hobeys⟩ := hobeys
  cases call_syncEffect (hI.ahead_ne ht) hr hd with
  | quiet hs hn hk hunsaved =>
    have hpending : ∀ key, Pending (pre ++ ⟨t.born, t.past ++ [⟨o, r⟩], k r⟩ :: post) key → Pending (pre ++ t :: post) key := by
      intro _ hkey
      refine (pending_replaced hkey).elim id fun hkey => ⟨t, ht, ?_⟩
      rw [toDelete_snoc t.past hunsaved] at hkey
      exact mem_of_mem_drop hkey
    have hkeep' : ∀ key, sessionDir sessionID <+: key → (s.at? key).isSome → ¬ Pending (pre ++ t :: post) key →
        (s'.at? key).isSome := fun key _ hkey hp => hk key hkey fun hm => hp ⟨t, ht, hm⟩
    refine hI.quiet hs hn hpending hkeep' fun u hu => (mem_replaced hu).imp_right ?_
    rintro rfl
    refine ⟨hobeys r, ((hI.past t ht).quiet hs hn hpending hkeep').snoc (fun _ hl => ?_) ?_ fun key => stored_present hd⟩
    · obtain ⟨hi, hb⟩ := hI.first hd hl
      exact ⟨fun etag he => Nat.lt_of_lt_of_le (hi etag he) hn, fun x hx => hb x (hs ▸ hx)⟩
    · intro entries he
      cases he
      have hfound := hgood.1 (pre ++ t :: post, t, localPacks entries) (by simp [packListing])
      exact ⟨hr.2 rfl, fun lp hlp => ⟨(hfound lp hlp).1, fun key hkey hp => (hfound lp hlp).2 key hkey (hpending key hp)⟩⟩
  | wrote m token ifMatch etag old _ hevent hh hloaded hg hfound hunsaved hundeleted hc ha =>
    cases hevent
    subst ha
    have hfresh : Fresh sessionID s old := hgood.fresh hg hfound
    have hpast := hI.past t ht
    obtain ⟨hw, hclear⟩ := collected_clear hsession hpast hh hloaded hfresh hc hI.wellPacked hI.listed
    have hold : WellPacked sessionID old.1 := by
      intro p hp
      obtain ⟨-, -, -, -, -, hsha⟩ := hpast.old_listed hsession hh hloaded hfresh hI.wellPacked hp
      exact hsha
    have hdeletes : toDelete (t.past ++ [⟨.store (.put (manifestKey sessionID) (.json m) token ifMatch), .ok etag⟩]) =
        removedPackKeys old.1.packs m.packs := toDelete_written hh hloaded hunsaved hundeleted rfl rfl
    refine ⟨fun u hu => ?_, fun x hx => ?_, fun u hu => ?_, fun key hkey => ?_⟩
    · rcases mem_replaced hu with hu | rfl
      · exact hI.obeys u hu
      · exact hobeys (.ok etag)
    · rw [Store.write_at?_self] at hx
      cases hx
      refine ⟨Nat.lt_succ_self _, m, rfl, hw, fun key hkey hp => ?_⟩
      rcases pending_replaced hp with hp | hp
      · exact hclear key hkey hp
      · rw [hdeletes] at hp
        exact (removed_unlisted hold hw hp).1 hkey
    · rcases mem_replaced hu with hu | rfl
      · exact (hI.past u hu).stale
      refine hpast.stale.snoc (fun _ hl => ?_) (fun _ he => ?_) fun _ hst => ?_
      · cases hl
      · cases he
      · obtain ⟨_, _, _, hm, -⟩ := hst
        cases mem_singleton.1 hm
    · rcases pending_replaced hkey with hkey | hkey
      · exact hI.ahead key hkey
      · rw [hdeletes] at hkey
        exact (removed_unlisted hold hw hkey).2

theorem SyncsOk.step (hsession : Valid sessionID) {s' : State Store Op.Res (Except Err Unit)}
    {e : SyncEvent} (hI : SyncsOk sessionID s) (hg : Orderly sessionID e) (hstep : Step (syncs sessionID) s e s') :
    SyncsOk sessionID s' := by
  cases hstep with
  | call hr hd => exact hI.call hsession hr hd hg
  | env hm =>
    have hkey : sessionDir sessionID <+: manifestKey sessionID := manifestKey_eq sessionID ▸ prefix_append _ _
    refine hI.quiet (hm.1 _ hkey) hm.2 (fun _ h => h) (fun key hk h _ => ?_) fun u hu => .inl hu
    rw [hm.1 key hk]
    exact h
  | @start w ts p hs =>
    have hp : ∀ key, Pending (ts ++ [⟨w, [], p⟩]) key → Pending ts key := by
      rintro _ ⟨u, hu, hkey⟩
      rcases mem_append.1 hu with hu | hu
      · exact ⟨u, hu, hkey⟩
      · cases mem_singleton.1 hu
        cases hkey
    refine hI.quiet rfl le_rfl hp (fun _ _ h _ => h) fun u hu => (mem_append.1 hu).imp_right fun hu => ?_
    cases mem_singleton.1 hu
    obtain ⟨order, token, rfl⟩ := hs
    refine ⟨sync_obeys order sessionID token, fun e _ _ he => ?_, fun e _ x he => ?_, fun _ hl => ?_,
      fun e _ _ he => ?_⟩
    · cases he
    · cases he
    · cases hl
    · cases he

theorem syncsOk_idle
    (hn : s.world.at? (manifestKey sessionID) = none) (hi : s.threads = []) : SyncsOk sessionID s := by
  refine ⟨fun t ht => ?_, fun x hx => ?_, fun t ht => ?_, fun _ hk => ?_⟩
  · rw [hi] at ht
    cases ht
  · rw [hn] at hx
    cases hx
  · rw [hi] at ht
    cases ht
  · obtain ⟨t, ht, -⟩ := hk
    rw [hi] at ht
    cases ht

theorem sparesListed_of_syncsOk (hsession : Valid sessionID)
    {s' : State Store Op.Res (Except Err Unit)} {e : SyncEvent} (hI : SyncsOk sessionID s)
    (hs : Step (syncs sessionID) s e s') : SparesListed sessionID e := by
  cases hs with
  | @call w _ _ _ t o k r hr _ =>
    intro d hd m hm hk
    cases o with
    | disk => cases hd
    | store o =>
      cases o with
      | delete key =>
        cases hd
        obtain ⟨x, hx, hm⟩ := Option.bind_eq_some_iff.1 hm
        obtain ⟨-, _, hm₀, hw, hc⟩ := hI.stored x hx
        have ho := hI.obeys t (by simp)
        rw [hr] at ho
        -- the key is the next of the thread's deletions
        refine hc key ?_ ⟨t, by simp, mem_of_head? ho.1⟩
        rw [hm₀] at hm
        cases hm
        rw [Manifest.keys, hw.coerced_packs hsession] at hk
        exact hk
      | get | put | putIdempotent | list => cases hd
  | env | start =>
    intro d hd
    cases hd

/-- **In every run of orderly steps no delete removes a key that the current manifest lists.** -/
theorem deletes_unlisted {sessionID : GoString} (hsession : Valid sessionID) {s s' : State Store Op.Res (Except Err Unit)}
    {es : List SyncEvent} (hnone : s.world.at? (manifestKey sessionID) = none) (hidle : s.threads = [])
    (hrun : Run (syncs sessionID) s es s') (hgood : ∀ e ∈ es, Orderly sessionID e) : ∀ e ∈ es, SparesListed sessionID e :=
  (hrun.invariant (fun hI hgood hs => ⟨hI.step hsession hgood hs, sparesListed_of_syncsOk hsession hI hs⟩)
    (syncsOk_idle hnone hidle) hgood).2

/-! ## A pack that comes back -/

def onlyPacks (files : List GoString) : (o : DiskOp) → Except Err o.Val
  | .readDir p => if p = packDir then .ok (files.map (·, false)) else .error ⟨.notExist, []⟩
  | .readFile p => if p ∈ files.map (packDir ++ [·]) then .ok [] else .error ⟨.notExist, []⟩
  | o => noFiles o

def inOrder : MapOrder LocalPack := ⟨id, List.Perm.refl⟩

def syncTurns (n : Nat) (turns : List (Nat × Nat × List GoString)) : List (Choice Store Op.Res (Except Err Unit)) :=
  List.replicate n (.start (syncAndDelete inOrder jam 1)) ++
    turns.flatMap (fun turn => List.replicate turn.2.1 (.call turn.1 (faultless (onlyPacks turn.2.2))))

theorem syncTurns_legal (n : Nat) (turns : List (Nat × Nat × List GoString)) (s : State Store Op.Res (Except Err Unit)) :
    Legal (syncs jam) (syncTurns n turns) s := by
  refine legal_of_forall (fun c hc s => ?_) s
  rcases mem_append.1 hc with hc | hc
  · rw [eq_of_mem_replicate hc]
    exact ⟨inOrder, 1, rfl⟩
  · obtain ⟨_, -, hc⟩ := mem_flatMap.1 hc
    rw [eq_of_mem_replicate hc]
    exact fun o => faultless_answers _ o s.world

def packA : List GoString := [ofString "pack-a.idx", ofString "pack-a.pack"]

def goneTurns : List (Nat × Nat × List GoString) := [(0, 11, packA), (1, 9, [])]

theorem deletes_unlisted_gone :
    (∀ e ∈ (play (syncTurns 2 goneTurns) ⟨emptyStore, []⟩).1, Orderly jam e) ∧
      ∀ e ∈ (play (syncTurns 2 goneTurns) ⟨emptyStore, []⟩).1, SparesListed jam e := by
  have hg : ∀ e ∈ (play (syncTurns 2 goneTurns) ⟨emptyStore, []⟩).1, Orderly jam e := by decide
  exact ⟨hg, deletes_unlisted (by decide) rfl rfl (play_run (syncTurns_legal 2 goneTurns ⟨emptyStore, []⟩)) hg⟩

/-- **A pack that comes back before its deletion is listed and then deleted.** -/
theorem listed_pack_deleted : ∃ es s', Run (syncs jam) ⟨emptyStore, []⟩ es s' ∧ ¬ ∀ e ∈ es, SparesListed jam e :=
  ⟨_, _, play_run (syncTurns_legal 3 [(0, 11, packA), (1, 7, []), (2, 11, packA), (1, 1, [])] ⟨emptyStore, []⟩), by decide⟩

end Jamsesh.Objectstore
