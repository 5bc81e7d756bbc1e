import Jamsesh.Hydrate
import Jamsesh.LazyDelete
/-!
# StoredPacks — the packs of a saved manifest

A manifest lists every pack that has a file in the directory, and a pack that the old manifest lists is not uploaded
again.  While every pack a sync finds anew has both its files and keeps them until they are read, every listed pack is stored
(`saved_packs_stored`); a pack without its index is listed all the same.
-/
namespace Jamsesh.Objectstore

open List
open GoString (ofString Valid)
open Prog (Trace State Step Run Leads)

/-! ## Downloads that find their keys -/

def Downloadable (s : Store) (packs : List PackEntry) : Prop :=
  ∀ (marshal : Manifest → GoString) (order : MapOrder Download) (disk : (o : DiskOp) → Except Err o.Val),
    (∀ o e, disk o = .error e → e.kind ≠ .notFound) →
      ∀ e, (Prog.run (faultless disk) (downloadPacks marshal order packs : Prog Op.Res (Except Err Unit)) s).1 = .error e →
        e.kind ≠ .notFound

section
variable {disk : (o : DiskOp) → Except Err o.Val} {s : Store}

theorem onDisk_leads (hd : ∀ o e, disk o = .error e → e.kind ≠ .notFound) (o : DiskOp) :
    Leads (faultless disk) (· = s) (onDisk o) (fun r => ∀ e, r = .error e → e.kind ≠ .notFound) (fun e => e.kind ≠ .notFound) :=
  Leads.call fun _ hw => ⟨hw, hd o⟩

theorem writeAtomic_leads (hd : ∀ o e, disk o = .error e → e.kind ≠ .notFound) (path : FilePath) (data : GoString) :
    Leads (faultless disk) (· = s) (writeAtomic path data) (fun _ => True) (fun e => e.kind ≠ .notFound) := by
  refine Leads.bind (onDisk_leads hd _) fun r hr => ?_
  cases r with
  | error e => exact Leads.throw (hr e rfl)
  | ok =>
    refine Leads.bind (onDisk_leads hd _) fun r hr => ?_
    cases r with
    | error e => exact Leads.bind (onDisk_leads hd _) fun _ _ => Leads.throw (hr e rfl)
    | ok =>
      refine Leads.bind (onDisk_leads hd _) fun r hr => ?_
      cases r with
      | error e => exact Leads.bind (onDisk_leads hd _) fun _ _ => Leads.throw (hr e rfl)
      | ok => exact Leads.pure trivial

theorem download_leads (hd : ∀ o e, disk o = .error e → e.kind ≠ .notFound) (marshal : Manifest → GoString) {d : Download}
    (hk : (s.at? d.key).isSome) :
    Leads (faultless disk) (· = s) (download marshal d) (fun _ => True) (fun e => e.kind ≠ .notFound) := by
  have hg : Leads (faultless disk) (· = s) (onStore (.get d.key)) (fun r => ∃ v, r = .ok v) (fun e => e.kind ≠ .notFound) := by
    refine Leads.call ?_
    rintro w rfl
    obtain ⟨x, hx⟩ := Option.isSome_iff_exists.1 hk
    exact ⟨rfl, (x.data, x.etag, x.token), by simp [faultless, Store.answer, Store.get, hx]⟩
  refine Leads.bind hg fun r hr => ?_
  obtain ⟨v, rfl⟩ := hr
  exact Leads.withErr (writeAtomic_leads hd _ _) fun _ h => h

theorem downloadable_of_stored {packs : List PackEntry}
    (h : ∀ p ∈ packs, (s.at? p.packKey).isSome ∧ (s.at? p.idxKey).isSome) : Downloadable s packs := by
  intro marshal order disk hdisk e herr
  have hl : Leads (faultless disk) (· = s) (downloadPacks marshal order packs) (fun _ => True)
      (fun e => e.kind ≠ .notFound) := by
    unfold downloadPacks
    split
    · exact Leads.pure trivial
    refine Leads.bind (onDisk_leads hdisk _) fun r hr => ?_
    cases r with
    | error e => exact Leads.throw (hr e rfl)
    | ok =>
      refine Leads.forEach fun d hd => download_leads hdisk marshal ?_
      obtain ⟨p, hp, hd⟩ := mem_flatMap.1 ((order.perm _).mem_iff.1 hd)
      simp only [packDownloads, mem_cons, not_mem_nil, or_false] at hd
      rcases hd with rfl | rfl
      · exact (h p hp).1
      · exact (h p hp).2
  have he := (hl s rfl).2
  rw [herr] at he
  exact he

end

/-! ## Complete packs -/

def vanished : SyncEvent → Option FilePath
  | .call _ _ (.disk (.readFile p)) (.error e) _ => if e.kind = .notExist then some p else none
  | _ => none

def savedManifest : SyncEvent → Option (Store × Manifest)
  | .call _ _ o r after => (savedBy ⟨o, r⟩).map (after, ·)
  | _ => none

/-- **Complete packs**: each pack that is found anew has both files, and they are still there when they are read. -/
def CompletePacks (e : SyncEvent) : Prop :=
  (∀ l ∈ packListing e, ∀ lp ∈ l.2.2, lp.sha ∈ (loaded l.2.1.past).packs.map (·.sha) ∨ lp.packFn ≠ [] ∧ lp.idxFn ≠ []) ∧
    ∀ p ∈ vanished e, ¬ packDir <+: p

def SavesStored (e : SyncEvent) : Prop :=
  ∀ w ∈ savedManifest e, (∀ p ∈ w.2.coerced.packs, (w.1.at? p.packKey).isSome ∧ (w.1.at? p.idxKey).isSome) ∧
    Downloadable w.1 w.2.coerced.packs

instance (e : SyncEvent) : Decidable (CompletePacks e) := inferInstanceAs (Decidable (_ ∧ _))

structure PastComplete (past : Trace Op.Res) : Prop where
  both : ∀ entries, Listed packDir entries past → ∀ lp ∈ localPacks entries,
    lp.sha ∈ (loaded past).packs.map (·.sha) ∨ lp.packFn ≠ [] ∧ lp.idxFn ≠ []
  kept : ∀ fn, ¬ Gone (packDir ++ [fn]) past

def ListedStored (sessionID : GoString) (s : Store) : Prop :=
  ∀ x m, s.at? (manifestKey sessionID) = some x → x.data = .json m → ∀ key ∈ m.keys, (s.at? key).isSome

section
variable {sessionID : GoString} {s s' : Store} {past : Trace Op.Res}

theorem collected_stored (hsession : Valid sessionID) {pending : GoString → Prop} (h : PastOk sessionID s pending past)
    (hc : PastComplete past) (hlisted : ListedStored sessionID s) {e : Σ o, Op.Res o} {old : Manifest × Option Nat}
    {m : Manifest} (hh : past.head? = some e) (hloaded : Loaded sessionID e old) (hfresh : Fresh sessionID s old)
    (hcollected : Collected sessionID old.1 m past)
    (hstored : ∀ x, s.at? (manifestKey sessionID) = some x → ∃ m, x.data = .json m ∧ WellPacked sessionID m) :
    ∀ key ∈ m.keys, (s.at? key).isSome := by
  -- a pack of the old manifest is in the current one
  have ho : ∀ p ∈ old.1.packs, ∀ key ∈ p.keys, (s.at? key).isSome := by
    intro p hp key hkey
    obtain ⟨x, m₀, hx, hm₀, hp, -⟩ := h.old_listed hsession hh hloaded hfresh hstored hp
    exact hlisted x m₀ hx hm₀ key (mem_flatMap.2 ⟨p, hp, hkey⟩)
  intro key hkey
  obtain ⟨p, hp, hkey⟩ := mem_flatMap.1 hkey
  rcases hcollected.packs with ⟨-, hs⟩ | ⟨entries, he, hm, hd⟩
  · rw [hs] at hp
    exact ho p hp key hkey
  obtain ⟨lp, hlp, rfl⟩ := (hm p).1 hp
  have hl : loaded past = old.1 := by simp [loaded, hh, hloaded.loadedBy_eq]
  have hk : lp.sha ∈ old.1.packs.map (·.sha) → (s.at? key).isSome := by
    intro hsha
    obtain ⟨p, hp, hsha⟩ := mem_map.1 hsha
    obtain ⟨-, -, -, -, -, sha, -, rfl⟩ := h.old_listed hsession hh hloaded hfresh hstored hp
    refine ho _ hp key ?_
    rw [show sha = lp.sha from hsha]
    exact hkey
  rcases hd lp hlp with hsha | hpack
  · exact hk hsha
  have hb := hc.both entries he lp hlp
  rw [hl] at hb
  rcases hb with hsha | ⟨hpackFn, hi⟩
  · exact hk hsha
  rcases hpack with ⟨-, hg⟩ | ⟨hf, hidx⟩
  · exact absurd hg (hc.kept _)
  refine (h.clear e old entries hh hloaded hfresh he lp hlp key hkey).2 ?_
  rcases mem_keys_packEntry.1 hkey with rfl | rfl
  · exact hf.resolve_left hpackFn
  · exact (hidx.resolve_left fun hg => hc.kept _ hg.2).resolve_left hi

theorem PastComplete.snoc (h : PastComplete past) {e : Σ o, Op.Res o} (hp : past ≠ [] ∨ ∀ entries, ¬ Listed packDir entries [e])
    (hlist : ∀ entries, e = ⟨.disk (.readDir packDir), .ok entries⟩ → ∀ lp ∈ localPacks entries,
      lp.sha ∈ (loaded past).packs.map (·.sha) ∨ lp.packFn ≠ [] ∧ lp.idxFn ≠ [])
    (hg : ∀ p, Gone p [e] → ¬ packDir <+: p) : PastComplete (past ++ [e]) := by
  refine ⟨fun entries hl lp hlp => ?_, fun fn hfn => ?_⟩
  · rcases listed_snoc hl with hl | rfl
    · rw [loaded_snoc (ne_nil_of_mem hl)]
      exact h.both entries hl lp hlp
    · rw [loaded_snoc (hp.resolve_right fun hn => hn entries (mem_singleton.2 rfl))]
      exact hlist entries rfl lp hlp
  · obtain ⟨err, hm, hk⟩ := hfn
    rcases mem_append.1 hm with hm | hm
    · exact h.kept fn ⟨err, hm, hk⟩
    · exact hg _ ⟨err, hm, hk⟩ (prefix_append packDir [fn])

end

structure StoredOk (sessionID : GoString) (s : State Store Op.Res (Except Err Unit)) : Prop where
  syncs : SyncsOk sessionID s
  listed : ListedStored sessionID s.world
  complete : ∀ t ∈ s.threads, PastComplete t.past

theorem pastComplete_call {sessionID : GoString} {s s' : Store} {ts : List SyncThread} {t : SyncThread} {o : Op} {r : o.Res}
    (hr : SyncRule sessionID t.past o) (hcomplete : PastComplete t.past)
    (hg : CompletePacks (.call ⟨s, ts⟩ t o r s')) : PastComplete (t.past ++ [⟨o, r⟩]) := by
  refine hcomplete.snoc ?_ (fun entries he lp hlp => ?_) ?_
  · refine Classical.or_iff_not_imp_right.2 fun hl hn => ?_
    obtain ⟨_, hm⟩ := Classical.not_forall_not.1 hl
    cases mem_singleton.1 hm
    -- the directory is listed after the manifest is read
    have hc := hr.1
    rw [hn] at hc
    cases hc
  · cases he
    exact hg.1 (ts, t, localPacks entries) (by simp [packListing]) lp hlp
  · rintro p ⟨_, hm, hk⟩
    cases mem_singleton.1 hm
    exact hg.2 p (by simp [vanished, hk])

theorem StoredOk.step {sessionID : GoString} (hsession : Valid sessionID) {s s' : State Store Op.Res (Except Err Unit)}
    {e : SyncEvent} (hI : StoredOk sessionID s) (hgood : Orderly sessionID e ∧ CompletePacks e)
    (hstep : Step (Objectstore.syncs sessionID) s e s') : StoredOk sessionID s' ∧ SavesStored e := by
  have hsyncs := hI.syncs.step hsession hgood.1 hstep
  cases hstep with
  | @call w _ pre post t o k r hr hdoes =>
    have ht : t ∈ pre ++ t :: post := by simp
    have hrule := hI.syncs.obeys t ht
    rw [hr] at hrule
    have hcomplete : ∀ u ∈ pre ++ ⟨t.born, t.past ++ [⟨o, r⟩], k r⟩ :: post, PastComplete u.past := by
      intro u hu
      rcases mem_replaced hu with hu | rfl
      · exact hI.complete u hu
      · exact pastComplete_call hrule.1 (hI.complete t ht) hgood.2
    cases call_syncEffect (hI.syncs.ahead_ne ht) hrule.1 hdoes with
    | quiet hs _ hk hunsaved =>
      refine ⟨⟨hsyncs, fun x m hx hm key hkey => ?_, hcomplete⟩, fun d hd => ?_⟩
      · rw [hs] at hx
        exact hk key (hI.listed x m hx hm key hkey) fun hdel => hI.syncs.listed x m hx hm key hkey ⟨t, ht, hdel⟩
      · rw [savedManifest, hunsaved] at hd
        cases hd
    | wrote m token _ _ _ _ he hh hl hg hf _ _ hc ha =>
      cases he
      subst ha
      have hkeys : ∀ key ∈ m.keys, ((w.write (manifestKey sessionID) (.json m) token).at? key).isSome := fun key hkey =>
        w.write_isSome _ _ _ (collected_stored hsession (hI.syncs.past t ht) (hI.complete t ht) hI.listed hh hl
          (hgood.1.fresh hg hf) hc hI.syncs.wellPacked key hkey)
      refine ⟨⟨hsyncs, fun x _ hx hm' => ?_, hcomplete⟩, fun d hd => ?_⟩
      · rw [Store.write_at?_self] at hx
        cases hx
        cases hm'
        exact hkeys
      · cases hd
        obtain ⟨_, hm', hw⟩ := hsyncs.wellPacked _ (Store.write_at?_self w _ _ _)
        cases hm'
        rw [hw.coerced_packs hsession]
        have hboth : ∀ p ∈ m.packs, ∀ key ∈ p.keys, ((w.write (manifestKey sessionID) (.json m) token).at? key).isSome :=
          fun p hp key hkey => hkeys key (mem_flatMap.2 ⟨p, hp, hkey⟩)
        have hstored := fun p hp => And.intro (hboth p hp p.packKey (by simp [PackEntry.keys]))
          (hboth p hp p.idxKey (by simp [PackEntry.keys]))
        exact ⟨hstored, downloadable_of_stored hstored⟩
  | @env w _ _ hmoves =>
    refine ⟨⟨hsyncs, fun x m hx hm key hkey => ?_, hI.complete⟩, fun d hd => ?_⟩
    · have hx' : w.at? (manifestKey sessionID) = some x := by
        rw [← hmoves.1 _ (manifestKey_eq sessionID ▸ prefix_append _ _)]
        exact hx
      obtain ⟨_, hm', hw⟩ := hI.syncs.wellPacked x hx'
      rw [hm] at hm'
      cases hm'
      obtain ⟨_, -, hsha⟩ := hw.mem_keys hkey
      rw [hmoves.1 key (sessionDir_of_mem_keys hsha)]
      exact hI.listed x m hx' hm key hkey
    · cases hd
  | @start w _ p _ =>
    refine ⟨⟨hsyncs, hI.listed, fun u hu => ?_⟩, fun d hd => ?_⟩
    · rcases mem_append.1 hu with hu | hu
      · exact hI.complete u hu
      cases mem_singleton.1 hu
      refine ⟨fun _ hlisted => ?_, fun _ hgone => ?_⟩
      · cases hlisted
      · obtain ⟨_, hmem, -⟩ := hgone
        cases hmem
    · cases hd

theorem storedOk_idle {sessionID : GoString} {s : State Store Op.Res (Except Err Unit)}
    (hn : s.world.at? (manifestKey sessionID) = none) (hi : s.threads = []) : StoredOk sessionID s := by
  refine ⟨syncsOk_idle hn hi, fun x m hx => ?_, fun t ht => ?_⟩
  · rw [hn] at hx
    cases hx
  · rw [hi] at ht
    cases ht

/-- **In every run of orderly steps with complete packs, both keys of every pack of a saved manifest are stored when it is
saved, and downloading them misses none.** -/
theorem saved_packs_stored {sessionID : GoString} (hsession : Valid sessionID) {s s' : State Store Op.Res (Except Err Unit)}
    {es : List SyncEvent} (hnone : s.world.at? (manifestKey sessionID) = none) (hidle : s.threads = [])
    (hrun : Run (Objectstore.syncs sessionID) s es s') (hgood : ∀ e ∈ es, Orderly sessionID e ∧ CompletePacks e) :
    ∀ e ∈ es, SavesStored e :=
  (hrun.invariant (StoredOk.step hsession) (storedOk_idle hnone hidle) hgood).2

theorem saved_packs_stored_pack :
    (∀ e ∈ (Prog.play (syncTurns 1 [(0, 11, packA)]) ⟨emptyStore, []⟩).1, Orderly jam e ∧ CompletePacks e) ∧
      ∀ e ∈ (Prog.play (syncTurns 1 [(0, 11, packA)]) ⟨emptyStore, []⟩).1, SavesStored e := by
  have hg : ∀ e ∈ (Prog.play (syncTurns 1 [(0, 11, packA)]) ⟨emptyStore, []⟩).1, Orderly jam e ∧ CompletePacks e := by
    decide
  exact ⟨hg, saved_packs_stored (by decide) rfl rfl
    (Prog.play_run (syncTurns_legal 1 [(0, 11, packA)] ⟨emptyStore, []⟩)) hg⟩

/-- **A pack whose index is not there yet is listed with a key that nothing is stored under.** -/
theorem listed_index_missing : ∃ es s', Run (Objectstore.syncs jam) ⟨emptyStore, []⟩ es s' ∧
    ∃ e ∈ es, ∃ w ∈ savedManifest e, ∃ p ∈ w.2.coerced.packs, w.1.at? p.idxKey = none :=
  ⟨_, _, Prog.play_run (syncTurns_legal 1 [(0, 9, [ofString "pack-a.pack"])] ⟨emptyStore, []⟩), by decide⟩

end Jamsesh.Objectstore
