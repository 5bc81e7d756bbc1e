import Jamsesh.AtomicWrite
import Jamsesh.SyncRun
/-!
# HydrateRun — a hydration alone

The files that a hydration writes, into a directory that is there or not, in the order of the downloads and of the refs
(`hydrate_run`).
-/
namespace Jamsesh.Objectstore

open FileTree List
open GoString (ofString Valid)
open Prog (run)

/-! ## Writes -/

def Places (l : List (FilePath × GoString)) (t t' : Repo) : Prop := placeAll tmpPath l t = .ok t'

theorem tmpPath_sibling {p : FilePath} (hp : p ≠ []) : Sibling (tmpPath p) p where
  dir := dropLast_concat
  ne := by
    intro h
    have hl := congrArg List.getLast? h
    rw [tmpPath, List.getLast?_concat, List.getLast?_eq_some_getLast hp, Option.getD_some] at hl
    have hlen := congrArg List.length (Option.some.inj hl)
    simp [ofString] at hlen
  left := by simp [tmpPath]
  right := hp

variable {fresh : Repo} {lost : GoString → Bool} {s : Store}

/-- **A program that changes the directory as `R` says**, and fails where `R` leads nowhere. -/
def ActsAs (fresh : Repo) (lost : GoString → Bool) (s : Store) (p : Act Unit) (R : Repo → Repo → Prop) : Prop :=
  ∀ t w', run (podAnswer fresh lost) (p : Prog Op.Res (Except Err Unit)) (s, some t) = (.ok (), w') ↔
    ∃ t', R t t' ∧ w' = (s, some t')

theorem ActsAs.bind {p q : Act Unit} {R R' : Repo → Repo → Prop} (hp : ActsAs fresh lost s p R) (hq : ActsAs fresh lost s q R') :
    ActsAs fresh lost s (p >>= fun _ => q) (fun t t'' => ∃ t', R t t' ∧ R' t' t'') := by
  intro t w'
  cases hr : run (podAnswer fresh lost) p (s, some t) with
  | mk r w =>
    cases r with
    | error =>
      rw [Prog.run_bind_error hr]
      refine ⟨fun h => ?_, fun ⟨t'', ⟨t', hR, _⟩, _⟩ => ?_⟩
      · cases h
      · have hok := (hp t (s, some t')).2 ⟨t', hR, rfl⟩
        rw [hr] at hok
        cases hok
    | ok =>
      obtain ⟨t₁, hR, rfl⟩ := (hp t w).1 hr
      rw [Prog.run_bind_ok hr, hq t₁ w']
      constructor
      · rintro ⟨t'', hR', rfl⟩
        exact ⟨t'', ⟨t₁, hR, hR'⟩, rfl⟩
      · rintro ⟨t'', ⟨t', hR', hR''⟩, rfl⟩
        have hs := (hp t (s, some t')).2 ⟨t', hR', rfl⟩
        rw [hr] at hs
        cases hs
        exact ⟨t'', hR'', rfl⟩

theorem ActsAs.withErr {g : Err → Err} {p : Act Unit} {R : Repo → Repo → Prop} (hp : ActsAs fresh lost s p R) :
    ActsAs fresh lost s (Prog.withErr g p) R := by
  intro t w'
  rw [Prog.run_withErr, ← hp t w']
  cases run (podAnswer fresh lost) p (s, some t) with
  | mk r =>
    cases r with
    | error | ok => simp [Except.mapError]

theorem ActsAs.congr {p : Act Unit} {R R' : Repo → Repo → Prop} (hp : ActsAs fresh lost s p R) (h : ∀ t t', R t t' ↔ R' t t') :
    ActsAs fresh lost s p R' := by
  intro t w'
  rw [hp t w']
  simp only [h]

theorem actsAs_nil : ActsAs fresh lost s (pure ()) (Places []) := by
  intro t _
  constructor
  · intro h
    cases h
    exact ⟨t, rfl, rfl⟩
  · rintro ⟨_, ht', rfl⟩
    cases ht'
    rfl

theorem actsAs_forEach {A : Type} {f : A → Act Unit} {ws : A → FilePath × GoString} : ∀ {l : List A},
    (∀ a ∈ l, ActsAs fresh lost s (f a) (Places [ws a])) → ActsAs fresh lost s (Prog.forEach f l) (Places (l.map ws))
  | [], _ => actsAs_nil
  | a :: l, h => by
    obtain ⟨ha, hl⟩ := forall_mem_cons.1 h
    refine (ActsAs.bind ha (actsAs_forEach hl)).congr fun t _ => ?_
    rw [map_cons, ← singleton_append]
    exact placeAll_append.symm

theorem ActsAs.change {p : Act (Except Err Unit)} {k : Except Err Unit → Act Unit} {g : Repo → Except FileErr Repo}
    {R : Repo → Repo → Prop} (hp : ∀ t, run (podAnswer fresh lost) p (s, some t) =
      (.ok (changed (some t) (g t)).1, (s, (changed (some t) (g t)).2))) (hk : ActsAs fresh lost s (k (.ok ())) R)
    (hf : ∀ e w, ∃ e' w', run (podAnswer fresh lost) (k (.error e)) w = (.error e', w')) :
    ActsAs fresh lost s (p >>= k) (fun t t'' => ∃ t', g t = .ok t' ∧ R t' t'') := by
  intro t w'
  rw [Prog.run_bind_ok (hp t)]
  cases hg : g t with
  | error e =>
    obtain ⟨_, _, hr⟩ := hf (diskErr e) (s, some t)
    simp [changed, hr, hg]
  | ok t₁ => simp only [changed, hk t₁ w', hg, Except.ok.injEq, exists_eq_left']

theorem writeAtomic_acts {p : FilePath} {data : GoString} : ActsAs fresh lost s (writeAtomic p data) (Places [(p, data)]) := by
  unfold writeAtomic
  refine ActsAs.congr (ActsAs.change (g := fun t => mkdirAll t p.dropLast) (fun t => rfl)
    (ActsAs.change (g := fun t => writeFile t (tmpPath p) data) (fun t => rfl)
      (ActsAs.change (g := fun t => rename t (tmpPath p) p) (fun t => rfl) actsAs_nil fun e w => ⟨_, _, rfl⟩)
      fun e w => ⟨_, _, rfl⟩) fun e w => ⟨_, _, rfl⟩) fun t _ => ?_
  simp only [Places, placeAll, place, bind, Except.bind]
  cases mkdirAll t p.dropLast with
  | error => simp
  | ok t₁ =>
    simp only [Except.ok.injEq, exists_eq_left']
    cases writeFile t₁ (tmpPath p) data with
    | error => simp
    | ok t₂ =>
      simp only [Except.ok.injEq, exists_eq_left']
      cases rename t₂ (tmpPath p) p with
      | error | ok => simp

/-! ## The writes of a hydration -/

variable {marshal : Manifest → GoString}

def stored (marshal : Manifest → GoString) (s : Store) (key : GoString) : GoString :=
  ((s.at? key).map (·.data.text marshal)).getD []

def Download.write (marshal : Manifest → GoString) (s : Store) (d : Download) : FilePath × GoString :=
  (d.path, stored marshal s d.key)

theorem download_acts {d : Download} (hk : (s.at? d.key).isSome) :
    ActsAs fresh lost s (download marshal d) (Places [d.write marshal s]) := by
  obtain ⟨x, hx⟩ := Option.isSome_iff_exists.1 hk
  intro t w'
  have hg : run (podAnswer fresh lost) (onStore (.get d.key)) (s, some t) =
      (.ok (.ok (x.data, x.etag, x.token)), (s, some t)) := by
    simp only [onStore, Prog.call, run, podAnswer, Store.answer, Store.get, hx]
  have hw : d.write marshal s = (d.path, x.data.text marshal) := by
    rw [Download.write, stored, hx]
    rfl
  unfold download
  rw [Prog.run_bind_ok hg, hw]
  exact ActsAs.withErr writeAtomic_acts t w'

def packWrites (marshal : Manifest → GoString) (order : MapOrder Download) (s : Store) (packs : List PackEntry) :
    List (FilePath × GoString) :=
  (order.iterate (packs.flatMap packDownloads)).map (Download.write marshal s)

def looseDownloads (objectsPrefix : GoString) (s : Store) : List Download :=
  ((s.list objectsPrefix).filter (fun key => isLooseKey (GoString.trimPrefix key objectsPrefix))).map (looseDownload objectsPrefix)

def looseWrites (marshal : Manifest → GoString) (order : MapOrder Download) (objectsPrefix : GoString) (s : Store) :
    List (FilePath × GoString) :=
  (order.iterate (looseDownloads objectsPrefix s)).map (Download.write marshal s)

def refWrites (order : MapOrder (Σ _ : GoString, GoString)) (refs : Refs) : List (FilePath × GoString) :=
  (order.iterate refs.entries).map (fun ref => (joinPath [] ref.1, ref.2 ++ ofString "\n"))

def packedWrites (packedRefs : GoString) : List (FilePath × GoString) :=
  if packedRefs = [] then [] else [(packedRefsPath, packedRefs)]

def makePackDir (packs : List PackEntry) (t : Repo) : Except FileErr Repo := if packs = [] then .ok t else t.mkdirAll packDir

theorem downloadPacks_acts {order : MapOrder Download} {packs : List PackEntry}
    (hs : ∀ p ∈ packs, (s.at? p.packKey).isSome ∧ (s.at? p.idxKey).isSome) :
    ActsAs fresh lost s (downloadPacks marshal order packs)
      (fun t t' => ∃ t₁, makePackDir packs t = .ok t₁ ∧ Places (packWrites marshal order s packs) t₁ t') := by
  unfold downloadPacks makePackDir
  split
  · rename_i hnil
    refine actsAs_nil.congr fun t _ => ?_
    have hn : packWrites marshal order s packs = [] := by
      rw [packWrites, hnil, flatMap_nil, (order.perm []).eq_nil]
      rfl
    simp [hn]
  · refine ActsAs.change (fun t => rfl)
      (actsAs_forEach fun d hd => download_acts ?_) fun e w => ⟨_, _, rfl⟩
    obtain ⟨p, hp, hd⟩ := mem_flatMap.1 ((order.perm _).mem_iff.1 hd)
    simp only [packDownloads, mem_cons, not_mem_nil, or_false] at hd
    rcases hd with rfl | rfl
    · exact (hs p hp).1
    · exact (hs p hp).2

theorem downloadLooseObjects_acts {order : MapOrder Download} {objectsPrefix : GoString} :
    ActsAs fresh lost s (downloadLooseObjects marshal order objectsPrefix) (Places (looseWrites marshal order objectsPrefix s)) := by
  intro t w'
  have hl : run (podAnswer fresh lost) (onStore (.list objectsPrefix)) (s, some t) =
      (.ok (.ok (s.list objectsPrefix)), (s, some t)) := rfl
  unfold downloadLooseObjects
  rw [Prog.run_bind_ok hl]
  refine actsAs_forEach (fun d hd => download_acts ?_) t w'
  obtain ⟨_, hk, rfl⟩ := mem_map.1 ((order.perm _).mem_iff.1 hd)
  obtain ⟨hk, -⟩ := mem_filter.1 (mem_filter.1 hk).1
  rw [Store.at?, AList.lookup_isSome]
  exact hk

theorem writeRefs_acts {order : MapOrder (Σ _ : GoString, GoString)} {refs : Refs} :
    ActsAs fresh lost s (writeRefs order refs) (Places (refWrites order refs)) :=
  actsAs_forEach fun _ _ => ActsAs.withErr writeAtomic_acts

theorem writePackedRefs_acts {packedRefs : GoString} :
    ActsAs fresh lost s (writePackedRefs packedRefs) (Places (packedWrites packedRefs)) := by
  unfold writePackedRefs packedWrites
  split
  · exact actsAs_nil
  · exact ActsAs.withErr writeAtomic_acts

def hydrateWrites (marshal : Manifest → GoString) (orders : HydrateOrders) (sessionID : GoString) (s : Store) (m : Manifest) :
    List (FilePath × GoString) :=
  packWrites marshal orders.downloads s m.packs ++
    (looseWrites marshal orders.downloads (ofString "sessions/" ++ sessionID ++ ofString "/objects/") s ++
      (refWrites orders.refs m.refs ++ packedWrites m.packedRefs))

theorem hydrateWrites_acts {orders : HydrateOrders} {sessionID : GoString} {m : Manifest}
    (hs : ∀ p ∈ m.packs, (s.at? p.packKey).isSome ∧ (s.at? p.idxKey).isSome) :
    ActsAs fresh lost s (do
      Prog.withErr (Err.wrap (ofString "download packs")) (downloadPacks marshal orders.downloads m.packs)
      Prog.withErr (Err.wrap (ofString "download loose objects"))
        (downloadLooseObjects marshal orders.downloads (ofString "sessions/" ++ sessionID ++ ofString "/objects/"))
      writeRefs orders.refs m.refs
      writePackedRefs m.packedRefs)
      (fun t t' => ∃ t₁, makePackDir m.packs t = .ok t₁ ∧ Places (hydrateWrites marshal orders sessionID s m) t₁ t') := by
  refine (ActsAs.bind (ActsAs.withErr (downloadPacks_acts hs)) (ActsAs.bind (ActsAs.withErr downloadLooseObjects_acts)
    (ActsAs.bind writeRefs_acts writePackedRefs_acts))).congr fun t _ => ?_
  simp only [hydrateWrites, Places, placeAll_append]
  constructor
  · rintro ⟨t₂, ⟨t₁, hd, hp⟩, hr⟩
    exact ⟨t₁, hd, t₂, hp, hr⟩
  · rintro ⟨t₁, hd, t₂, hp, hr⟩
    exact ⟨t₂, ⟨t₁, hd, hp⟩, hr⟩

theorem hydrate_run (fresh : Repo) (lost : GoString → Bool) (marshal : Manifest → GoString) (orders : HydrateOrders)
    {sessionID : GoString} (hsession : Valid sessionID) (hok : ManifestOk sessionID s) (ht : (loadedOf sessionID s).2 ≠ none)
    (hs : ∀ p ∈ (loadedOf sessionID s).1.packs, (s.at? p.packKey).isSome ∧ (s.at? p.idxKey).isSome) (disk : Option Repo)
    (w' : Pod) :
    run (podAnswer fresh lost) (hydrate marshal orders sessionID) (s, disk) = (.ok (), w') ↔
      ∃ t', (∃ t, makePackDir (loadedOf sessionID s).1.packs (disk.getD fresh) = .ok t ∧
        Places (hydrateWrites marshal orders sessionID s (loadedOf sessionID s).1) t t') ∧ w' = (s, some t') := by
  have hl : run (podAnswer fresh lost) (Prog.withErr (Err.wrap (ofString "load manifest")) (load sessionID)) (s, disk) =
      (.ok (loadedOf sessionID s), (s, disk)) := Prog.run_withErr_ok (load_run hsession hok)
  have he : run (podAnswer fresh lost) (onDisk .repoExists) (s, disk) = (.ok (.ok disk.isSome), (s, disk)) := rfl
  have hc : run (podAnswer fresh lost) (createRepo (ofString "create repo")) (s, none) = (.ok (), (s, some fresh)) := rfl
  rw [← ActsAs.withErr (hydrateWrites_acts hs) (disk.getD fresh) w']
  unfold hydrate
  rw [Prog.run_withErr, Prog.run_withErr, Prog.run_bind_ok hl, if_neg ht, Prog.run_bind_ok he]
  cases disk with
  | none =>
    simp only [Option.isSome_none, Bool.false_eq_true, if_false]
    rw [Prog.run_bind_ok hc]
    rfl
  | some => rfl

end Jamsesh.Objectstore
