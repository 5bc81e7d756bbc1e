import Jamsesh.FileTree
import Jamsesh.StoredPacks
/-!
# UploadedRefs — pushes that land while a sync runs

A sync reads the refs after it has uploaded the objects; a push in between moves a ref to objects the sync has not seen.  While
that does not happen, the refs of a saved manifest name uploaded objects only (`refs_uploaded`).
-/
namespace Jamsesh.Objectstore

open FileTree GoString List Prog

abbrev Repo := FileTree GoString GoString

/-! ## Objects -/

def hexDigits : GoString := ofString "0123456789abcdef"

def IsId (id : GoString) : Prop := id.length = 40 ∧ ∀ c ∈ id, c ∈ hexDigits

instance (id : GoString) : Decidable (IsId id) := inferInstanceAs (Decidable (_ ∧ _))

def loosePath (id : GoString) : FilePath := objectsDir ++ [id.take 2, id.drop 2]

theorem IsId.valid {id : GoString} (h : IsId id) : Valid id := by
  have hd : ∀ c ∈ hexDigits, coerceChar c = c := by decide
  exact (map_congr_left fun c hc => hd c (h.2 c hc)).trans (map_id id)

theorem IsId.isFanout {id : GoString} (h : IsId id) : isFanout (id.take 2, true) = true := by
  obtain ⟨hlen, hd⟩ := h
  match id, hlen with
  | a :: b :: rest, _ =>
    have hw : ∀ c ∈ hexDigits, width c = 1 := by decide
    have ha := hw a (hd a (by simp))
    have hb := hw b (hd b (by simp))
    have hlen : len [a, b] = 2 := by simp [len, bytes, ha, hb]
    have htmp : hasPrefix [a, b] (ofString "tmp_") = false := by
      rw [← Bool.not_eq_true, hasPrefix_iff]
      rintro ⟨t, ht⟩
      have hl := congrArg List.length ht
      simp [ofString] at hl
    have hne : ∀ s : GoString, s.length = 4 → [a, b] ≠ s := by
      rintro s hs rfl
      cases hs
    simp [Objectstore.isFanout, hlen, htmp, hne _ (show (ofString "info").length = 4 by decide),
      hne _ (show (ofString "pack").length = 4 by decide)]

section
variable (edges : GoString → List GoString) (contents : GoString → List GoString)

def Reaches : GoString → GoString → Prop := Relation.ReflTransGen (fun a b => b ∈ edges a)

def OnDisk (d : Repo) (id : GoString) : Prop :=
  IsId id ∧ (d.isFile (loosePath id) ∨
    ∃ sha, id ∈ contents sha ∧ d.isFile (packDir ++ [packFile sha]) ∧ d.isFile (packDir ++ [idxFile sha]))

def Uploaded (sessionID : GoString) (s : Store) (m : Manifest) (id : GoString) : Prop :=
  (s.at? (looseKey sessionID (id.take 2) (id.drop 2))).isSome ∨
    ∃ p ∈ m.packs, id ∈ contents p.sha ∧ (s.at? p.packKey).isSome ∧ (s.at? p.idxKey).isSome

def RefsUploaded (sessionID : GoString) (s : Store) (m : Manifest) : Prop :=
  ∀ r ∈ m.refs.entries, ∀ id, Reaches edges r.2 id → Uploaded contents sessionID s m id

def LeadsInto (d : Repo) (data : GoString) : Prop := ∀ id, Reaches edges (trimSpace data) id → OnDisk contents d id

/-! ## Syncs beside pushes -/

/-- What is there is not missed: a listing has the objects' files, and what is said to be missing is. -/
def Shows (d : Repo) : (o : DiskOp) → Except Err o.Val → Prop
  | .readDir p, .ok entries => ∀ c rest, objectsDir <+: p ++ c :: rest → d.isFile (p ++ c :: rest) →
      (c, decide (rest ≠ [])) ∈ entries
  | .readDir p, .error e => e.kind = .notExist → ∀ c rest, objectsDir <+: p ++ c :: rest → d.isFile (p ++ c :: rest) = false
  | .readFile p, .error e => e.kind = .notExist → objectsDir <+: p → d.isFile p = false
  | _, _ => True

/-- What is said to be there is: a file has the content, and a walk stays under its root. -/
def Tells (d : Repo) : (o : DiskOp) → Except Err o.Val → Prop
  | .readFile p, .ok data => d.file? p = some data
  | .walk p, .ok paths => ∀ q ∈ paths, p <+: q
  | _, _ => True

/-- **Pushes**: objects are only added, and a ref is set where all it leads to is there. -/
def Pushed (d d' : Repo) : Prop :=
  (∀ p, objectsDir <+: p → d.isFile p → d'.isFile p) ∧
    ∀ p data, refsDir <+: p → d'.file? p = some data → d.file? p = some data ∨ LeadsInto edges contents d data

def syncsBeside (sessionID : GoString) : System (Store × Repo) Op.Res (Except Err Unit) where
  does := fun o w r w' =>
    match o, r with
    | .store o, r => Store.Does o w.1 r w'.1 ∧ w'.2 = w.2
    | .disk o, r => w' = w ∧ Shows w.2 o r ∧ Tells w.2 o r
  env := fun w w' => (syncs sessionID).env w.1 w'.1 ∧ Pushed edges contents w.2 w'.2
  starts := fun w p => (syncs sessionID).starts w.1 p

theorem syncsBeside_projects (sessionID : GoString) :
    Projects Prod.fst (syncsBeside edges contents sessionID) (syncs sessionID) where
  does := by
    intro o w r _ h
    cases o with
    | store => exact h.1
    | disk => exact congrArg Prod.fst h.1
  env := fun h => h.1
  starts := fun h => h

/-- **Settled refs**: while a sync is reading, a ref moves only to what was there when the sync began. -/
def Settled : Event (Store × Repo) Op.Res (Except Err Unit) → Prop
  | .env before after => ∀ t ∈ before.threads, t.past.countP isGet ≤ 1 → ∀ p data, refsDir <+: p →
      after.2.file? p = some data → before.world.2.file? p = some data ∨ LeadsInto edges contents t.born.2 data
  | _ => True

/-- **What a sync has seen**, in terms of the repository it began with. -/
structure Seen (sessionID : GoString) (born : Repo) (w : Store × Repo) (past : Trace Op.Res) : Prop where
  grown : ∀ p, objectsDir <+: p → born.isFile p → w.2.isFile p
  settled : past.countP isGet ≤ 1 → ∀ p data, refsDir <+: p → w.2.file? p = some data → LeadsInto edges contents born data
  read : ∀ p data, refsDir <+: p → ⟨.disk (.readFile p), .ok data⟩ ∈ past → LeadsInto edges contents born data
  walked : ∀ paths, ⟨.disk (.walk refsDir), .ok paths⟩ ∈ past → ∀ p ∈ paths, refsDir <+: p
  shown : ∀ (o : DiskOp) (r : Except Err o.Val), ⟨.disk o, r⟩ ∈ past → Shows born o r
  loose : ∀ name obj, Stored (looseKey sessionID name obj) past → (w.1.at? (looseKey sessionID name obj)).isSome

variable {edges contents} {sessionID : GoString} {born : Repo} {w : Store × Repo} {past : Trace Op.Res}

theorem Shows.mono {d d' : Repo} (hg : ∀ p, objectsDir <+: p → d.isFile p → d'.isFile p) {o : DiskOp}
    {r : Except Err o.Val} (h : Shows d' o r) : Shows d o r := by
  have hfalse : ∀ p, objectsDir <+: p → d'.isFile p = false → d.isFile p = false := fun p hp hf =>
    Bool.eq_false_iff.2 fun hd => Bool.false_ne_true (hf ▸ hg p hp hd)
  cases o with
  | readDir =>
    cases r with
    | ok => exact fun c rest hp hf => h c rest hp (hg _ hp hf)
    | error => exact fun he c rest hp => hfalse _ hp (h he c rest hp)
  | readFile =>
    cases r with
    | ok => trivial
    | error => exact fun he hp => hfalse _ hp (h he hp)
  | _ => trivial

theorem Seen.uploaded (h : Seen edges contents sessionID born w past) {old m : Manifest}
    (hc : Collected sessionID old m past) {id : GoString} (hid : OnDisk contents born id) :
    (w.1.at? (looseKey sessionID (id.take 2) (id.drop 2))).isSome ∨
      ∃ sha, id ∈ contents sha ∧ packEntry sessionID sha ∈ m.packs := by
  obtain ⟨hid, hf | ⟨sha, hm, hp, -⟩⟩ := hid
  · left
    have ho : objectsDir <+: loosePath id := prefix_append _ _
    rcases hc.loose with ⟨e, he, hk⟩ | ⟨_, hentries, hfanouts⟩
    · have hn := h.shown _ _ he hk (id.take 2) [id.drop 2] ho
      exact absurd hf (Bool.eq_false_iff.1 hn)
    have hdir := h.shown _ _ hentries (id.take 2) [id.drop 2] ho hf
    rcases hfanouts _ hdir with hnot | ⟨_, hobjs, hd⟩
    · rw [show decide ([id.drop 2] ≠ []) = true from rfl, hid.isFanout] at hnot
      cases hnot
    have hobj := h.shown _ _ hobjs (id.drop 2) [] ho hf
    rcases hd _ hobj with hi | ⟨e, he, hk⟩ | hs
    · cases hi
    · exact absurd hf (Bool.eq_false_iff.1 (h.shown _ _ he hk ho))
    · exact h.loose _ _ hs
  · right
    refine ⟨sha, hm, ?_⟩
    have ho : objectsDir <+: packDir ++ [packFile sha] := ⟨[ofString "pack", packFile sha], rfl⟩
    rcases hc.packs with ⟨⟨e, he, hk⟩, -⟩ | ⟨entries, hentries, hpacks, -⟩
    · have hn := h.shown _ _ he hk (packFile sha) [] ho
      exact absurd hp (Bool.eq_false_iff.1 hn)
    · have hentry : (packFile sha, false) ∈ entries := h.shown _ _ hentries (packFile sha) [] ho hp
      obtain ⟨lp, hlp, hsha, -⟩ := localPack_of_file (.inl hentry)
      exact (hpacks _).2 ⟨lp, hlp, by rw [hsha]⟩

theorem OnDisk.mono {d d' : Repo} (hg : ∀ p, objectsDir <+: p → d.isFile p → d'.isFile p) {id : GoString}
    (h : OnDisk contents d id) : OnDisk contents d' id := by
  obtain ⟨hid, hf | ⟨sha, hm, hp, hi⟩⟩ := h
  · exact ⟨hid, .inl (hg _ (prefix_append _ _) hf)⟩
  · have ho : ∀ fn, objectsDir <+: packDir ++ [fn] := fun fn => ⟨[ofString "pack", fn], rfl⟩
    exact ⟨hid, .inr ⟨sha, hm, hg _ (ho _) hp, hg _ (ho _) hi⟩⟩

theorem Seen.move (h : Seen edges contents sessionID born w past) {w' : Store × Repo}
    (hg : ∀ p, objectsDir <+: p → w.2.isFile p → w'.2.isFile p)
    (hsettled : past.countP isGet ≤ 1 → ∀ p data, refsDir <+: p → w'.2.file? p = some data →
      w.2.file? p = some data ∨ LeadsInto edges contents born data)
    (hl : ∀ name obj, (w.1.at? (looseKey sessionID name obj)).isSome → (w'.1.at? (looseKey sessionID name obj)).isSome) :
    Seen edges contents sessionID born w' past where
  grown := fun p hp hf => hg p hp (h.grown p hp hf)
  settled := fun hc p data hp hf => (hsettled hc p data hp hf).elim (h.settled hc p data hp) id
  read := h.read
  walked := h.walked
  shown := h.shown
  loose := fun name obj hs => hl name obj (h.loose name obj hs)

theorem Seen.snoc (h : Seen edges contents sessionID born w past) {o : Op} {r : o.Res} (hr : SyncRule sessionID past o)
    (hd : ∀ (o' : DiskOp) (r' : Except Err o'.Val), (⟨o, r⟩ : Σ o, Op.Res o) = ⟨.disk o', r'⟩ → Shows w.2 o' r' ∧ Tells w.2 o' r')
    (hs : ∀ key, Stored key [⟨o, r⟩] → (w.1.at? key).isSome) :
    Seen edges contents sessionID born w (past ++ [⟨o, r⟩]) where
  grown := h.grown
  settled := fun hc => h.settled (by
    rw [countP_append] at hc
    omega)
  read := by
    intro p data hp hm
    rcases mem_append.1 hm with hm | hm
    · exact h.read p data hp hm
    · cases mem_singleton.1 hm
      exact h.settled (Nat.le_of_eq hr) p data hp (hd _ _ rfl).2
  walked := by
    intro paths hm
    rcases mem_append.1 hm with hm | hm
    · exact h.walked paths hm
    · cases mem_singleton.1 hm
      exact (hd _ _ rfl).2
  shown := by
    intro o' r' hm
    rcases mem_append.1 hm with hm | hm
    · exact h.shown o' r' hm
    · exact (hd o' r' (mem_singleton.1 hm).symm).1.mono h.grown
  loose := fun name obj hst => (stored_snoc hst).elim (h.loose name obj) (hs _)

/-- **What holds in every state**, of the store, the refs and the syncs. -/
structure BesideOk (edges contents : GoString → List GoString) (sessionID : GoString)
    (s : State (Store × Repo) Op.Res (Except Err Unit)) : Prop where
  stored : StoredOk sessionID (s.map Prod.fst)
  closed : ∀ p data, refsDir <+: p → s.world.2.file? p = some data → LeadsInto edges contents s.world.2 data
  seen : ∀ t ∈ s.threads, Seen edges contents sessionID t.born.2 s.world t.past

theorem loose_kept {s s' : Store} {ts : List SyncThread} (hI : SyncsOk sessionID ⟨s, ts⟩) {t : SyncThread} (ht : t ∈ ts)
    {o : Op} {r : o.Res} (hr : SyncRule sessionID t.past o) (hd : answers o s r s') (name obj : GoString)
    (h : (s.at? (looseKey sessionID name obj)).isSome) : (s'.at? (looseKey sessionID name obj)).isSome := by
  cases call_syncEffect (hI.ahead_ne ht) hr hd with
  | quiet _ _ hk =>
    refine hk _ h fun hm => ?_
    obtain ⟨_, hs⟩ := hI.ahead _ ⟨t, ht, hm⟩
    exact ne_looseKey_of_mem_keys hs rfl
  | wrote m _ _ _ _ _ _ _ _ _ _ _ _ _ ha =>
    rw [ha]
    exact s.write_isSome _ _ _ h

def SavesUploaded (edges contents : GoString → List GoString) (sessionID : GoString)
    (e : Event (Store × Repo) Op.Res (Except Err Unit)) : Prop :=
  ∀ saved ∈ savedManifest (e.map Prod.fst), RefsUploaded edges contents sessionID saved.1 saved.2.coerced

theorem Seen.refsUploaded (hsession : Valid sessionID) (h : Seen edges contents sessionID born w past) {old m : Manifest}
    (hc : Collected sessionID old m past) (hwell : WellPacked sessionID m) {s' : Store}
    (hk : ∀ key, (w.1.at? key).isSome → (s'.at? key).isSome)
    (hpacks : ∀ p ∈ m.coerced.packs, (s'.at? p.packKey).isSome ∧ (s'.at? p.idxKey).isSome) :
    RefsUploaded edges contents sessionID s' m.coerced := by
  intro r hr id hreach
  obtain ⟨⟨name, value⟩, hm, rfl⟩ := mem_coerceRefs hr
  obtain ⟨paths, p, data, hw, hp, hread, -, rfl⟩ := hc.refs name value (AList.mem_lookup_iff.2 hm)
  have hl := h.read p data (h.walked paths hw p hp) hread
  -- the value is an id, which JSON keeps
  have hv : coerce (trimSpace data) = trimSpace data := (hl _ Relation.ReflTransGen.refl).1.valid
  rw [hv] at hreach
  rcases h.uploaded hc (hl id hreach) with hloose | ⟨sha, hs, hlisted⟩
  · exact .inl (hk _ hloose)
  have hl' : packEntry sessionID sha ∈ m.coerced.packs := by
    rw [hwell.coerced_packs hsession]
    exact hlisted
  exact .inr ⟨_, hl', hs, hpacks _ hl'⟩

theorem BesideOk.step (hsession : Valid sessionID) {s s' : State (Store × Repo) Op.Res (Except Err Unit)}
    {e : Event (Store × Repo) Op.Res (Except Err Unit)} (hI : BesideOk edges contents sessionID s)
    (hg : (Orderly sessionID (e.map Prod.fst) ∧ CompletePacks (e.map Prod.fst)) ∧ Settled edges contents e)
    (hstep : Step (syncsBeside edges contents sessionID) s e s') :
    BesideOk edges contents sessionID s' ∧ SavesUploaded edges contents sessionID e := by
  obtain ⟨hstored, hsaves⟩ := hI.stored.step hsession hg.1 (hstep.map _ (syncsBeside_projects edges contents sessionID))
  cases hstep with
  | @call w w' pre post t o k r hr hd =>
    have ht : t ∈ pre ++ t :: post := by simp
    have ht' : t.map Prod.fst ∈ (pre ++ t :: post).map (Thread.map Prod.fst) := mem_map_of_mem ht
    have hdoes' : answers o w.1 r w'.1 := (syncsBeside_projects edges contents sessionID).does hd
    have hdisk : w'.2 = w.2 := by
      cases o with
      | store => exact hd.2
      | disk => exact congrArg Prod.snd hd.1
    have hrule := hI.stored.syncs.obeys _ ht'
    rw [show (t.map Prod.fst).rest = .op o k from hr] at hrule
    have hmove : ∀ u ∈ pre ++ t :: post, Seen edges contents sessionID u.born.2 w' u.past := by
      refine fun u hu => (hI.seen u hu).move (fun p _ hf => hdisk ▸ hf) (fun _ p _ _ hf => .inl (hdisk ▸ hf)) ?_
      exact fun name obj => loose_kept hI.stored.syncs ht' hrule.1 hdoes' name obj
    refine ⟨⟨hstored, ?_, fun u hu => ?_⟩, fun saved hs => ?_⟩
    · simp only [hdisk]
      exact hI.closed
    · rcases mem_replaced hu with hu | rfl
      · exact hmove u hu
      refine (hmove t ht).snoc hrule.1 (fun _ _ heq => ?_) fun _ => stored_present hdoes'
      cases heq
      rw [hdisk]
      exact hd.2
    · have hpacks := (hsaves saved hs).1
      cases call_syncEffect (hI.stored.syncs.ahead_ne ht') hrule.1 hdoes' with
      | quiet _ _ _ hunsaved =>
        rw [Event.map, savedManifest, hunsaved] at hs
        cases hs
      | wrote m token _ _ _ _ he _ _ _ _ _ _ hc ha =>
        cases he
        cases hs
        obtain ⟨_, hm', hw⟩ := hstored.syncs.wellPacked ⟨.json m, w.1.next, token⟩ (by
          simp only [State.map, ha]
          exact Store.write_at?_self ..)
        cases hm'
        refine (hI.seen t ht).refsUploaded hsession hc hw (fun _ hk => ?_) hpacks
        rw [ha]
        exact w.1.write_isSome _ _ _ hk
  | @env w _ _ hm =>
    refine ⟨⟨hstored, fun p data hp hf => ?_, fun u hu => ?_⟩, fun _ hs => ?_⟩
    · have hleads : LeadsInto edges contents w.2 data := (hm.2.2 p data hp hf).elim (hI.closed p data hp) id
      exact fun id hid => (hleads id hid).mono hm.2.1
    · refine (hI.seen u hu).move hm.2.1 (fun hcount p data hp hf => hg.2 u hu hcount p data hp hf) ?_
      intro name obj hk
      rw [hm.1.1 _ (looseKey_eq sessionID name obj ▸ prefix_append _ _)]
      exact hk
    · cases hs
  | @start w _ p _ =>
    refine ⟨⟨hstored, hI.closed, fun u hu => ?_⟩, fun _ hs => ?_⟩
    · rcases mem_append.1 hu with hu | hu
      · exact hI.seen u hu
      cases mem_singleton.1 hu
      refine ⟨fun _ _ h => h, fun _ => hI.closed, fun p _ _ hmem => ?_, fun _ hmem => ?_, fun o r hmem => ?_, ?_⟩
      · cases hmem
      · cases hmem
      · cases hmem
      · rintro _ _ ⟨_, _, _, hmem, -⟩
        cases hmem
    · cases hs

end

/-- **In every run of syncs beside pushes with settled refs, complete packs and orderly steps, every ref of a saved manifest
leads to uploaded objects only.** -/
theorem refs_uploaded (edges contents : GoString → List GoString) {sessionID : GoString} (hsession : Valid sessionID)
    {s s' : State (Store × Repo) Op.Res (Except Err Unit)} {es : List (Event (Store × Repo) Op.Res (Except Err Unit))}
    (hnone : s.world.1.at? (manifestKey sessionID) = none) (hidle : s.threads = [])
    (hclosed : ∀ p data, refsDir <+: p → s.world.2.file? p = some data → LeadsInto edges contents s.world.2 data)
    (hrun : Run (syncsBeside edges contents sessionID) s es s')
    (hgood : ∀ e ∈ es, (Orderly sessionID (e.map Prod.fst) ∧ CompletePacks (e.map Prod.fst)) ∧ Settled edges contents e) :
    ∀ e ∈ es, SavesUploaded edges contents sessionID e := by
  have hI : BesideOk edges contents sessionID s := by
    refine ⟨storedOk_idle hnone (by rw [State.map, hidle]; rfl), hclosed, fun t ht => ?_⟩
    rw [hidle] at ht
    cases ht
  exact (hrun.invariant (BesideOk.step hsession) hI hgood).2

/-! ## A push between the two steps -/

def diskErr : FileErr → Err
  | .notExist => ⟨.notExist, ofString "file does not exist"⟩
  | .notDir => ⟨.other, ofString "not a directory"⟩
  | .isDir => ⟨.other, ofString "is a directory"⟩

def readRepo (d : Repo) : (o : DiskOp) → Except Err o.Val
  | .readDir p => (d.readDir p).mapError diskErr
  | .readFile p => (d.readFile p).mapError diskErr
  | .walk p => (d.walk p).mapError diskErr
  | o => noFiles o

theorem readRepo_shows (d : Repo) (o : DiskOp) : Shows d o (readRepo d o) := by
  cases o with
  | readDir =>
    simp only [readRepo, readDir]
    split
    · intro c _ _ hf
      obtain ⟨_, hd⟩ := Option.isSome_iff_exists.1 hf
      exact mem_children_of_file hd
    rename_i hdir
    split
    · intro hk
      cases hk
    · exact fun _ c _ _ => not_isFile_of_not_isDir (Bool.not_eq_true _ ▸ hdir)
  | readFile p =>
    simp only [readRepo, readFile]
    cases hf : d.file? p with
    | some => trivial
    | none =>
      simp only
      split
      · intro hk
        cases hk
      · intro _ _
        rw [isFile, hf]
        rfl
  | _ => trivial

theorem readRepo_tells (d : Repo) (o : DiskOp) : Tells d o (readRepo d o) := by
  cases o with
  | readFile p =>
    simp only [readRepo, readFile]
    cases hf : d.file? p with
    | some => exact hf
    | none =>
      simp only
      split <;> trivial
  | walk p =>
    cases hw : d.walk p with
    | ok =>
      simp only [readRepo, hw]
      exact fun q hq => ((mem_of_walk hw).1 hq).1
    | error =>
      simp only [readRepo, hw]
      trivial
  | _ => trivial

def besideAnswer : (o : Op) → Store × Repo → o.Res × (Store × Repo)
  | .store o, w => ((w.1.answer o).1, ((w.1.answer o).2, w.2))
  | .disk o, w => (readRepo w.2 o, w)

def loneId : GoString := List.replicate 40 (.rune '1')

def treeId : GoString := List.replicate 40 (.rune '2')

/-- The commit has a tree. -/
def treeOf (id : GoString) : List GoString := if id = loneId then [treeId] else []

def noPacked : GoString → List GoString := fun _ => []

def loneRef : FilePath := [ofString "refs", ofString "heads", ofString "a"]

def addCommit (w : Store × Repo) : Store × Repo :=
  (w.1, { w.2 with files := (w.2.files.insert (loosePath treeId) (ofString "t")).insert (loosePath loneId) (ofString "x") })

def hasCommit (d : Repo) : Bool := d.isFile (loosePath loneId) && d.isFile (loosePath treeId)

def setRef (w : Store × Repo) : Store × Repo :=
  if hasCommit w.2 then (w.1, { w.2 with files := w.2.files.insert loneRef (loneId ++ ofString "\n") }) else w

theorem isFile_insert {files : AList fun _ : FilePath => GoString} {dirs : List FilePath} {p q : FilePath} {data : GoString}
    (h : isFile ⟨files, dirs⟩ p) : isFile ⟨files.insert q data, dirs⟩ p := by
  by_cases hp : p = q
  · subst hp
    simp [isFile, file?]
  · rw [isFile, file?, AList.lookup_insert_ne hp]
    exact h

theorem leadsInto_lone {d : Repo} (h : hasCommit d = true) : LeadsInto treeOf noPacked d (loneId ++ ofString "\n") := by
  obtain ⟨hc, ht⟩ := Bool.and_eq_true_iff.1 h
  intro id hr
  have hid : id = loneId ∨ id = treeId := by
    induction hr with
    | refl => exact .inl (by decide)
    | tail _ he ih =>
      rcases ih with rfl | rfl
      · exact .inr (mem_singleton.1 he)
      · cases he
  rcases hid with rfl | rfl
  · exact ⟨by decide, .inl hc⟩
  · exact ⟨by decide, .inl ht⟩

theorem addCommit_pushed (w : Store × Repo) : Pushed treeOf noPacked w.2 (addCommit w).2 := by
  refine ⟨fun p _ hf => isFile_insert (isFile_insert hf), fun p _ hp hf => .inl ?_⟩
  have hne : ∀ id, p ≠ loosePath id := by
    rintro id rfl
    have hne : ofString "refs" ≠ ofString "objects" := by decide
    simp [loosePath, refsDir, objectsDir, hne] at hp
  rw [addCommit, file?, AList.lookup_insert_ne (hne _), AList.lookup_insert_ne (hne _)] at hf
  exact hf

theorem setRef_pushed (w : Store × Repo) : Pushed treeOf noPacked w.2 (setRef w).2 := by
  unfold setRef
  split
  · rename_i hc
    refine ⟨fun p _ hf => isFile_insert hf, fun p _ _ hf => ?_⟩
    by_cases hp : p = loneRef
    · subst hp
      rw [file?, AList.lookup_insert] at hf
      cases hf
      exact .inr (leadsInto_lone hc)
    · rw [file?, AList.lookup_insert_ne hp] at hf
      exact .inl hf
  · exact ⟨fun _ _ h => h, fun _ _ _ h => .inl h⟩

inductive Turn where
  | sync | call | commit | ref

def Turn.choice : Turn → Choice (Store × Repo) Op.Res (Except Err Unit)
  | .sync => .start (syncAndDelete inOrder jam 1)
  | .call => .call 0 besideAnswer
  | .commit => .env addCommit
  | .ref => .env setRef

theorem turns_legal (turns : List Turn) (s : State (Store × Repo) Op.Res (Except Err Unit)) :
    Legal (syncsBeside treeOf noPacked jam) (turns.map Turn.choice) s := by
  refine legal_of_forall (fun c hc s => ?_) s
  obtain ⟨turn, -, rfl⟩ := mem_map.1 hc
  cases turn with
  | sync => exact ⟨inOrder, 1, rfl⟩
  | call =>
    intro o
    cases o with
    | store => exact ⟨.inl rfl, rfl⟩
    | disk o => exact ⟨rfl, readRepo_shows _ o, readRepo_tells _ o⟩
  | commit => exact ⟨⟨fun _ _ => rfl, le_rfl⟩, addCommit_pushed s.world⟩
  | ref =>
    have hs : (setRef s.world).1 = s.world.1 := by
      unfold setRef
      split <;> rfl
    refine ⟨?_, setRef_pushed s.world⟩
    rw [hs]
    exact ⟨fun _ _ => rfl, le_rfl⟩

def bareRepo : Repo := ⟨∅, [objectsDir, refsDir]⟩

def played (turns : List Turn) := play (turns.map Turn.choice) ⟨(emptyStore, bareRepo), []⟩

/-- A ref moves to the commit only, and each sync began with the commit there. -/
def refsToCommit : Event (Store × Repo) Op.Res (Except Err Unit) → Bool
  | .env before after => before.threads.all fun t => hasCommit t.born.2 ∧ ∀ f ∈ after.2.files.entries,
      refsDir <+: f.1 → before.world.2.file? f.1 = some f.2 ∨ f.2 = loneId ++ ofString "\n"
  | _ => true

theorem settled_of_refsToCommit {e : Event (Store × Repo) Op.Res (Except Err Unit)} (h : refsToCommit e = true) :
    Settled treeOf noPacked e := by
  cases e with
  | env =>
    intro t ht _ p data hp hf
    obtain ⟨hborn, hrefs⟩ := of_decide_eq_true (all_eq_true.1 h t ht)
    refine (hrefs ⟨p, data⟩ (AList.mem_lookup_iff.1 hf) hp).imp_right ?_
    rintro rfl
    exact leadsInto_lone hborn
  | call | start => trivial

/-- The ref is set while the sync reads, to a commit that was there when it began. -/
def refDuring : List Turn := .commit :: .sync :: List.replicate 3 .call ++ .ref :: List.replicate 11 .call

theorem refs_uploaded_refDuring :
    (∃ e ∈ (played refDuring).1, ∃ saved ∈ savedManifest (e.map Prod.fst), saved.2.coerced.refs.entries ≠ []) ∧
      ∀ e ∈ (played refDuring).1, SavesUploaded treeOf noPacked jam e := by
  refine ⟨by decide, refs_uploaded treeOf noPacked (by decide) rfl rfl (fun p _ _ hf => ?_)
    (play_run (turns_legal refDuring ⟨(emptyStore, bareRepo), []⟩)) fun e _ => ⟨?_, settled_of_refsToCommit ?_⟩⟩
  · cases hf
  · revert e
    decide
  · revert e
    decide

def pushBetween : List Turn := .sync :: List.replicate 2 .call ++ .commit :: .ref :: List.replicate 6 .call

/-- **A push that lands between the upload and the reading of the refs**: the manifest has its ref, and the store has not its
commit. -/
theorem ref_without_object : ∃ es s', Run (syncsBeside treeOf noPacked jam) ⟨(emptyStore, bareRepo), []⟩ es s' ∧
    ∃ e ∈ es, ∃ saved ∈ savedManifest (e.map Prod.fst), ∃ r ∈ saved.2.coerced.refs.entries,
      ¬ Uploaded noPacked jam saved.1 saved.2.coerced r.2 := by
  refine ⟨_, _, play_run (turns_legal pushBetween ⟨(emptyStore, bareRepo), []⟩), ?_⟩
  have hm : ∃ e ∈ (played pushBetween).1, ∃ saved ∈ savedManifest (e.map Prod.fst),
      ∃ r ∈ saved.2.coerced.refs.entries, saved.1.at? (looseKey jam (r.2.take 2) (r.2.drop 2)) = none := by
    decide
  obtain ⟨e, he, saved, hs, r, hr, hn⟩ := hm
  refine ⟨e, he, saved, hs, r, hr, ?_⟩
  rintro (hl | ⟨p, -, hp, -⟩)
  · rw [hn] at hl
    cases hl
  · cases hp

end Jamsesh.Objectstore
