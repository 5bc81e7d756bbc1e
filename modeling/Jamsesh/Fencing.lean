import Jamsesh.Manifests
/-!
# Fencing — many writers of one manifest

A write with an ETag is safe: no ETag comes back.  A first write has none, and the store takes it whatever it finds.  So the
token grows and a manifest is created once in exactly the runs in which every first write finds no manifest (`fencing_iff`).
-/
namespace Jamsesh.Objectstore

open List Prog

def discard {α : Type} (p : Act α) : Prog Op.Res (Except Err Unit) := (p >>= fun _ => pure () : Act Unit)

/-- **The writers of a session**: any number of loads and saves, each save with no ETag or with one that has been issued;
the rest of the store moves as it likes. -/
def writers (sessionID : GoString) : System Store Op.Res (Except Err Unit) where
  does := answers
  env := fun s s' => s'.at? (manifestKey sessionID) = s.at? (manifestKey sessionID) ∧ s.next ≤ s'.next
  starts := fun s p => p = discard (load sessionID) ∨ ∃ m ifMatch, m.sessionID = sessionID ∧
    (∀ etag, ifMatch = some etag → etag < s.next) ∧ p = discard (save m ifMatch)

def Object.fencingToken (x : Object) : Int :=
  match x.data with
  | .json m => m.fencingToken
  | .bytes _ => 0

abbrev WriterEvent := Event Store Op.Res (Except Err Unit)

def isCreate (sessionID : GoString) : WriterEvent → Bool
  | .call _ _ (.store (.put key _ _ none)) (.ok _) _ => key = manifestKey sessionID
  | _ => false

def KeepsToken (sessionID : GoString) : WriterEvent → Prop
  | .call before _ _ _ after => ∀ x, before.world.at? (manifestKey sessionID) = some x →
      ∃ y, after.at? (manifestKey sessionID) = some y ∧ x.fencingToken ≤ y.fencingToken
  | _ => True

def FindsNone (sessionID : GoString) : WriterEvent → Prop
  | .call before _ _ _ _ => before.world.at? (manifestKey sessionID) = none
  | _ => True

/-! ## One writer -/

/-- What a writer does: it reads the manifest, and it writes it with its ETag after a read that passed the checks. -/
def WriterRule (sessionID : GoString) (ifMatch : Option Nat) (past : Trace Op.Res) : Op → Prop
  | .store (.get key) => key = manifestKey sessionID
  | .store (.put key data token given) => key = manifestKey sessionID ∧ given = ifMatch ∧ ∃ m, data = .json m ∧
      token = m.fencingToken ∧ ∃ e ∈ past, ∃ onDisk, Loaded sessionID e onDisk ∧ onDisk.1.fencingToken ≤ m.fencingToken
  | _ => False

variable {sessionID : GoString} {s s' : Store} {t : Thread Store Op.Res (Except Err Unit)} {e : WriterEvent}

theorem writer_obeys {p : Prog Op.Res (Except Err Unit)} (h : (writers sessionID).starts s p) :
    ∃ ifMatch, (∀ etag, ifMatch = some etag → etag < s.next) ∧ Obeys (WriterRule sessionID ifMatch) (fun _ _ => True) [] p := by
  rcases h with rfl | ⟨m, ifMatch, rfl, hi, rfl⟩
  · refine ⟨none, fun etag h => (Option.some_ne_none etag h.symm).elim, ?_⟩
    have hl : Triple (WriterRule sessionID none) (fun _ => True) (load sessionID >>= fun _ => pure ()) (fun _ _ => True) :=
      Triple.bind (load_spec fun _ _ => rfl) fun _ => Triple.pure fun _ _ => trivial
    exact Obeys.mono (fun _ _ _ => trivial) (hl [] trivial)
  · refine ⟨ifMatch, hi, ?_⟩
    have hs : Triple (WriterRule m.sessionID ifMatch) (fun _ => True) (save m ifMatch >>= fun _ => pure ()) (fun _ _ => True) :=
      Triple.bind (Q := fun _ _ => True) (save_spec (fun _ _ => rfl) fun _ e onDisk _ _ he ht _ hm' => by
        subst hm'
        exact ⟨⟨rfl, rfl, _, rfl, rfl, e, by simp, onDisk, he, ht⟩, fun _ => trivial⟩)
        fun _ => Triple.pure fun _ _ => trivial
    exact Obeys.mono (fun _ _ _ => trivial) (hs [] trivial)

/-! ## All writers -/

/-- **What holds of a writer at any time**: its ETag has been issued, and if the manifest it was to replace is still there,
that is the one it has read. -/
def WriterOk (sessionID : GoString) (s : Store) (t : Thread Store Op.Res (Except Err Unit)) : Prop :=
  ∃ ifMatch, Obeys (WriterRule sessionID ifMatch) (fun _ _ => True) t.past t.rest ∧
    ∀ etag, ifMatch = some etag → etag < s.next ∧
      ∀ x, s.at? (manifestKey sessionID) = some x → x.etag = etag →
        ∀ e ∈ t.past, ∀ onDisk, Loaded sessionID e onDisk → onDisk.1.fencingToken = x.fencingToken

structure WritersOk (sessionID : GoString) (s : State Store Op.Res (Except Err Unit)) : Prop where
  issued : ∀ x, s.world.at? (manifestKey sessionID) = some x → x.etag < s.world.next
  json : ∀ x, s.world.at? (manifestKey sessionID) = some x → ∃ m, x.data = .json m
  writer : ∀ t ∈ s.threads, WriterOk sessionID s.world t

theorem Loaded.token {key : GoString} {r : Except Err (Content × Nat × Int)}
    {onDisk : Manifest × Option Nat} (hdoes : Store.Does (.get key) s r s')
    (h : Loaded sessionID ⟨.store (.get key), r⟩ onDisk) {x : Object} (hx : s.at? (manifestKey sessionID) = some x) :
    onDisk.1.fencingToken = x.fencingToken := by
  rcases h.saw hdoes with ⟨y, m, hy, hd, rfl⟩ | ⟨hn, -⟩
  · rw [hx] at hy
    cases hy
    rw [Object.fencingToken, hd]
    rfl
  · rw [hx] at hn
    cases hn

theorem WriterOk.quiet (hs : s'.at? (manifestKey sessionID) = s.at? (manifestKey sessionID)) (hn : s.next ≤ s'.next)
    (h : WriterOk sessionID s t) : WriterOk sessionID s' t := by
  obtain ⟨ifMatch, ho, hetag⟩ := h
  refine ⟨ifMatch, ho, fun etag he => ⟨Nat.lt_of_lt_of_le (hetag etag he).1 hn, fun x hx => ?_⟩⟩
  rw [hs] at hx
  exact (hetag etag he).2 x hx

theorem WriterOk.written {y : Object}
    (hat : s'.at? (manifestKey sessionID) = some y) (hy : y.etag = s.next) (hn : s.next ≤ s'.next)
    (h : WriterOk sessionID s t) : WriterOk sessionID s' t := by
  obtain ⟨ifMatch, ho, hetag⟩ := h
  refine ⟨ifMatch, ho, fun etag he => ⟨Nat.lt_of_lt_of_le (hetag etag he).1 hn, fun x hx _ => ?_⟩⟩
  rw [hat] at hx
  cases hx
  have := (hetag etag he).1
  omega

/-- **What a step does to the manifest**: nothing, or it writes one, as the first or over one with at most its token. -/
inductive Effect (sessionID : GoString) (s s' : Store) (e : WriterEvent) : Prop where
  | quiet (same : s'.at? (manifestKey sessionID) = s.at? (manifestKey sessionID)) (next : s.next ≤ s'.next)
      (later : isCreate sessionID e = false)
  | created (m : Manifest) (token : Int) (at' : s'.at? (manifestKey sessionID) = some ⟨.json m, s.next, token⟩)
      (next : s'.next = s.next + 1) (first : isCreate sessionID e = true)
  | replaced (m : Manifest) (token : Int) (x : Object) (found : s.at? (manifestKey sessionID) = some x)
      (le : x.fencingToken ≤ m.fencingToken) (at' : s'.at? (manifestKey sessionID) = some ⟨.json m, s.next, token⟩)
      (next : s'.next = s.next + 1) (later : isCreate sessionID e = false)

theorem Effect.writersOk (h : Effect sessionID s s' e)
    {ts : List (Thread Store Op.Res (Except Err Unit))} (hI : WritersOk sessionID ⟨s, ts⟩) : WritersOk sessionID ⟨s', ts⟩ := by
  have hw : ∀ m token, s'.at? (manifestKey sessionID) = some ⟨.json m, s.next, token⟩ → s'.next = s.next + 1 →
      WritersOk sessionID ⟨s', ts⟩ := by
    intro m _ hat hn
    refine ⟨fun x hx => ?_, fun x hx => ?_, fun t ht => (hI.writer t ht).written hat rfl (hn ▸ Nat.le_succ s.next)⟩
    · rw [hat] at hx
      cases hx
      simp only
      omega
    · rw [hat] at hx
      cases hx
      exact ⟨m, rfl⟩
  cases h with
  | quiet hs hn =>
    refine ⟨fun x hx => ?_, fun x hx => ?_, fun t ht => (hI.writer t ht).quiet hs hn⟩
    · rw [hs] at hx
      exact Nat.lt_of_lt_of_le (hI.issued x hx) hn
    · rw [hs] at hx
      exact hI.json x hx
  | created m token hat hn | replaced m token x _ _ hat hn => exact hw m token hat hn

theorem call_effect (ts : List (Thread Store Op.Res (Except Err Unit)))
    {o : Op} {k : o.Res → Prog Op.Res (Except Err Unit)} {r : o.Res}
    (hj : ∀ x, s.at? (manifestKey sessionID) = some x → ∃ m, x.data = .json m)
    (ht : WriterOk sessionID s t) (hrest : t.rest = .op o k) (hd : answers o s r s') :
    Effect sessionID s s' (.call ⟨s, ts⟩ t o r s') ∧ WriterOk sessionID s' ⟨t.born, t.past ++ [⟨o, r⟩], k r⟩ := by
  obtain ⟨ifMatch, ho, hetag⟩ := ht
  rw [hrest] at ho
  obtain ⟨hr, ho⟩ := ho
  cases o with
  | disk => cases hr
  | store o =>
    cases o with
    | get key =>
      have hdoes' : Store.Does (.get key) s r s' := hd
      obtain ⟨rfl, -⟩ := hdoes'.get
      refine ⟨.quiet rfl le_rfl rfl, ifMatch, ho r, fun etag he => ⟨(hetag etag he).1, fun x hx hxe e hmem onDisk hl => ?_⟩⟩
      rcases mem_append.1 hmem with hmem | hmem
      · exact (hetag etag he).2 x hx hxe e hmem onDisk hl
      · cases mem_singleton.1 hmem
        exact hl.token hdoes' hx
    | put _ _ _ given =>
      obtain ⟨rfl, rfl, m, rfl, rfl, e, he, onDisk, hloaded, htoken⟩ := hr
      have hdoes' : Store.Does (.put (manifestKey sessionID) (.json m) m.fencingToken given) s r s' := hd
      -- a write is no read of the manifest
      have hpast : ∀ e' ∈ t.past ++ [⟨.store (.put (manifestKey sessionID) (.json m) m.fencingToken given), r⟩],
          ∀ d, Loaded sessionID e' d → e' ∈ t.past := by
        intro _ hmem d hl
        rcases mem_append.1 hmem with hmem | hmem
        · exact hmem
        · cases mem_singleton.1 hmem
          cases hl
      rcases hdoes'.put with ⟨rfl, rfl, hm⟩ | ⟨_, rfl, rfl⟩
      · cases given with
        | none =>
          refine ⟨.created m _ (Store.write_at?_self ..) rfl (by simp [isCreate]), none, ho _, ?_⟩
          intro _ hn
          cases hn
        | some etag =>
          obtain ⟨x, hx, rfl⟩ := Option.map_eq_some_iff.1 (hm.resolve_left (Option.some_ne_none etag)).symm
          have hseen := (hetag x.etag rfl).2 x hx rfl e he onDisk hloaded
          refine ⟨.replaced m _ x hx (hseen ▸ htoken) (Store.write_at?_self ..) rfl rfl, some x.etag, ho _, ?_⟩
          intro etag hs
          cases hs
          have hlt := (hetag x.etag rfl).1
          refine ⟨Nat.lt_succ_of_lt hlt, fun y hy hye => ?_⟩
          rw [Store.write_at?_self] at hy
          cases hy
          exact absurd hye (Nat.ne_of_gt hlt)
      · refine ⟨.quiet rfl le_rfl ?_, given, ho _, fun etag hg => ⟨(hetag etag hg).1, fun x hx hxe e' hmem d hl => ?_⟩⟩
        · cases given <;> rfl
        · exact (hetag etag hg).2 x hx hxe e' (hpast e' hmem d hl) d hl
    | putIdempotent | delete | list => cases hr

variable {s s' : State Store Op.Res (Except Err Unit)}

theorem step_effect
    (hI : WritersOk sessionID s) (hstep : Step (writers sessionID) s e s') :
    Effect sessionID s.world s'.world e ∧ WritersOk sessionID s' := by
  cases hstep with
  | @call w _ pre post t o k r hr hd =>
    obtain ⟨heffect, hn⟩ := call_effect (pre ++ t :: post) hI.json (hI.writer t (by simp)) hr hd
    refine ⟨heffect, ?_⟩
    have hk := heffect.writersOk hI
    refine ⟨hk.issued, hk.json, fun u hu => ?_⟩
    rcases mem_append.1 hu with hu | hu
    · exact hk.writer u (mem_append_left _ hu)
    · rcases mem_cons.1 hu with rfl | hu
      · exact hn
      · exact hk.writer u (mem_append_right _ (mem_cons_of_mem _ hu))
  | @env w w' ts hm =>
    have heffect : Effect sessionID w w' (.env ⟨w, ts⟩ w') := .quiet hm.1 hm.2 rfl
    exact ⟨heffect, heffect.writersOk hI⟩
  | start hs =>
    refine ⟨.quiet rfl le_rfl rfl, hI.issued, hI.json, fun u hu => ?_⟩
    rcases mem_append.1 hu with hu | hu
    · exact hI.writer u hu
    · rw [mem_singleton.1 hu]
      obtain ⟨ifMatch, hi, ho⟩ := writer_obeys hs
      exact ⟨ifMatch, ho, fun etag he => ⟨hi etag he, fun x _ _ e he' => absurd he' not_mem_nil⟩⟩

theorem manifest_iff_create {es : List WriterEvent}
    (hn : s.world.at? (manifestKey sessionID) = none) (hidle : s.threads = []) (hr : Run (writers sessionID) s es s') :
    WritersOk sessionID s' ∧ ((s'.world.at? (manifestKey sessionID)).isSome ↔ 0 < es.countP (isCreate sessionID)) := by
  induction hr with
  | nil =>
    refine ⟨⟨fun x hx => ?_, fun x hx => ?_, fun t ht => ?_⟩, by simp [hn]⟩
    · rw [hn] at hx
      cases hx
    · rw [hn] at hx
      cases hx
    · rw [hidle] at ht
      cases ht
  | snoc _ hs ih =>
    obtain ⟨hI, hi⟩ := ih
    obtain ⟨he, hI'⟩ := step_effect hI hs
    refine ⟨hI', ?_⟩
    rw [countP_append, countP_singleton]
    cases he with
    | quiet hsame _ hl => rw [hsame, hi, hl]; rfl
    | created m _ hat _ hf => simp [hat, hf]
    | replaced m _ x hfound _ hat _ hl =>
      have hp := hi.1 (by simp [hfound])
      simp [hat, hl, hp]

theorem keepsToken_of_effect
    (hstep : Step (writers sessionID) s e s') (he : Effect sessionID s.world s'.world e)
    (hfirst : isCreate sessionID e = true → s.world.at? (manifestKey sessionID) = none) : KeepsToken sessionID e := by
  cases hstep with
  | call =>
    intro x hx
    cases he with
    | quiet hs => exact ⟨x, hs.trans hx, Int.le_refl _⟩
    | created m _ _ _ hc =>
      have hn := hfirst hc
      rw [hx] at hn
      cases hn
    | replaced m _ y hf hle hat =>
      rw [hx] at hf
      cases hf
      exact ⟨_, hat, hle⟩
  | env | start => trivial

theorem findsNone_iff
    (hs : Step (writers sessionID) s e s') (hc : isCreate sessionID e = true) :
    FindsNone sessionID e ↔ s.world.at? (manifestKey sessionID) = none := by
  cases hs with
  | call => rfl
  | env | start => cases hc

/-- **The token never decreases and at most one first write succeeds in exactly the runs in which every first write finds no
manifest.** -/
theorem fencing_iff (sessionID : GoString) {es : List WriterEvent}
    (hnone : s.world.at? (manifestKey sessionID) = none) (hidle : s.threads = []) (hrun : Run (writers sessionID) s es s') :
    ((∀ e ∈ es, KeepsToken sessionID e) ∧ es.countP (isCreate sessionID) ≤ 1) ↔
      ∀ e ∈ es, isCreate sessionID e = true → FindsNone sessionID e := by
  induction hrun with
  | nil => simp
  | @snoc s₁ _ es e hrun hs ih =>
    obtain ⟨hI, hm⟩ := manifest_iff_create hnone hidle hrun
    obtain ⟨he, -⟩ := step_effect hI hs
    rw [forall_mem_append, forall_mem_append, forall_mem_singleton, forall_mem_singleton,
      countP_append, countP_singleton, ← ih]
    constructor
    · rintro ⟨⟨hk, -⟩, hcount⟩
      refine ⟨⟨hk, by omega⟩, fun hc => (findsNone_iff hs hc).2 ?_⟩
      -- with a manifest there, this would be the second first write
      rw [if_pos hc] at hcount
      have hz : ¬ 0 < es.countP (isCreate sessionID) := by omega
      rw [← hm, Option.not_isSome_iff_eq_none] at hz
      exact hz
    · rintro ⟨⟨hk, hcount⟩, hfirst⟩
      have hf : isCreate sessionID e = true → s₁.world.at? (manifestKey sessionID) = none := fun h =>
        (findsNone_iff hs h).1 (hfirst h)
      refine ⟨⟨hk, keepsToken_of_effect hs he hf⟩, ?_⟩
      split
      · rename_i hc
        have hz : ¬ 0 < es.countP (isCreate sessionID) := by
          rw [← hm, hf hc]
          exact Bool.false_ne_true
        omega
      · exact hcount

/-! ## Two first-time writers -/

def firstManifest (token : Int) : Manifest := ⟨1, jam, [], ∅, [], token⟩

def firstWrites (tokens : List Int) (turns : List Nat) : List (Choice Store Op.Res (Except Err Unit)) :=
  tokens.map (fun token => .start (discard (save (firstManifest token) none))) ++ turns.map (.call · (faultless noFiles))

theorem firstWrites_legal (tokens : List Int) (turns : List Nat) (s : State Store Op.Res (Except Err Unit)) :
    Legal (writers jam) (firstWrites tokens turns) s := by
  refine legal_of_forall (fun c hc s => ?_) s
  rcases mem_append.1 hc with hc | hc
  · obtain ⟨token, -, rfl⟩ := mem_map.1 hc
    refine .inr ⟨firstManifest token, none, rfl, fun _ h => ?_, rfl⟩
    cases h
  · obtain ⟨i, -, rfl⟩ := mem_map.1 hc
    exact fun o => faultless_answers noFiles o s.world

instance (sessionID : GoString) (e : WriterEvent) : Decidable (FindsNone sessionID e) := by
  unfold FindsNone
  split <;> infer_instance

/-- The second writer looks after the first has written. -/
theorem fencing_in_turn : ((play (firstWrites [7, 5] [0, 0, 1]) ⟨emptyStore, []⟩).2.world.at? (manifestKey jam)).map
      (·.fencingToken) = some 7 ∧
    (∀ e ∈ (play (firstWrites [7, 5] [0, 0, 1]) ⟨emptyStore, []⟩).1, KeepsToken jam e) ∧
    (play (firstWrites [7, 5] [0, 0, 1]) ⟨emptyStore, []⟩).1.countP (isCreate jam) ≤ 1 := by
  have hrun := play_run (firstWrites_legal [7, 5] [0, 0, 1] ⟨emptyStore, []⟩)
  exact ⟨by decide, (fencing_iff jam rfl rfl hrun).2 (by decide)⟩

/-- **Two first-time writers that both look before either writes both succeed, and the lower token stays.** -/
theorem two_first_writes : ∃ es s', Run (writers jam) ⟨emptyStore, []⟩ es s' ∧ es.countP (isCreate jam) = 2 ∧
    ¬ ∀ e ∈ es, KeepsToken jam e := by
  refine ⟨_, _, play_run (firstWrites_legal [7, 5] [0, 1, 0, 1] ⟨emptyStore, []⟩), by decide, fun h => ?_⟩
  have hl := h _ (getElem_mem (by decide : 5 < _))
  obtain ⟨y, hy, hle⟩ := hl ⟨.json (firstManifest 7), 0, 7⟩ rfl
  cases hy
  exact absurd hle (by decide)

end Jamsesh.Objectstore
