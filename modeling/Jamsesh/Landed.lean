import Jamsesh.CommandLists
import Jamsesh.ReceivePack
/-!
# Landed — the steps after a push and the refs git moved

An update has landed when its ref on disk is at its new id and that is a commit.  The steps after the subprocess never look at
the refs (`Acts`), so they act for landed updates only exactly when git moved every ref whose update acts (`acts_landed_iff`).
-/
namespace Jamsesh.Githttp

open Git List Prereceive

def Landed (disk : Repo) (u : RefUpdate) : Prop :=
  disk.reference u.ref = .ok (newHash u.newSHA) ∧ (disk.commitObject (newHash u.newSHA)).isSome

def start (disk : Repo) (u : RefUpdate) : Option Hash :=
  (if newHash u.newSHA = Hash.zero then disk.head.toOption else some (newHash u.newSHA)).filter
    (fun h => (disk.commitObject h).isSome)

def Emits (faults : Faults) (disk : Repo) (baseSHA : String) (u : RefUpdate) : Prop :=
  isNoop u baseSHA = false ∧ faults.emitBatch u = none ∧ ∃ h, start disk u = some h ∧ h ∉ stops u baseSHA

def Passes (faults : Faults) (disk : Repo) (baseSHA : String) (u : RefUpdate) : Prop :=
  isNoop u baseSHA = true ∨ ∃ h, start disk u = some h ∧ (h ∈ stops u baseSHA ∨ faults.emitBatch u = none)

/-- **The updates the steps act for**, read off the command list, the commits on disk and the session's row. -/
inductive Acts (faults : Faults) (sessionID : String) (stored : Option String) (disk : Repo) (updates : List RefUpdate) :
    RefUpdate → Prop where
  | seeds {u : RefUpdate} (first : updates.find? (fun u => u.ref = baseRefName sessionID ∧ u.oldSHA = "") = some u)
      (noDraft : ∀ h, disk.reference (draftRefName sessionID) ≠ .ok h) (up : faults.setReference = none) :
      Acts faults sessionID stored disk updates u
  | stamps {u : RefUpdate} (first : findBaseRefUpdate sessionID updates = some u) (up : faults.setBaseSHA = none) :
      Acts faults sessionID stored disk updates u
  | emits {pre post : List RefUpdate} {u : RefUpdate} (split : updates = pre ++ u :: post)
      (passed : ∀ v ∈ pre, Passes faults disk (effectiveBase sessionID stored updates) v)
      (new : Emits faults disk (effectiveBase sessionID stored updates) u) : Acts faults sessionID stored disk updates u

variable {u : RefUpdate} {h : Hash}

/-! ## Emission -/

theorem start_some {disk : Repo} (hs : start disk u = some h) :
    ∃ c, disk.commitObject h = some c ∧ disk.log (newHash u.newSHA) = .ok (disk.history h) := by
  obtain ⟨hh, hc⟩ := Option.filter_eq_some_iff.1 hs
  obtain ⟨c, hc⟩ := Option.isSome_iff_exists.1 hc
  refine ⟨c, hc, ?_⟩
  by_cases hz : newHash u.newSHA = Hash.zero
  · rw [if_pos hz] at hh
    cases hhead : disk.head with
    | error => rw [hhead] at hh; cases hh
    | ok =>
      rw [hhead] at hh
      cases hh
      simp [Repo.log, hz, hhead, hc, bind, Except.bind]
  · rw [if_neg hz] at hh
    cases hh
    exact Repo.log_eq hc

theorem start_none {disk : Repo} (hs : start disk u = none) : ∃ e, disk.log (newHash u.newSHA) = .error e := by
  have hn : ∀ h, (if newHash u.newSHA = Hash.zero then disk.head.toOption else some (newHash u.newSHA)) = some h →
      disk.commitObject h = none := by
    intro h hh
    rw [start, hh] at hs
    simpa using hs
  by_cases hz : newHash u.newSHA = Hash.zero
  · cases hhead : disk.head with
    | error e => exact ⟨e, by simp only [Repo.log, if_pos hz, hhead]; rfl⟩
    | ok h =>
      have hc := hn h (by rw [if_pos hz, hhead]; rfl)
      exact ⟨.objectNotFound, by simp [Repo.log, hz, hhead, hc, bind, Except.bind]⟩
  · have hc := hn _ (if_neg hz)
    exact ⟨.objectNotFound, by simp [Repo.log, hz, hc]⟩

theorem collect_cons {disk : Repo} {c : Commit} (hc : disk.commitObject h = some c) (stop : Hash → Bool)
    (rest : List (Except Hash Hash)) (hr : ∀ x, Except.error x ∉ rest) :
    ∃ cs, disk.collect stop (.ok h :: rest) = .ok cs ∧ (cs = [] ↔ stop h = true) := by
  have hok : ∀ x, Except.error x ∉ (.ok h :: rest) := by
    intro x hx
    rcases mem_cons.1 hx with hx | hx
    · cases hx
    · exact hr x hx
  rw [Repo.collect, Walk.forEach_visited stop _ hok, Walk.visited_ok]
  refine ⟨_, rfl, ?_⟩
  cases hs : stop h with
  | true => simp [hs]
  | false => simp [hs, hc]

theorem newCommits_spec {disk : Repo} (hclosed : disk.Closed) {c : Commit} (hc : disk.commitObject h = some c)
    (stops : List Hash) :
    ∃ cs, newCommits disk stops (disk.history h) = .ok cs ∧ (cs = [] ↔ h ∈ stops) := by
  have hm : h ∈ disk.hashes := Repo.mem_hashes h (by rw [Repo.parents, hc]; rfl)
  have hno := Repo.history_no_error (hclosed.complete hm)
  obtain ⟨rest, hr⟩ := Repo.history_eq_cons hc
  rw [hr] at hno ⊢
  have hr : ∀ x, Except.error x ∉ rest := fun x hx => hno x (mem_cons_of_mem _ hx)
  unfold newCommits
  by_cases hs : stops = []
  · have hcut : (.ok h :: rest).take maxCommitsPerUpdate = .ok h :: rest.take 999 := rfl
    rw [if_pos hs, hcut]
    obtain ⟨cs, hcs, hn⟩ := collect_cons hc (fun h => decide (h ∈ stops)) (rest.take 999)
      (fun x hx => hr x (mem_of_mem_take hx))
    exact ⟨cs, hcs, by simpa using hn⟩
  · rw [if_neg hs]
    obtain ⟨cs, hcs, hn⟩ := collect_cons hc (fun h => decide (h ∈ stops)) rest hr
    exact ⟨cs, hcs, by simpa using hn⟩

section
variable (faults : Faults) {disk : Repo} (hclosed : disk.Closed) (baseSHA : String)

include hclosed in
theorem emitForUpdate_of_start (hnoop : isNoop u baseSHA = false) (hs : start disk u = some h) :
    ∃ cs, (cs = [] ↔ h ∈ stops u baseSHA) ∧ emitForUpdate faults disk u baseSHA = emitCommits faults u cs := by
  obtain ⟨c, hc, hl⟩ := start_some hs
  obtain ⟨cs, hcs, hn⟩ := newCommits_spec hclosed hc (stops u baseSHA)
  refine ⟨cs, hn, ?_⟩
  rw [emitForUpdate, if_neg (by simp [hnoop]), hl]
  simp only [hcs]

theorem emitCommits_nil (u : RefUpdate) : emitCommits faults u [] = .ok [] := rfl

theorem emitCommits_up (hup : faults.emitBatch u = none) {cs : List Commit} (hcs : cs ≠ []) :
    emitCommits faults u cs = .ok (cs.reverse.map (CommitArrived.of u)) := by
  rw [emitCommits, if_neg (by simpa using hcs), hup]

theorem emitCommits_ok {cs : List Commit} {events : List CommitArrived} (hcs : cs ≠ [])
    (h : emitCommits faults u cs = .ok events) : faults.emitBatch u = none := by
  rw [emitCommits, if_neg (by simpa using hcs)] at h
  cases hup : faults.emitBatch u with
  | none => rfl
  | some => rw [hup] at h; cases h

include hclosed in
theorem Emits.emitForUpdate (h : Emits faults disk baseSHA u) :
    ∃ events, events ≠ [] ∧ emitForUpdate faults disk u baseSHA = .ok events := by
  obtain ⟨hn, hup, x, hs, hstop⟩ := h
  obtain ⟨cs, hnil, heq⟩ := emitForUpdate_of_start faults hclosed baseSHA hn hs
  have hcs : cs ≠ [] := fun hcs => hstop (hnil.1 hcs)
  exact ⟨_, by simpa using hcs, heq.trans (emitCommits_up faults hup hcs)⟩

include hclosed in
theorem emitForUpdate_ok {events : List CommitArrived} (h : emitForUpdate faults disk u baseSHA = .ok events) :
    Passes faults disk baseSHA u ∧ (events ≠ [] → Emits faults disk baseSHA u) := by
  cases hn : isNoop u baseSHA with
  | true =>
    rw [emitForUpdate, if_pos hn] at h
    cases h
    exact ⟨.inl hn, fun hne => absurd rfl hne⟩
  | false =>
    cases hs : start disk u with
    | none =>
      obtain ⟨e, he⟩ := start_none hs
      rw [emitForUpdate, if_neg (by simp [hn]), he] at h
      cases h
    | some x =>
      obtain ⟨cs, hnil, heq⟩ := emitForUpdate_of_start faults hclosed baseSHA hn hs
      rw [heq] at h
      by_cases hcs : cs = []
      · rw [hcs, emitCommits_nil] at h
        cases h
        exact ⟨.inr ⟨x, hs, .inl (hnil.1 hcs)⟩, fun hne => absurd rfl hne⟩
      · have hup := emitCommits_ok faults hcs h
        exact ⟨.inr ⟨x, hs, .inr hup⟩, fun _ => ⟨hn, hup, x, hs, fun hstop => hcs (hnil.2 hstop)⟩⟩

include hclosed in
theorem Passes.emitForUpdate (h : Passes faults disk baseSHA u) :
    ∃ events, emitForUpdate faults disk u baseSHA = .ok events := by
  cases hn : isNoop u baseSHA with
  | true => exact ⟨[], by rw [Githttp.emitForUpdate, if_pos hn]⟩
  | false =>
    rcases h with h | ⟨x, hs, h⟩
    · rw [hn] at h
      cases h
    obtain ⟨cs, hnil, heq⟩ := emitForUpdate_of_start faults hclosed baseSHA hn hs
    by_cases hcs : cs = []
    · exact ⟨[], by rw [heq, hcs, emitCommits_nil]⟩
    · have hup := h.resolve_left (fun hstop => hcs (hnil.2 hstop))
      exact ⟨_, heq.trans (emitCommits_up faults hup hcs)⟩

include hclosed in
theorem mem_emitForUpdates (u : RefUpdate) : ∀ us : List RefUpdate,
    (∃ a ∈ (emitForUpdates faults disk baseSHA us).1, a.update = u) ↔
      ∃ pre post, us = pre ++ u :: post ∧ (∀ v ∈ pre, Passes faults disk baseSHA v) ∧ Emits faults disk baseSHA u
  | [] => by simp [emitForUpdates]
  | v :: us => by
    have ih := mem_emitForUpdates u us
    constructor
    · rintro ⟨a, ha, rfl⟩
      rw [emitForUpdates] at ha
      cases hv : Githttp.emitForUpdate faults disk v baseSHA with
      | error => rw [hv] at ha; cases ha
      | ok =>
        rw [hv] at ha
        obtain ⟨hp, he⟩ := emitForUpdate_ok faults hclosed baseSHA hv
        rcases mem_append.1 ha with ha | ha
        · split at ha
          · cases ha
          · rename_i hne
            rw [mem_singleton.1 ha]
            exact ⟨[], us, rfl, fun _ h => (not_mem_nil h).elim, he (by simpa using hne)⟩
        · obtain ⟨pre, post, rfl, hpre, hu⟩ := ih.1 ⟨a, ha, rfl⟩
          refine ⟨v :: pre, post, rfl, ?_, hu⟩
          intro w hw
          rcases mem_cons.1 hw with rfl | hw
          · exact hp
          · exact hpre w hw
    · rintro ⟨pre, post, hs, hpre, hu⟩
      rw [emitForUpdates]
      cases pre with
      | nil =>
        obtain ⟨rfl, rfl⟩ := List.cons.inj hs
        obtain ⟨events, hne, hv⟩ := hu.emitForUpdate faults hclosed baseSHA
        rw [hv]
        exact ⟨.emit v events, by simp [hne], rfl⟩
      | cons w pre =>
        obtain ⟨rfl, rfl⟩ := List.cons.inj hs
        obtain ⟨events, hv⟩ := (hpre v mem_cons_self).emitForUpdate faults hclosed baseSHA
        obtain ⟨a, ha, hau⟩ := ih.2 ⟨pre, post, rfl, fun w hw => hpre w (mem_cons_of_mem v hw), hu⟩
        rw [hv]
        exact ⟨a, mem_append_right _ ha, hau⟩

end

/-! ## All steps -/

theorem mem_seedDraft (faults : Faults) (sessionID : String) (disk : Repo) (updates : List RefUpdate) (u : RefUpdate) :
    (∃ a ∈ seedDraft faults sessionID disk updates, a.update = u) ↔
      updates.find? (fun u => u.ref = baseRefName sessionID ∧ u.oldSHA = "") = some u ∧
        (∀ h, disk.reference (draftRefName sessionID) ≠ .ok h) ∧ faults.setReference = none := by
  unfold seedDraft
  cases updates.find? (fun u => u.ref = baseRefName sessionID ∧ u.oldSHA = "") with
  | none => simp
  | some =>
    cases disk.reference (draftRefName sessionID) <;> cases faults.setReference <;> simp [Action.update]

theorem mem_stampBase (faults : Faults) (sessionID : String) (updates : List RefUpdate) (u : RefUpdate) :
    (∃ a ∈ stampBase faults sessionID updates, a.update = u) ↔
      findBaseRefUpdate sessionID updates = some u ∧ faults.setBaseSHA = none := by
  unfold stampBase
  cases findBaseRefUpdate sessionID updates with
  | none => simp
  | some => cases faults.setBaseSHA <;> simp [Action.update]

theorem postReceive_acts (faults : Faults) (sessionID : String) (stored : Option String) {disk : Repo}
    (hclosed : disk.Closed) (updates : List RefUpdate) (u : RefUpdate) :
    (∃ a ∈ (postReceive faults sessionID stored disk updates).1, a.update = u) ↔
      Acts faults sessionID stored disk updates u := by
  have he := mem_emitForUpdates faults hclosed (effectiveBase sessionID stored updates) u updates
  have hseed := mem_seedDraft faults sessionID disk updates u
  have hstamp := mem_stampBase faults sessionID updates u
  simp only [postReceive, mem_append]
  constructor
  · rintro ⟨a, (ha | ha) | ha, hu⟩
    · obtain ⟨hf, hd, hup⟩ := hseed.1 ⟨a, ha, hu⟩
      exact .seeds hf hd hup
    · obtain ⟨hf, hup⟩ := hstamp.1 ⟨a, ha, hu⟩
      exact .stamps hf hup
    · obtain ⟨_, _, hs, hp, hn⟩ := he.1 ⟨a, ha, hu⟩
      exact .emits hs hp hn
  · rintro (⟨hf, hd, hup⟩ | ⟨hf, hup⟩ | ⟨hs, hp, hn⟩)
    · obtain ⟨a, ha, hu⟩ := hseed.2 ⟨hf, hd, hup⟩
      exact ⟨a, .inl (.inl ha), hu⟩
    · obtain ⟨a, ha, hu⟩ := hstamp.2 ⟨hf, hup⟩
      exact ⟨a, .inl (.inr ha), hu⟩
    · obtain ⟨a, ha, hu⟩ := he.2 ⟨_, _, hs, hp, hn⟩
      exact ⟨a, .inr ha, hu⟩

theorem receivePack_actions {lib : Lib} {limits : Limits} {push : Push} {updates : List RefUpdate} {session : Session}
    {stored : Option String} {disk : Repo} (ha : push.accept lib limits = .ok (updates, session, stored))
    (hg : push.git = .exited (.ok disk)) :
    (receivePack lib limits push).1 = (postReceive push.faults session.id stored disk updates).1 := by
  rw [receivePack, ha]
  dsimp only
  rw [hg]
  dsimp only
  split <;> rename_i heq <;> rw [heq]

/-! ## Landed updates -/

/-- **What git does with the refs of a push**: it leaves a ref as it is, or moves it from the update's old id to its new id. -/
structure GitOutcome (before after : Repo) (updates : List RefUpdate) : Prop where
  objects : before.commits ⊆ after.commits
  refs : ∀ name, after.reference name = before.reference name ∨ ∃ u ∈ updates, u.ref = name ∧ Landed after u ∧
    if u.oldSHA = "" then ∀ h, before.reference name ≠ .ok h else before.reference name = .ok (newHash u.oldSHA)

def racedRepo (pushed : Bool) : Repo where
  commits := [⟨.ofByte 1, [], .zero, goodMessage, "", ""⟩, ⟨.ofByte 2, [.ofByte 1], .zero, goodMessage, "", ""⟩] ++
    if pushed then [⟨.ofByte 3, [.ofByte 1], .zero, goodMessage, "", ""⟩] else []
  nodup := by cases pushed <;> decide
  nonzero := by cases pushed <;> decide
  tree := fun _ => none
  references := .ok [⟨"refs/heads/jam/s/a/b", .hash (.ofByte 2)⟩]
  head := .error .referenceNotFound

def racedPush : Push where
  body := fullBody
  accountID := "a"
  session := .ok (⟨"s", "o", ""⟩, none)
  currentBytes := 0
  validationRepo := fun _ => .ok (racedRepo true)
  git := .exited (.ok (racedRepo true))
  faults := ⟨none, none, fun _ => none, none⟩

theorem racedPush_accepted : racedPush.accept silentLib ⟨0, 0⟩ = .ok ([mergePush], ⟨"s", "o", ""⟩, none) := by
  have hv : validate silentLib ⟨0, 0⟩
      ⟨racedRepo true, ⟨"s", "o", ""⟩, "a", [mergePush], racedPush.body.length, 0⟩ = .ok [] := by decide
  rw [Push.accept, show readCommandList racedPush.body = _ from fullBody_commands]
  dsimp only [racedPush] at hv ⊢
  rw [hv]

/-- **The steps after an accepted push act for landed updates only, exactly when git moved the ref of every update that
acts**, for any repository on disk in which no commit lacks a parent. -/
theorem acts_landed_iff (lib : Lib) (limits : Limits) (push : Push) (updates : List RefUpdate) (session : Session)
    (stored : Option String) (disk : Repo) (haccept : push.accept lib limits = .ok (updates, session, stored))
    (hgit : push.git = .exited (.ok disk)) (hclosed : disk.Closed) :
    (∀ a ∈ (receivePack lib limits push).1, Landed disk a.update) ↔
      ∀ u, Acts push.faults session.id stored disk updates u → Landed disk u := by
  rw [receivePack_actions haccept hgit]
  constructor
  · intro hall u hacts
    obtain ⟨a, ha, rfl⟩ := (postReceive_acts _ _ _ hclosed _ _).2 hacts
    exact hall a ha
  · intro hall a ha
    exact hall a.update ((postReceive_acts _ _ _ hclosed _ _).1 ⟨a, ha, rfl⟩)

theorem acts_landed_raced :
    racedPush.accept silentLib ⟨0, 0⟩ = .ok ([mergePush], ⟨"s", "o", ""⟩, none) ∧
      ((∀ a ∈ (receivePack silentLib ⟨0, 0⟩ racedPush).1, Landed (racedRepo true) a.update) ↔
        ∀ u, Acts racedPush.faults "s" none (racedRepo true) [mergePush] u → Landed (racedRepo true) u) :=
  ⟨racedPush_accepted, acts_landed_iff _ _ _ _ _ _ _ racedPush_accepted rfl (by decide)⟩

/-- **An update that git refused still emits**: the branch has moved on, git leaves it where it is and keeps the objects, and
the pushed commit is announced for the branch. -/
theorem refused_update_emits :
    GitOutcome (racedRepo false) (racedRepo true) [mergePush] ∧
      racedPush.accept silentLib ⟨0, 0⟩ = .ok ([mergePush], ⟨"s", "o", ""⟩, none) ∧
      ¬ ∀ a ∈ (receivePack silentLib ⟨0, 0⟩ racedPush).1, Landed (racedRepo true) a.update := by
  refine ⟨⟨by decide, fun _ => .inl rfl⟩, racedPush_accepted, fun hall => ?_⟩
  rw [receivePack_actions racedPush_accepted rfl] at hall
  have hacts : (postReceive racedPush.faults "s" none (racedRepo true) [mergePush]).1.map Action.update = [mergePush] := by
    decide
  have hm : mergePush ∈ (postReceive racedPush.faults "s" none (racedRepo true) [mergePush]).1.map Action.update := by
    rw [hacts]
    exact mem_singleton.2 rfl
  obtain ⟨a, ha, hu⟩ := mem_map.1 hm
  have hl := hu ▸ hall a ha
  exact absurd hl.1 (by decide)

end Jamsesh.Githttp
