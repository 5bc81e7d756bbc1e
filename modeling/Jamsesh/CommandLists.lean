import Jamsesh.PktLine
import Jamsesh.PushWalk
/-!
# CommandLists — the commands of a push, as the portal and as git read them

A push body is read by `readCommandList` and again by `git receive-pack`.  Of a body that the portal accepts, git reads the
same commands or none, except where a packet has a newline right before its NUL: to git it is part of the ref's name
(`commands_agree_iff`).
-/
namespace Jamsesh.Githttp

open Git List Prereceive

/-! ## Commands as they are written -/

def IsID (s : Text) : Prop := s.length = 40 ∧ ∀ c ∈ s, (hexDigit c).isSome

instance (s : Text) : Decidable (IsID s) := @instDecidableAnd _ _ _ (List.decidableBAll _ s)

def isVisible (c : Char) : Bool := 33 ≤ c.toNat && c.toNat ≤ 126

structure CommandLine where
  old : Text
  new : Text
  ref : Text
  caps : Option Text
  newline : Bool

namespace CommandLine

def head (c : CommandLine) : Text := c.old ++ ' ' :: (c.new ++ ' ' :: c.ref)

def payload (c : CommandLine) : Text :=
  c.head ++ ((c.caps.map ('\x00' :: ·)).getD [] ++ if c.newline then ['\n'] else [])

def update (c : CommandLine) : RefUpdate :=
  ⟨String.ofList c.ref, if c.old = zeroSHA then "" else String.ofList c.old, String.ofList c.new⟩

def capabilities (c : CommandLine) : List Text := ((c.caps.getD []).splitOn ' ').filter (· ≠ [])

end CommandLine

/-- **A command of a push**, as a client may write it; it fits into a packet. -/
structure Command extends CommandLine where
  old_id : IsID old
  new_id : IsID new
  ref_plain : ∀ c ∈ ref, c ≠ ' ' ∧ c ≠ '\x00' ∧ c ≠ '\n'
  caps_plain : ∀ list, caps = some list → ∀ c ∈ list, c = ' ' ∨ isVisible c
  fits : toCommandLine.payload.length + 4 < 65536

def encode (commands : List Command) (pack : Text) : Text :=
  commands.flatMap (fun c => frame c.payload) ++ (flush ++ pack)

variable {c : Char} {s old new payload : Text}

/-! ## Words -/

theorem spaceWidth_of_visible (h : isVisible c = true) (s : Text) : spaceWidth (c :: s) = 0 := by
  have hb : ((c :: s).take 3).map Char.toNat = c.toNat :: (s.take 2).map Char.toNat := rfl
  have hw : ∀ l ∈ wideSpaces, 0xe1 ≤ l.headD 0 := by decide
  simp only [isVisible, Bool.and_eq_true, decide_eq_true_eq] at h
  unfold spaceWidth
  simp only [hb]
  rw [if_neg, if_neg, if_neg]
  · intro hin
    have hh := hw _ hin
    rw [headD_cons] at hh
    omega
  · simp only [take_succ_cons, mem_cons, not_mem_nil, or_false, List.cons.injEq]
    omega
  · simp only [take_succ_cons, mem_cons, not_mem_nil, or_false, List.cons.injEq]
    omega

theorem spaceWidth_blank (s : Text) : spaceWidth (' ' :: s) = 1 := by simp [spaceWidth]

theorem modifyHead_nil_append (l : List Text) : l.modifyHead ([] ++ ·) = l := by cases l <;> rfl

theorem fieldsLoop_visible : ∀ (s word : Text), (∀ c ∈ s, c = ' ' ∨ isVisible c = true) →
    fieldsLoop 0 word s = ((s.splitOn ' ').modifyHead (word ++ ·)).filter (· ≠ [])
  | [], word, _ => by
    rw [fieldsLoop, splitOn_nil, modifyHead_cons, append_nil]
    by_cases hw : word = [] <;> simp [hw]
  | c :: s, word, h => by
    obtain ⟨hc, hs⟩ := forall_mem_cons.1 h
    rw [fieldsLoop, splitOn_cons_eq_if_modifyHead]
    rcases hc with rfl | hc
    · -- a blank ends the word
      rw [spaceWidth_blank, if_neg Nat.one_ne_zero, fieldsLoop_visible s [] hs, modifyHead_nil_append]
      by_cases hw : word = [] <;> simp [hw]
    have hb : c ≠ ' ' := by
      rintro rfl
      exact absurd hc (by decide)
    rw [spaceWidth_of_visible hc, if_pos rfl, fieldsLoop_visible s (word ++ [c]) hs, if_neg (by simpa using hb)]
    cases s.splitOn ' ' <;> simp

theorem fields_visible (h : ∀ c ∈ s, c = ' ' ∨ isVisible c = true) : fields s = (s.splitOn ' ').filter (· ≠ []) := by
  rw [fields, fieldsLoop_visible s [] h, modifyHead_nil_append]

/-! ## What is written is read back -/

theorem IsID.not_mem (h : IsID s) (hc : hexDigit c = none) : c ∉ s := by
  intro hin
  have hs := h.2 c hin
  rw [hc] at hs
  cases hs

theorem splitAtMost_head (hold : ' ' ∉ old) (hnew : ' ' ∉ new) (ref : Text) :
    Text.splitAtMost ' ' 2 (old ++ ' ' :: (new ++ ' ' :: ref)) = [old, new, ref] := by
  rw [Text.splitAtMost_append hold, Text.splitAtMost_append hnew]
  rfl

theorem trimSuffix_newline (h : '\n' ∉ s) (b : Bool) : Text.trimSuffix (s ++ if b then ['\n'] else []) ['\n'] = s := by
  cases b with
  | false =>
    rw [if_neg Bool.false_ne_true, append_nil]
    exact Text.trimSuffix_of_not_mem h
  | true =>
    rw [if_pos rfl, Text.trimSuffix_concat, if_pos rfl]

def lineCommand (line : Text) : Except PktErr RefUpdate :=
  match Text.splitAtMost ' ' 2 line with
  | [old, new, ref] => .ok ⟨String.ofList ref, if old = zeroSHA then "" else String.ofList old, String.ofList new⟩
  | _ => .error (.commandLine line)

theorem parseCommand_plain (h : '\x00' ∉ payload) :
    parseCommand payload = (lineCommand (Text.trimSuffix payload ['\n'])).map (·, []) := by
  unfold parseCommand lineCommand
  simp only [Text.index_eq_none h]
  rcases Text.splitAtMost ' ' 2 (Text.trimSuffix payload ['\n']) with _ | ⟨a, _ | ⟨b, _ | ⟨c, _ | ⟨d, _⟩⟩⟩⟩ <;> rfl

theorem parseCommand_caps {line : Text} (h : '\x00' ∉ line) (list : Text) :
    parseCommand (line ++ '\x00' :: list) =
      (lineCommand (Text.trimSuffix line ['\n'])).map (·, fields (Text.trimSuffix list ['\n'])) := by
  have hi : Text.index (line ++ '\x00' :: list) ['\x00'] = some line.length :=
    Text.index_append ['\x00'] (by simp) line list (fun c hc => by
      simp only [List.head?_cons, ne_eq, Option.some.injEq]
      exact fun he => h (he ▸ hc))
  have hd : (line ++ '\x00' :: list).drop (line.length + 1) = list := by
    rw [← drop_drop, drop_left]
    rfl
  unfold parseCommand lineCommand
  simp only [hi, hd, take_left]
  rcases Text.splitAtMost ' ' 2 (Text.trimSuffix line ['\n']) with _ | ⟨a, _ | ⟨b, _ | ⟨c, _ | ⟨d, _⟩⟩⟩⟩ <;> rfl

namespace Command

theorem not_mem_head (c : Command) {d : Char} (hh : hexDigit d = none) (hb : d ≠ ' ') (hr : d ∉ c.ref) :
    d ∉ c.head := by
  simp only [CommandLine.head, mem_append, mem_cons, not_or]
  exact ⟨c.old_id.not_mem hh, hb, c.new_id.not_mem hh, hb, hr⟩

theorem lineCommand_head (c : Command) : lineCommand c.head = .ok c.update := by
  have hb : hexDigit ' ' = none := by decide
  rw [lineCommand, CommandLine.head, splitAtMost_head (c.old_id.not_mem hb) (c.new_id.not_mem hb)]
  rfl

theorem parseCommand_payload (c : Command) : parseCommand c.payload = .ok (c.update, c.capabilities) := by
  have hnul : '\x00' ∉ c.head := c.not_mem_head (by decide) (by decide) (fun h => (c.ref_plain _ h).2.1 rfl)
  have hn : '\n' ∉ c.head := c.not_mem_head (by decide) (by decide) (fun h => (c.ref_plain _ h).2.2 rfl)
  cases hc : c.caps with
  | none =>
    have hp : c.payload = c.head ++ if c.newline then ['\n'] else [] := by simp [CommandLine.payload, hc]
    have hnul' : '\x00' ∉ c.payload := by
      rw [hp, mem_append, not_or]
      exact ⟨hnul, by cases c.newline <;> simp⟩
    rw [parseCommand_plain hnul', hp, trimSuffix_newline hn, lineCommand_head]
    simp [CommandLine.capabilities, hc, Except.map]
  | some list =>
    have hl := c.caps_plain list hc
    have hn' : '\n' ∉ list := fun h => by
      rcases hl _ h with h | h
      · exact absurd h (by decide)
      · exact absurd h (by decide)
    have hp : c.payload = c.head ++ '\x00' :: (list ++ if c.newline then ['\n'] else []) := by
      simp [CommandLine.payload, hc]
    rw [hp, parseCommand_caps hnul, Text.trimSuffix_of_not_mem hn, trimSuffix_newline hn', lineCommand_head,
      fields_visible hl]
    simp [CommandLine.capabilities, hc, Except.map]

end Command

theorem readCommandList_encode : ∀ (commands : List Command) (pack : Text), readCommandList (encode commands pack) =
      .ok ⟨commands.map (·.update), commands.flatMap (·.capabilities), pack⟩
  | [], pack => readCommandList_flush (readPacket_flush pack)
  | c :: commands, pack => by
    have hp : readPacket (encode (c :: commands) pack) = .ok (some c.payload, encode commands pack) := by
      rw [encode, flatMap_cons, append_assoc]
      exact readPacket_frame c.fits _
    rw [readCommandList_command hp c.parseCommand_payload, readCommandList_encode commands pack]
    rfl

/-! ## What git reads -/

structure GitCommand where
  old : Text
  new : Text
  ref : Text
deriving DecidableEq

def GitCommand.update (g : GitCommand) : RefUpdate :=
  ⟨String.ofList g.ref, if g.old = zeroSHA then "" else String.ofList g.old, String.ofList g.new⟩

/-- The line of a packet: the newline at its end is dropped, and the line ends at a NUL. -/
def gitLine (payload : Text) : Text := (Text.trimSuffix payload ['\n']).takeWhile (· != '\x00')

/-- Two ids and the rest of the line, each behind one space; git dies of anything else. -/
def gitCommand (payload : Text) : Option GitCommand :=
  let cmd := gitLine payload
  let old := cmd.take 40
  let new := (cmd.drop 41).take 40
  if IsID old ∧ cmd[40]? = some ' ' ∧ IsID new ∧ cmd[81]? = some ' ' then some ⟨old, new, cmd.drop 82⟩ else none

-- LARGE_PACKET_MAX
def maxPacket : Nat := 65520

/-- The command list as `git receive-pack` reads it; `none` where it dies. -/
def gitReceive (s : Text) : Option (List GitCommand) :=
  match h : readPacket s with
  | .error _ => none
  | .ok (none, _) => some []
  | .ok (some payload, rest) =>
    have : rest.length < s.length := readPacket_length h
    if payload.length + 4 > maxPacket then none
    else
      match gitCommand payload with
      | none => none
      | some g => (gitReceive rest).map (g :: ·)
termination_by s.length

theorem gitReceive_flush {rest : Text} (h : readPacket s = .ok (none, rest)) : gitReceive s = some [] := by
  rw [gitReceive]
  split <;> simp_all

theorem gitReceive_packet {rest : Text} (h : readPacket s = .ok (some payload, rest)) :
    gitReceive s = if payload.length + 4 > maxPacket then none
      else (gitCommand payload).bind (fun g => (gitReceive rest).map (g :: ·)) := by
  rw [gitReceive]
  split
  · simp_all
  · simp_all
  rename_i h'
  rw [h] at h'
  cases h'
  cases gitCommand payload <;> rfl

/-! ## One packet -/

def NewlineBeforeNUL (payload : Text) : Prop := ∃ line list, '\x00' ∉ line ∧ payload = line ++ '\n' :: '\x00' :: list

def GitReads (payload : Text) : Prop := payload.length + 4 ≤ maxPacket ∧ (gitCommand payload).isSome

theorem gitCommand_some {g : GitCommand} (h : gitCommand payload = some g) :
    IsID g.old ∧ IsID g.new ∧ gitLine payload = g.old ++ ' ' :: (g.new ++ ' ' :: g.ref) := by
  unfold gitCommand at h
  simp only at h
  split at h
  · rename_i hids
    obtain ⟨ho, hf, hn, hs⟩ := hids
    cases h
    refine ⟨ho, hn, ?_⟩
    have hc : ∀ (l : Text) (i : Nat), l[i]? = some ' ' → l.drop i = ' ' :: l.drop (i + 1) := fun l i hi => by
      obtain ⟨hlt, hg⟩ := List.getElem?_eq_some_iff.1 hi
      rw [drop_eq_getElem_cons hlt, hg]
    have hr : (gitLine payload).drop 41 = ((gitLine payload).drop 41).take 40 ++ ' ' :: (gitLine payload).drop 82 := by
      conv_lhs => rw [← take_append_drop 40 ((gitLine payload).drop 41), drop_drop, hc _ _ hs]
    conv_lhs => rw [← take_append_drop 40 (gitLine payload), hc _ _ hf, hr]
  · cases h

theorem gitLine_plain (h : '\x00' ∉ payload) : gitLine payload = Text.trimSuffix payload ['\n'] := by
  rw [gitLine, takeWhile_eq_self_iff]
  intro c hc
  rw [bne_iff_ne]
  exact fun he => h (he ▸ Text.trimSuffix_subset _ _ hc)

theorem gitLine_caps {line : Text} (h : '\x00' ∉ line) (list : Text) : gitLine (line ++ '\x00' :: list) = line := by
  have hr : ∃ t, Text.trimSuffix ('\x00' :: list) ['\n'] = '\x00' :: t := by
    cases list with
    | nil => exact ⟨[], by decide⟩
    | cons d list => exact ⟨_, Text.trimSuffix_append ['\x00'] (cons_ne_nil d list) '\n'⟩
  obtain ⟨t, ht⟩ := hr
  have hp : ∀ c ∈ line, (c != '\x00') = true := fun c hc => by
    rw [bne_iff_ne]
    exact fun he => h (he ▸ hc)
  rw [gitLine, Text.trimSuffix_append line (cons_ne_nil _ _), ht, takeWhile_append_of_pos hp,
    takeWhile_cons_of_neg (by simp), append_nil]

theorem trimSuffix_head (old new ref : Text) :
    Text.trimSuffix (old ++ ' ' :: (new ++ ' ' :: ref)) ['\n'] = old ++ ' ' :: (new ++ ' ' :: Text.trimSuffix ref ['\n']) := by
  rcases ref with _ | ⟨c, ref⟩
  · have ha : old ++ ' ' :: (new ++ [' ']) = (old ++ ' ' :: new) ++ [' '] := by simp
    have hn : Text.trimSuffix [] ['\n'] = [] := rfl
    rw [hn, ha, Text.trimSuffix_concat, if_neg (by decide)]
  · have ha : ∀ t : Text, old ++ ' ' :: (new ++ ' ' :: t) = (old ++ ' ' :: (new ++ [' '])) ++ t := fun t => by simp
    rw [ha, Text.trimSuffix_append _ (cons_ne_nil c ref), ← ha]

theorem trimSuffix_eq_self_iff : Text.trimSuffix s [c] = s ↔ ¬ ∃ t, s = t ++ [c] := by
  rcases eq_nil_or_concat' s with rfl | ⟨_, d, rfl⟩
  · simp [Text.trimSuffix]
  rw [Text.trimSuffix_concat]
  by_cases h : d = c
  · simp
  rw [if_neg h]
  refine iff_of_true rfl ?_
  rintro ⟨t, ht⟩
  exact h (List.cons.inj (append_inj' ht rfl).2).1

theorem lineCommand_ids (hold : IsID old) (hnew : IsID new) (ref : Text) :
    lineCommand (old ++ ' ' :: (new ++ ' ' :: ref)) = .ok (GitCommand.update ⟨old, new, ref⟩) := by
  have hb : hexDigit ' ' = none := by decide
  rw [lineCommand, splitAtMost_head (hold.not_mem hb) (hnew.not_mem hb)]
  rfl

theorem update_eq_iff {ref ref' : Text} :
    GitCommand.update ⟨old, new, ref⟩ = GitCommand.update ⟨old, new, ref'⟩ ↔ ref = ref' := by
  simp [GitCommand.update, String.ofList_inj]

theorem update_eq_parsed_iff {u : RefUpdate} {caps : List Text} {g : GitCommand}
    (hu : parseCommand payload = .ok (u, caps)) (hg : gitCommand payload = some g) :
    g.update = u ↔ ¬ NewlineBeforeNUL payload := by
  obtain ⟨ho, hnew, hl⟩ := gitCommand_some hg
  by_cases hn : '\x00' ∈ payload
  · obtain ⟨line, list, rfl, hf⟩ := eq_append_cons_of_mem hn
    rw [gitLine_caps hf] at hl
    subst hl
    rw [parseCommand_caps hf, trimSuffix_head, lineCommand_ids ho hnew] at hu
    cases hu
    rw [show g = ⟨g.old, g.new, g.ref⟩ from rfl, update_eq_iff, eq_comm, trimSuffix_eq_self_iff, not_iff_not]
    constructor
    · rintro ⟨ref, hr⟩
      exact ⟨g.old ++ ' ' :: (g.new ++ ' ' :: ref), list, fun _ => hf (by rw [hr]; simp_all), by rw [hr]; simp⟩
    · rintro ⟨line, list', hl, heq⟩
      -- the text before the first NUL is the same on both sides
      have hs := Text.splitAtMost_append hf 0 list
      have ha : line ++ '\n' :: '\x00' :: list' = (line ++ ['\n']) ++ '\x00' :: list' := by simp
      have hl' : '\x00' ∉ line ++ ['\n'] := by simp [hl]
      rw [heq, ha, Text.splitAtMost_append hl'] at hs
      have hh := (List.cons.inj hs).1
      by_contra hno
      have ht : Text.trimSuffix (line ++ ['\n']) ['\n'] = line ++ ['\n'] := by
        rw [hh, trimSuffix_head, trimSuffix_eq_self_iff.2 hno]
      exact trimSuffix_eq_self_iff.1 ht ⟨line, rfl⟩
  · rw [gitLine_plain hn] at hl
    rw [parseCommand_plain hn, hl, lineCommand_ids ho hnew] at hu
    cases hu
    refine iff_of_true rfl ?_
    rintro ⟨_, _, -, rfl⟩
    simp at hn

/-! ## The whole body -/

theorem readCommandList_ok {l : CommandList} (h : readCommandList s = .ok l) :
    (∃ rest, readPacket s = .ok (none, rest) ∧ l = ⟨[], [], rest⟩) ∨
      ∃ payload rest u caps l', readPacket s = .ok (some payload, rest) ∧ parseCommand payload = .ok (u, caps) ∧
        readCommandList rest = .ok l' ∧ l = ⟨u :: l'.updates, caps ++ l'.caps, l'.pack⟩ := by
  cases hread : readPacket s with
  | error =>
    rw [readCommandList] at h
    split at h <;> simp_all
  | ok out =>
    obtain ⟨packet, rest⟩ := out
    cases packet with
    | none =>
      rw [readCommandList_flush hread] at h
      exact .inl ⟨rest, rfl, (Except.ok.inj h).symm⟩
    | some payload =>
      cases hu : parseCommand payload with
      | error =>
        rw [readCommandList] at h
        split at h <;> simp_all
      | ok out =>
        obtain ⟨u, caps⟩ := out
        rw [readCommandList_command hread hu] at h
        cases hr : readCommandList rest with
        | error =>
          rw [hr] at h
          cases h
        | ok l' =>
          rw [hr] at h
          exact .inr ⟨payload, rest, u, caps, l', rfl, hu, hr, (Except.ok.inj h).symm⟩

theorem gitReceive_some_iff {s : Text} {l : CommandList} (h : readCommandList s = .ok l) :
    (gitReceive s).isSome ↔ ∀ p ∈ packets s, GitReads p := by
  rcases readCommandList_ok h with ⟨rest, hr, -⟩ | ⟨payload, rest, u, _, _, hr, -, hrest, -⟩
  · simp [gitReceive_flush hr, packets_flush hr]
  have : rest.length < s.length := readPacket_length hr
  have ih := gitReceive_some_iff hrest
  rw [gitReceive_packet hr, packets_packet hr, forall_mem_cons, ← ih, GitReads]
  by_cases hl : payload.length + 4 > maxPacket
  · simp [hl]
  · rw [if_neg hl]
    cases gitCommand payload <;> simp [Nat.not_lt.1 hl]
termination_by s.length

theorem gitReceive_updates_iff {s : Text} {l : CommandList} {commands : List GitCommand} (h : readCommandList s = .ok l)
    (hgit : gitReceive s = some commands) :
    commands.map GitCommand.update = l.updates ↔ ∀ p ∈ packets s, ¬ NewlineBeforeNUL p := by
  rcases readCommandList_ok h with ⟨rest, hr, rfl⟩ | ⟨_, rest, u, _, _, hr, hu, hrest, rfl⟩
  · rw [gitReceive_flush hr] at hgit
    cases hgit
    simp [packets_flush hr]
  have : rest.length < s.length := readPacket_length hr
  rw [gitReceive_packet hr] at hgit
  split at hgit
  · cases hgit
  obtain ⟨g, hg, ht⟩ := Option.bind_eq_some_iff.1 hgit
  obtain ⟨_, hg', rfl⟩ := Option.map_eq_some_iff.1 ht
  rw [packets_packet hr, forall_mem_cons, map_cons, List.cons.injEq, update_eq_parsed_iff hu hg,
    gitReceive_updates_iff hrest hg']
termination_by s.length

/-- **The commands of a push are what both readers find**: what a client writes comes back, and of a body that the portal
accepts git reads the same commands or dies, exactly when git dies of some packet or no packet has a newline right before its
NUL. -/
theorem commands_agree_iff (written : List Command) (pack body : Text) (l : CommandList) (h : readCommandList body = .ok l) :
    readCommandList (encode written pack) = .ok ⟨written.map (·.update), written.flatMap (·.capabilities), pack⟩ ∧
      ((gitReceive body = none ∨ ∃ commands, gitReceive body = some commands ∧ commands.map GitCommand.update = l.updates) ↔
        (∃ p ∈ packets body, ¬ GitReads p) ∨ ∀ p ∈ packets body, ¬ NewlineBeforeNUL p) := by
  refine ⟨readCommandList_encode written pack, ?_⟩
  have hs := gitReceive_some_iff h
  cases hg : gitReceive body with
  | none =>
    rw [hg] at hs
    refine iff_of_true (.inl rfl) (.inl ?_)
    by_contra ha
    exact absurd (hs.2 fun p hp => by_contra fun hno => ha ⟨p, hp, hno⟩) (by simp)
  | some =>
    rw [hg] at hs
    have ha := hs.1 rfl
    have hn : ¬ ∃ p ∈ packets body, ¬ GitReads p := fun ⟨p, hp, hno⟩ => hno (ha p hp)
    rw [← gitReceive_updates_iff h hg]
    simp [hn]

/-! ## Two bodies -/

def fullCommand : Text :=
  ("0101010101010101010101010101010101010101 0303030303030303030303030303030303030303 refs/heads/jam/s/a/b").toList

def fullBody : Text := frame fullCommand ++ flush

theorem fullCommand_length : fullCommand.length = 102 := by decide +kernel

theorem fullCommand_parsed : parseCommand fullCommand = .ok (mergePush, []) := by
  have ht : fullCommand = _ := String.toList_ofList
  rw [ht]
  decide +kernel

theorem fullBody_commands : readCommandList fullBody = .ok ⟨[mergePush], [], []⟩ := by
  have hp : readPacket fullBody = .ok (some fullCommand, flush) :=
    readPacket_frame (by rw [fullCommand_length]; decide) flush
  have hf : readPacket flush = .ok (none, []) := by decide
  rw [readCommandList_command hp fullCommand_parsed, readCommandList_flush hf]
  rfl

theorem commands_agree_full : readCommandList fullBody = .ok ⟨[mergePush], [], []⟩ ∧ ((gitReceive fullBody = none ∨
        ∃ commands, gitReceive fullBody = some commands ∧ commands.map GitCommand.update = [mergePush]) ↔
      (∃ p ∈ packets fullBody, ¬ GitReads p) ∨ ∀ p ∈ packets fullBody, ¬ NewlineBeforeNUL p) :=
  ⟨fullBody_commands, (commands_agree_iff [] [] fullBody ⟨[mergePush], [], []⟩ fullBody_commands).2⟩

/-- **One body, two refs**: the portal validates an update of `refs/heads/jam/s/a/b`, and git moves the ref whose name ends
with a newline. -/
theorem newline_ref_unseen :
    readCommandList (frame (fullCommand ++ ['\n', '\x00']) ++ flush) = .ok ⟨[mergePush], [], []⟩ ∧
      (gitReceive (frame (fullCommand ++ ['\n', '\x00']) ++ flush)).map (List.map GitCommand.update) =
        some [⟨"refs/heads/jam/s/a/b\n", mergePush.oldSHA, mergePush.newSHA⟩] := by
  have ht : fullCommand = _ := String.toList_ofList
  have hp : readPacket (frame (fullCommand ++ ['\n', '\x00']) ++ flush) =
      .ok (some (fullCommand ++ ['\n', '\x00']), flush) :=
    readPacket_frame (by rw [length_append, fullCommand_length]; decide) flush
  have hf : readPacket flush = .ok (none, []) := by decide
  have hc : parseCommand (fullCommand ++ ['\n', '\x00']) = .ok (mergePush, []) := by
    rw [ht]
    decide +kernel
  have hgit : (gitCommand (fullCommand ++ ['\n', '\x00'])).map GitCommand.update =
      some ⟨"refs/heads/jam/s/a/b\n", mergePush.oldSHA, mergePush.newSHA⟩ := by
    rw [ht]
    decide +kernel
  obtain ⟨g, hg, hu⟩ := Option.map_eq_some_iff.1 hgit
  constructor
  · rw [readCommandList_command hp hc, readCommandList_flush hf]
    rfl
  · rw [gitReceive_packet hp, length_append, fullCommand_length, if_neg (by decide), hg, gitReceive_flush hf]
    simp [hu]

end Jamsesh.Githttp
