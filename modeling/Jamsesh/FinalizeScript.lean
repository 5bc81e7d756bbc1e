import Jamsesh.Git
import Jamsesh.Portal
/-!
# FinalizeScript — the script of a finalize plan (`finalize/escape.go`, `finalize/message.go`, `finalize/script.go`)

The portal composes a squash message and a shell script from the curated commits.  The target branch and the base are quoted
where they are arguments; the curated ids are spliced as they are.
-/
namespace Jamsesh.Finalize

open Git
open Text (isBlank)
open Portal (PlanMode)

/-! ## Checks -/

/-- `shellquote`: single quotes, with each quote inside closed, escaped and opened again. -/
def shellquote (s : Text) : Text := '\'' :: (s.flatMap (fun c => if c = '\'' then "'\\''".toList else [c]) ++ ['\''])

def isBranchChar (c : Char) : Bool := c.isAlphanum || c = '.' || c = '_' || c = '/' || c = '-'

def validateTargetBranch (branch : String) : Bool :=
  branch ≠ "" && branch.toList.head? ≠ some '-' && !Text.contains branch.toList "..".toList && branch.toList.all isBranchChar

/-- `reBaseSHA`: forty lower-case hex digits. -/
def isSHA (s : String) : Bool :=
  s.toList.length = 40 && s.toList.all (fun c => ('a' ≤ c && c ≤ 'f') || ('0' ≤ c && c ≤ '9'))

def validateBaseSHA (sha : String) : Bool := isSHA sha

/-! ## The squash message -/

def firstLine (s : Text) : Text := Text.trimSpace (Text.beforeNewline s)

def ellipsis : Text := ['…']

def lastBlank (s : Text) : Option Nat :=
  (s.reverse.findIdx? (fun c => c = ' ' || c = '\t')).map (fun i => s.length - 1 - i)

def wordBoundaryTruncate (s : Text) (max : Nat) : Text :=
  if s.length ≤ max then s
  else match lastBlank (s.take max) with
    -- a blank at the very start does not count
    | some (i + 1) => Text.trimRight (fun c => c = ' ' || c = '\t') (s.take (i + 1)) ++ ellipsis
    | _ => (if max ≤ 1 then s else s.take (max - 1)) ++ ellipsis

def hardTruncate (s : Text) (max : Nat) : Text := if s.length ≤ max then s else s.take (max - 1) ++ ellipsis

def composeSubject (sessionGoal userOverride : Text) : Text :=
  if userOverride ≠ [] then hardTruncate (firstLine userOverride) 72
  else wordBoundaryTruncate (Text.trimSpace sessionGoal) 72

def composeBody (commits : List Commit) : Text :=
  if commits = [] then []
  else '\n' :: commits.flatMap (fun c => "- ".toList ++ firstLine c.message.toList ++ ['\n'])

structure CoAuthor where
  name : String
  email : String
deriving DecidableEq

/-- The authors in order, each address once whatever its case; a commit without an address adds none. -/
def composeCoAuthors (toLower : Char → Char) : List Commit → List Text → List CoAuthor
  | [], _ => []
  | c :: cs, seen =>
    let key := c.authorEmail.toList.map toLower
    if c.authorEmail = "" ∨ key ∈ seen then composeCoAuthors toLower cs seen
    else ⟨c.authorName, c.authorEmail⟩ :: composeCoAuthors toLower cs (key :: seen)

def renderSquashMessageBody (subject body : Text) (coAuthors : List CoAuthor) : Text :=
  subject ++ '\n' :: body ++
    if coAuthors = [] then []
    else '\n' :: coAuthors.flatMap (fun a =>
      "Co-authored-by: ".toList ++ a.name.toList ++ " <".toList ++ a.email.toList ++ ">\n".toList)

/-! ## The script -/

structure ScriptInput where
  mode : PlanMode
  targetBranch : Text
  baseSHA : Text
  selectedSHAs : List Text
  squashMessageBody : Text

def scriptPrologue : Text := "#!/usr/bin/env bash\nset -euo pipefail\n".toList

def fetchStep (baseSHA : Text) (shas : List Text) : Text :=
  "echo \"==> Fetching session refs\"\ngit fetch \"$JAMSESH_FETCH_REMOTE\"".toList ++
    (if baseSHA ≠ [] then ' ' :: baseSHA else []) ++
    shas.flatMap (fun sha => if sha = [] ∨ sha = baseSHA then [] else ' ' :: sha) ++ ['\n']

def checkoutStep (targetBranch baseSHA : Text) : Text :=
  "echo \"==> Creating target branch ".toList ++ targetBranch ++ " at ".toList ++ baseSHA.take 12 ++ "\"\n".toList ++
    "git checkout -b ".toList ++ shellquote targetBranch ++ " ".toList ++ shellquote baseSHA ++ ['\n']

def doneStep (targetBranch : Text) : Text :=
  "echo \"==> Done. Push when ready: git push origin ".toList ++ shellquote targetBranch ++ "\"\n".toList

def number (n : Nat) : Text := Nat.toDigits 10 n

/-- The squash script up to the here-document. -/
def squashHead (input : ScriptInput) : Text :=
  scriptPrologue ++ fetchStep input.baseSHA input.selectedSHAs ++ checkoutStep input.targetBranch input.baseSHA ++
    "echo \"==> Staging ".toList ++ number input.selectedSHAs.length ++ " curated commit".toList ++
    (if input.selectedSHAs.length ≠ 1 then ['s'] else []) ++ "\"\n".toList ++
    (if input.selectedSHAs.length > 0 then
      "git cherry-pick --no-commit".toList ++ input.selectedSHAs.flatMap (' ' :: ·) ++ ['\n']
    else []) ++
    "echo \"==> Composing squash commit\"\n".toList

def opener : Text :=
  "git commit --author=\"$JAMSESH_RUNNER_NAME <$JAMSESH_RUNNER_EMAIL>\" -F - <<'JAMSESH_MSG'\n".toList

def buildSquashScript (input : ScriptInput) : Text :=
  squashHead input ++ opener ++ input.squashMessageBody ++ (if Text.hasSuffix input.squashMessageBody ['\n'] then [] else ['\n']) ++
    "JAMSESH_MSG\n".toList ++ doneStep input.targetBranch

/-- One pick of `total`, the `n`-th. -/
def pickStep (n total : Nat) (sha : Text) : Text :=
  "echo \"==> Cherry-picking commit ".toList ++ number n ++ " of ".toList ++ number total ++ ": ".toList ++ sha ++
    "\"\ngit cherry-pick ".toList ++ sha ++ ['\n']

def buildPreserveScript (input : ScriptInput) : Text :=
  scriptPrologue ++ fetchStep input.baseSHA input.selectedSHAs ++ checkoutStep input.targetBranch input.baseSHA ++
    (input.selectedSHAs.zipIdx 1).flatMap (fun p => pickStep p.2 input.selectedSHAs.length p.1) ++
    doneStep input.targetBranch

def buildScript (input : ScriptInput) : Text :=
  match input.mode with
  | .squash => buildSquashScript input
  | .preserve => buildPreserveScript input

/-! ## The subject line cut at byte offsets

A loop over a string gives byte offsets and a slice is cut at one, while the limit counts runes.  Each cut is between two
runes, where the definitions above cut (`wordBoundaryAt_eq`, `hardAt_eq`), and after fewer runes than the limit
(`truncate_spec`). -/

open List

def len : Text → Nat
  | [] => 0
  | c :: s => c.utf8Size + len s

/-- `s[:i]`, if the cut is not within a rune: the slice would not be valid UTF-8. -/
def sliceTo : Text → Nat → Option Text
  | _, 0 => some []
  | [], _ + 1 => none
  | c :: s, i => if c.utf8Size ≤ i then (sliceTo s (i - c.utf8Size)).map (c :: ·) else none

/-- The loop that finds `lastSpaceByte`, at the byte offset `i`. -/
def spaceLoop : Nat → Int → Text → Int
  | _, last, [] => last
  | i, last, c :: s => spaceLoop (i + c.utf8Size) (if isBlank c then i else last) s

/-- The offset at which a loop from `i` on has counted `n` runes. -/
def offsetLoop : Nat → Nat → Text → Option Nat
  | _, _, [] => none
  | 0, i, _ :: _ => some i
  | n + 1, i, c :: s => offsetLoop n (i + c.utf8Size) s

def wordBoundaryAt (s : Text) (max : Nat) : Option Text :=
  let lastSpaceByte := spaceLoop 0 (-1) (s.take max)
  let cutBytes := (offsetLoop (max - 1) 0 s).getD 0
  if s.length ≤ max then some s
  else if 0 < lastSpaceByte then (sliceTo s lastSpaceByte.toNat).map (fun t => Text.trimRight isBlank t ++ ellipsis)
  else (sliceTo s (if cutBytes = 0 then len s else cutBytes)).map (· ++ ellipsis)

def hardAt (s : Text) (max : Nat) : Option Text :=
  if s.length ≤ max then some s
  else (offsetLoop (max - 1) 0 s).elim (some s) (fun i => (sliceTo s i).map (· ++ ellipsis))

/-! ## Offsets -/

theorem sliceTo_append (t : Text) : ∀ (s : Text), sliceTo (s ++ t) (len s) = some s
  | [] => by cases t <;> rfl
  | c :: s => by
    have hp := c.utf8Size_pos
    rw [cons_append, len, sliceTo, if_pos (Nat.le_add_right _ _), Nat.add_sub_cancel_left, sliceTo_append t s]
    · rfl
    · omega

theorem sliceTo_take (s : Text) (n : Nat) : sliceTo s (len (s.take n)) = some (s.take n) := by
  conv_lhs => lhs; rw [← take_append_drop n s]
  exact sliceTo_append _ _

theorem offsetLoop_eq : ∀ (n i : Nat) (s : Text), n < s.length → offsetLoop n i s = some (i + len (s.take n))
  | 0, _, _ :: _, _ => rfl
  | n + 1, i, c :: s, h => by
    rw [offsetLoop, offsetLoop_eq n _ s (Nat.lt_of_succ_lt_succ h), take_succ_cons, len, Nat.add_assoc]

theorem len_pos {s : Text} (h : 0 < s.length) : 0 < len s := by
  cases s with
  | nil => cases h
  | cons c s => exact Nat.add_pos_left c.utf8Size_pos _

/-! ## The last blank -/

/-- The last blank of `s` comes after `a`. -/
def LastBlank (s a : Text) : Prop := ∃ b rest, s = a ++ b :: rest ∧ isBlank b = true ∧ ∀ c ∈ rest, isBlank c = false

theorem spaceLoop_concat (c : Char) (last : Int) : ∀ (i : Nat) (s : Text),
    spaceLoop i last (s ++ [c]) = if isBlank c then ((i + len s : Nat) : Int) else spaceLoop i last s := by
  intro i s
  induction s generalizing i last with
  | nil => rfl
  | cons d s ih => rw [cons_append, spaceLoop, ih, spaceLoop, len, Nat.add_assoc]

theorem lastBlank_concat (s : Text) (c : Char) : lastBlank (s ++ [c]) = if isBlank c then some s.length else lastBlank s := by
  have hf : (s ++ [c]).reverse.findIdx? isBlank =
      if isBlank c then some 0 else (s.reverse.findIdx? isBlank).map (· + 1) := by
    rw [reverse_append, reverse_singleton, singleton_append, findIdx?_cons]
  refine (congrArg (Option.map _) hf).trans ?_
  cases isBlank c with
  | true => simp
  | false =>
    rw [if_neg Bool.false_ne_true, if_neg Bool.false_ne_true, Option.map_map, lastBlank]
    refine congrArg (Option.map · _) (funext fun i => ?_)
    simp only [Function.comp_apply, length_append, length_singleton]
    omega

theorem lastBlank_cases (s : Text) :
    (∃ a, LastBlank s a ∧ spaceLoop 0 (-1) s = len a ∧ lastBlank s = some a.length) ∨
      (∀ c ∈ s, isBlank c = false) ∧ spaceLoop 0 (-1) s = -1 ∧ lastBlank s = none := by
  induction s using List.reverseRecOn with
  | nil => exact .inr ⟨nofun, rfl, rfl⟩
  | append_singleton s c ih =>
    rw [spaceLoop_concat, lastBlank_concat, Nat.zero_add]
    cases hc : isBlank c with
    | true => exact .inl ⟨s, ⟨c, [], rfl, hc, nofun⟩, rfl, rfl⟩
    | false =>
      refine ih.imp ?_ fun h => ⟨?_, h.2⟩
      · rintro ⟨a, ⟨b, rest, rfl, hb, hr⟩, h⟩
        refine ⟨a, ⟨b, rest ++ [c], by simp, hb, ?_⟩, h⟩
        simpa [or_imp, forall_and, hc] using hr
      · simpa [or_imp, forall_and, hc] using h.1

/-! ## The two truncations -/

/-- The part of a long subject that is kept: to the last blank but the first rune, or all but one of the runes that fit. -/
def Kept (s : Text) (max : Nat) (p : Text) : Prop :=
  (∃ a, a ≠ [] ∧ LastBlank (s.take max) a ∧ p = Text.trimRight isBlank a) ∨
    (∀ c ∈ (s.take max).tail, isBlank c = false) ∧ p = s.take (max - 1)

/-- `t` is `s` within `max` runes: itself, or `p`, a part of it, with an ellipsis. -/
def CutTo (s : Text) (max : Nat) (t p : Text) : Prop :=
  t.length ≤ max ∧ if s.length ≤ max then t = s else p <+: s ∧ p ≠ s ∧ t = p ++ ellipsis

section
variable {s : Text} {max : Nat} (hlong : max < s.length)

include hlong

theorem LastBlank.take {a : Text} (h : LastBlank (s.take max) a) : a.length < max ∧ s.take a.length = a := by
  obtain ⟨b, rest, hs, -⟩ := h
  have hl := congrArg length hs
  rw [length_take_of_le hlong.le, length_append, length_cons] at hl
  have ht : (a ++ b :: rest).take a.length = a := take_left
  rw [← hs, take_take, min_eq_left (by omega)] at ht
  exact ⟨by omega, ht⟩

theorem cutTo_of_take {p : Text} {n : Nat} (hp : p <+: s.take n) (hn : n < max) : CutTo s max (p ++ ellipsis) p := by
  have hl := hp.length_le.trans (length_take_le n s)
  rw [CutTo, if_neg (by omega), length_append]
  refine ⟨Nat.succ_le_of_lt (by omega), hp.trans ( take_prefix n s), ?_, rfl⟩
  rintro rfl
  omega

theorem Kept.cutTo {p : Text} (hm : 2 ≤ max) (h : Kept s max p) : CutTo s max (p ++ ellipsis) p := by
  rcases h with ⟨a, -, ha, rfl⟩ | ⟨-, rfl⟩
  · obtain ⟨hlt, ht⟩ := ha.take hlong
    refine cutTo_of_take hlong ?_ hlt
    rw [ht]
    exact rdropWhile_prefix _ a
  · exact cutTo_of_take hlong (prefix_refl _) (by omega)

theorem hardAt_eq : hardAt s max = some (hardTruncate s max) := by
  rw [hardAt, hardTruncate, if_neg (by omega), if_neg (by omega), offsetLoop_eq _ _ _ (by omega), Option.elim_some,
    Nat.zero_add, sliceTo_take]
  rfl

/-- **The code cuts where the runes say.** -/
theorem wordBoundaryAt_eq (hm : 2 ≤ max) :
    wordBoundaryAt s max = some (wordBoundaryTruncate s max) ∧
      ∃ p, Kept s max p ∧ wordBoundaryTruncate s max = p ++ ellipsis := by
  have hcut : len (s.take (max - 1)) ≠ 0 := (len_pos (by rw [length_take]; omega)).ne'
  have ho := offsetLoop_eq (max - 1) 0 s (by omega)
  simp only [wordBoundaryAt, wordBoundaryTruncate, if_neg (not_le.2 hlong), if_neg (show ¬ max ≤ 1 by omega), ho,
    Nat.zero_add, Option.getD_some, if_neg hcut, sliceTo_take]
  rcases lastBlank_cases (s.take max) with ⟨a, ha, hl, hlast⟩ | ⟨hn, hl, hlast⟩ <;> rw [hl, hlast]
  · cases a with
    | nil =>
      obtain ⟨b, rest, hs, -, hr⟩ := ha
      exact ⟨rfl, _, .inr ⟨by rwa [hs], rfl⟩, rfl⟩
    | cons c a =>
      have hp : (0 : Int) < len (c :: a) := by exact_mod_cast len_pos (length_pos_of_mem mem_cons_self)
      have ht := (ha.take hlong).2
      have hslice := sliceTo_take s (c :: a).length
      rw [ht] at hslice
      rw [if_pos hp, Int.toNat_natCast, hslice]
      simp only [length_cons] at ht ⊢
      rw [ht]
      exact ⟨rfl, _, .inl ⟨_, cons_ne_nil c a, ha, rfl⟩, rfl⟩
  · exact ⟨rfl, _, .inr ⟨fun c hc => hn c (mem_of_mem_tail hc), rfl⟩, rfl⟩

end

/-- **A truncated subject** is valid UTF-8 of at most `max` runes: the subject, or a part of it with an ellipsis. -/
theorem truncate_spec (s : Text) (max : Nat) (hmax : 2 ≤ max) :
    (∃ t p, wordBoundaryAt s max = some t ∧ CutTo s max t p ∧ (max < s.length → Kept s max p)) ∧
      ∃ t p, hardAt s max = some t ∧ CutTo s max t p := by
  by_cases hlong : max < s.length
  · obtain ⟨hw, p, hp, ht⟩ := wordBoundaryAt_eq hlong hmax
    refine ⟨⟨_, p, hw.trans (congrArg some ht), hp.cutTo hlong hmax, fun _ => hp⟩, _, s.take (max - 1), hardAt_eq hlong, ?_⟩
    rw [hardTruncate, if_neg (by omega)]
    exact cutTo_of_take hlong (prefix_refl _) (by omega)
  · have hs : CutTo s max s s := ⟨by omega, by rw [if_pos (by omega)]⟩
    exact ⟨⟨s, s, if_pos (by omega), hs, fun h => absurd h hlong⟩, s, s, if_pos (by omega), hs⟩

theorem truncate_spec_two : wordBoundaryAt "ä b".toList 2 = some "ä…".toList ∧
    ∃ t p, hardAt "ä b".toList 2 = some t ∧ CutTo "ä b".toList 2 t p :=
  ⟨by decide, (truncate_spec "ä b".toList 2 le_rfl).2⟩

/-! ## Quoting -/

end Jamsesh.Finalize
