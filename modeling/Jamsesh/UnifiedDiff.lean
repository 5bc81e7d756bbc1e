import Jamsesh.Text
/-!
# UnifiedDiff — the output of `diff -u`

An edit of a file is a list of kept, deleted and added lines (`Op`), and a unified diff shows it in hunks, each under a header
with the line ranges it covers (`Script`).  `Script.text` is the output as GNU `diff` writes it.
-/
namespace Jamsesh.UnifiedDiff

open List Text

/-! ## Files -/

structure Line where
  text : Text
  ended : Bool
deriving DecidableEq

def Line.bytes (l : Line) : Text := if l.ended then l.text ++ ['\n'] else l.text

def fileText (ls : List Line) : Text := ls.flatMap Line.bytes

/-- **The lines of a file**: without newlines inside, and only the last one may lack its own; then it is not empty. -/
structure IsFile (ls : List Line) : Prop where
  no_newline : ∀ l ∈ ls, '\n' ∉ l.text
  ended : ∀ l ∈ ls.dropLast, l.ended = true
  nonempty : ∀ l ∈ ls, l.ended = false → l.text ≠ []

theorem IsFile.tail {l : Line} {ls : List Line} (h : IsFile (l :: ls)) : IsFile ls where
  no_newline := fun l' hl' => h.no_newline l' (mem_cons_of_mem l hl')
  ended := fun l' hl' => by
    cases ls with
    | nil => cases hl'
    | cons => exact h.ended l' (mem_cons_of_mem l hl')
  nonempty := fun l' hl' => h.nonempty l' (mem_cons_of_mem l hl')

theorem IsFile.head_ended {l m : Line} {ls : List Line} (h : IsFile (l :: m :: ls)) : l.ended = true :=
  h.ended l mem_cons_self

theorem IsFile.ne_nil {ls : List Line} (h : IsFile ls) (hne : ls ≠ []) : fileText ls ≠ [] := by
  obtain ⟨l, _, rfl⟩ := exists_cons_of_ne_nil hne
  cases hl : l.ended with
  | true => simp [fileText, Line.bytes, hl]
  | false => simp [fileText, Line.bytes, hl, h.nonempty l mem_cons_self hl]

theorem length_le_fileText : ∀ {ls : List Line}, IsFile ls → ls.length ≤ (fileText ls).length
  | [], _ => Nat.le_refl 0
  | l :: ls, h => by
    have ih := length_le_fileText h.tail
    have hp : 0 < l.bytes.length := by
      unfold Line.bytes
      cases hl : l.ended with
      | true => simp
      | false => simpa [length_pos_iff] using h.nonempty l mem_cons_self hl
    have hc : fileText (l :: ls) = l.bytes ++ fileText ls := rfl
    rw [hc, length_append, length_cons]
    omega

theorem trimSuffix_fileText : ∀ (ls : List Line), ls ≠ [] → IsFile ls →
    trimSuffix (fileText ls) ['\n'] = ['\n'].intercalate (ls.map Line.text)
  | [], h, _ => absurd rfl h
  | [l], _, h => by
    cases he : l.ended with
    | true => simp [fileText, Line.bytes, he, trimSuffix_concat]
    | false => simp [fileText, Line.bytes, he, trimSuffix_of_not_mem (h.no_newline l mem_cons_self)]
  | l :: m :: ls, _, h => by
    have hc : fileText (l :: m :: ls) = (l.text ++ ['\n']) ++ fileText (m :: ls) := by
      simp [fileText, Line.bytes, h.head_ended]
    rw [hc, trimSuffix_append _ (h.tail.ne_nil (by simp)), trimSuffix_fileText (m :: ls) (by simp) h.tail]
    simp

/-! ## Edits -/

inductive Op where
  | keep (l : Line)
  | del (l : Line)
  | add (l : Line)
deriving DecidableEq

def Op.base : Op → Option Line
  | keep l => some l
  | del l => some l
  | add _ => none

def Op.other : Op → Option Line
  | keep l => some l
  | del _ => none
  | add l => some l

def baseLines (ops : List Op) : List Line := ops.filterMap Op.base
def otherLines (ops : List Op) : List Line := ops.filterMap Op.other

theorem baseLines_append (xs ys : List Op) : baseLines (xs ++ ys) = baseLines xs ++ baseLines ys := filterMap_append

theorem baseLines_keep (ls : List Line) : baseLines (ls.map .keep) = ls := by
  unfold baseLines
  rw [filterMap_map]
  exact filterMap_some

structure Hunk where
  gap : List Line
  ops : List Op
deriving DecidableEq

def Hunk.all (h : Hunk) : List Op := h.gap.map .keep ++ h.ops

/-! ## The output -/

structure Range where
  before : Nat
  len : Nat
deriving DecidableEq

/-- The number a range starts with: its first line, or the line before an empty range. -/
def Range.start (r : Range) : Nat := if r.len = 0 then r.before else r.before + 1

def Range.text (r : Range) : Text :=
  Nat.toDigits 10 r.start ++ if r.len = 1 then [] else ',' :: Nat.toDigits 10 r.len

inductive OutLine where
  | oldName (name : Text)
  | newName (name : Text)
  | range (old new : Range)
  | op (o : Op)
  | noNewline
deriving DecidableEq

def OutLine.text : OutLine → Text
  | oldName name => "--- ".toList ++ name
  | newName name => "+++ ".toList ++ name
  | range old new => "@@ -".toList ++ (old.text ++ (" +".toList ++ (new.text ++ " @@".toList)))
  | op (.keep l) => ' ' :: l.text
  | op (.del l) => '-' :: l.text
  | op (.add l) => '+' :: l.text
  | noNewline => "\\ No newline at end of file".toList

theorem OutLine.text_oldName (name : Text) : (OutLine.oldName name).text = "--- ".toList ++ name := rfl
theorem OutLine.text_newName (name : Text) : (OutLine.newName name).text = "+++ ".toList ++ name := rfl
theorem OutLine.text_range (old new : Range) :
    (OutLine.range old new).text = "@@ -".toList ++ (old.text ++ (" +".toList ++ (new.text ++ " @@".toList))) := rfl

def Op.line : Op → Line
  | keep l => l
  | del l => l
  | add l => l

def Op.out (o : Op) : List OutLine := .op o :: if o.line.ended then [] else [.noNewline]

/-- The output for the hunks, after `before` lines of the base and `before'` of the other file. -/
def hunksOut : Nat → Nat → List Hunk → List OutLine
  | _, _, [] => []
  | before, before', h :: hs =>
    let old : Range := ⟨before + h.gap.length, (baseLines h.ops).length⟩
    let new : Range := ⟨before' + h.gap.length, (otherLines h.ops).length⟩
    .range old new :: (h.ops.flatMap Op.out ++ hunksOut (old.before + old.len) (new.before + new.len) hs)

def allOps (hunks : List Hunk) (tail : List Line) : List Op := hunks.flatMap Hunk.all ++ tail.map .keep

/-- **A unified diff of two files**: a hunk shows some line of the base, unless the base is empty, and ends in a kept line,
unless it is the last. -/
structure Script where
  oldName : Text
  newName : Text
  hunks : List Hunk
  tail : List Line
  old_no_newline : '\n' ∉ oldName
  new_no_newline : '\n' ∉ newName
  base_isFile : IsFile (baseLines (allOps hunks tail))
  other_isFile : IsFile (otherLines (allOps hunks tail))
  anchored : ∀ h ∈ hunks, baseLines h.ops ≠ [] ∨ baseLines (allOps hunks tail) = []
  followed : ∀ h ∈ hunks.dropLast, ∃ l, h.ops.getLast? = some (.keep l)

namespace Script

variable (s : Script)

def ops : List Op := allOps s.hunks s.tail
def base : Text := fileText (baseLines s.ops)
def other : Text := fileText (otherLines s.ops)

def out : List OutLine :=
  if s.hunks = [] then [] else .oldName s.oldName :: .newName s.newName :: hunksOut 0 0 s.hunks

def text : Text := s.out.flatMap (fun l => l.text ++ ['\n'])

end Script

end Jamsesh.UnifiedDiff
