import Jamsesh.Trailers
/-!
# Heuristics — conflicts the auto-merger settles by itself (`automerger/heuristics.go`, `automerger/conflicts.go`)

A file that `git merge-file` could not merge is tried under three rules: both sides made the same edit, only trailing
whitespace differs, or both sides only added lines.  The output of `diff -u` is a parameter (`Diff`).  File contents are byte
strings, one character a byte.
-/
namespace Jamsesh.Automerger

open Text

/-- `runDiff` on two files with these contents. -/
abbrev Diff := Text → Text → Except String Text

inductive Heuristic where
  | identical | whitespace | additions
deriving DecidableEq

def Heuristic.label : Heuristic → String
  | identical => "identical"
  | whitespace => "whitespace"
  | additions => "additions"

def heuristicPriority : Heuristic → Int
  | .identical => 0
  | .whitespace => 1
  | .additions => 2

/-! ## Lines -/

def normaliseLF (b : Text) : Text := Trailers.replaceCRLF b

def splitLines (b : Text) : List Text := if b = [] then [] else split '\n' (trimSuffix b ['\n'])

def leadingTabs (s : Text) : Nat := (s.takeWhile (· == '\t')).length

-- bufio.MaxScanTokenSize: a longer line ends the scan without a word
def maxToken : Nat := 65536

def dropCR (line : Text) : Text := trimSuffix line ['\r']

/-- The pieces of `s` that a newline ends, and the last one if it is not empty. -/
def rawLines (s : Text) : List Text :=
  match (split '\n' s).reverse with
  | [] :: front => front.reverse
  | pieces => pieces.reverse

/-- The tokens of a `bufio.Scanner` with `ScanLines`. -/
def scanLines (s : Text) : List Text := ((rawLines s).takeWhile (fun l => l.length < maxToken)).map dropCR

/-! ## The unified diff -/

/-- Lines added after base line `afterBaseLine` (from 0; -1 is before the first). -/
structure AddHunk where
  afterBaseLine : Int
  addedLines : List Text
deriving DecidableEq

def isDigit (c : Char) : Bool := '0' ≤ c && c ≤ '9'

def digitsValue (s : Text) : Nat := s.foldl (fun n c => 10 * n + (c.toNat - '0'.toNat)) 0

def splitSign : Text → Int × Text
  | '-' :: rest => (-1, rest)
  | '+' :: rest => (1, rest)
  | s => (1, s)

def atoi (s : Text) : Except String Int :=
  let digits := (splitSign s).2
  if digits = [] ∨ !digits.all isDigit then .error "invalid syntax"
  else
    let n := (splitSign s).1 * digitsValue digits
    if n < -(2 ^ 63) ∨ 2 ^ 63 ≤ n then .error "value out of range" else .ok n

/-- `parseHunkHeader`: the old range's start and length. -/
def parseHunkHeader (line : Text) : Except String (Int × Int) :=
  match index line "@@ -".toList with
  | none => .ok (0, 0)
  | some start =>
    let rest := line.drop (start + 4)
    let oldRange := match index rest " +".toList with
      | none => rest
      | some stop => rest.take stop
    match index oldRange ",".toList with
    | some comma => do
      let oldStart ← atoi (oldRange.take comma)
      let oldLen ← atoi (oldRange.drop (comma + 1))
      return (oldStart, oldLen)
    | none => do
      let oldStart ← atoi oldRange
      return (oldStart, 1)

structure DiffState where
  hunks : List AddHunk
  current : Option AddHunk
  baseLineNo : Int
deriving DecidableEq

inductive DiffStep where
  | next (st : DiffState)
  | notPureAdd
  | fail (e : String)
deriving DecidableEq

def diffStep (st : DiffState) (line : Text) : DiffStep :=
  if hasPrefix line "---".toList ∨ hasPrefix line "+++".toList then .next st
  else if hasPrefix line "@@ ".toList then
    match parseHunkHeader line with
    | .error e => .fail e
    -- an open hunk that still holds additions is dropped here
    | .ok (oldStart, _) => .next { st with baseLineNo := oldStart - 2, current := some ⟨oldStart - 2, []⟩ }
  else if hasPrefix line "-".toList then .notPureAdd
  else if hasPrefix line "+".toList then
    match st.current with
    | none => .next st
    | some h => .next { st with current := some ⟨st.baseLineNo, h.addedLines ++ [line.drop 1]⟩ }
  else
    match st.current with
    | none => .next st
    | some h =>
      let n := st.baseLineNo + 1
      if h.addedLines.length > 0 then .next ⟨st.hunks ++ [h], some ⟨n, []⟩, n⟩
      else .next { st with baseLineNo := n, current := some ⟨n, h.addedLines⟩ }

def parseLoop : List Text → DiffState → Except String (Option DiffState)
  | [], st => .ok (some st)
  | line :: lines, st =>
    match diffStep st line with
    | .next st' => parseLoop lines st'
    | .notPureAdd => .ok none
    | .fail e => .error e

def DiffState.flush (st : DiffState) : List AddHunk :=
  match st.current with
  | some h => if h.addedLines.length > 0 then st.hunks ++ [h] else st.hunks
  | none => st.hunks

/-- `parseUnifiedDiffAddOnly`: `none` is the nil slice, which a diff without additions gives as well. -/
def parseUnifiedDiffAddOnly (diff : Text) : Except String (Option (List AddHunk)) :=
  match parseLoop (scanLines diff) ⟨[], none, -1⟩ with
  | .error e => .error e
  | .ok none => .ok none
  | .ok (some st) => .ok (if st.flush = [] then none else some st.flush)

def diffAddOnly (diff : Diff) (base other : Text) : Except String (Option (List AddHunk)) :=
  if base = other then .ok (some [])
  else do
    let out ← diff base other
    parseUnifiedDiffAddOnly out

/-! ## The three rules -/

def isBinary (b : Text) : Bool := (b.take 8000).contains '\x00'

def isIdenticalEdit (base ours theirs : Text) : Option Text := if ours = theirs ∧ ours ≠ base then some ours else none

def sameUpToBlanks (baseLine line : Text) : Bool :=
  trimRight isBlank line = trimRight isBlank baseLine && leadingTabs line = leadingTabs baseLine

def isWhitespaceOnly (base ours theirs : Text) : Option Text :=
  let baseLines := splitLines (normaliseLF base)
  let oursLines := splitLines (normaliseLF ours)
  let theirsLines := splitLines (normaliseLF theirs)
  if oursLines.length ≠ baseLines.length ∨ theirsLines.length ≠ baseLines.length then none
  else if (List.zipWith sameUpToBlanks baseLines oursLines).all id ∧
      (List.zipWith sameUpToBlanks baseLines theirsLines).all id then some ours
  else none

/-- A line to insert: after which base line, its text, and whether it is theirs. -/
structure AddedLine where
  afterLine : Int
  content : Text
  theirs : Bool
deriving DecidableEq

def addedLines (theirs : Bool) (hunks : List AddHunk) : List AddedLine :=
  hunks.flatMap (fun h => h.addedLines.map (fun l => ⟨h.afterBaseLine, l, theirs⟩))

def AddedLine.le (a b : AddedLine) : Bool :=
  if a.afterLine ≠ b.afterLine then a.afterLine < b.afterLine else !a.theirs || b.theirs

/-- The loop over the base lines from index `i`: additions after line `i - 1` first, what is left at the end. -/
def weave : Int → List Text → List AddedLine → List Text
  | _, [], added => added.map (·.content)
  | i, line :: lines, added =>
    (added.takeWhile (fun a => a.afterLine = i - 1)).map (·.content) ++
      line :: weave (i + 1) lines (added.dropWhile (fun a => a.afterLine = i - 1))

def joinLines (lines : List Text) : Text := lines.flatMap (fun l => l ++ ['\n'])

def isNonOverlappingAddition (diff : Diff) (base ours theirs : Text) : Option Text :=
  match diffAddOnly diff base ours, diffAddOnly diff base theirs with
  | .ok (some oursHunks), .ok (some theirHunks) =>
    let oursAdded := addedLines false oursHunks
    let theirsAdded := addedLines true theirHunks
    -- a line added by both sides escalates
    if theirsAdded.any (fun a => (oursAdded.map (·.content)).contains a.content) then none
    else some (joinLines (weave 0 (splitLines (normaliseLF base)) ((oursAdded ++ theirsAdded).mergeSort AddedLine.le)))
  | _, _ => none

def tryAutoResolve (diff : Diff) (base ours theirs : Text) : Option (Text × Heuristic) :=
  if isBinary base || isBinary ours || isBinary theirs then none
  else match isIdenticalEdit base ours theirs with
    | some r => some (r, .identical)
    | none =>
      match isWhitespaceOnly base ours theirs with
      | some r => some (r, .whitespace)
      | none => (isNonOverlappingAddition diff base ours theirs).map (fun r => (r, .additions))

/-! ## Conflict markers -/

structure LineRange where
  first : Nat
  last : Nat
deriving DecidableEq

/-- The scan over the lines from number `n`, with the start of an open region. -/
def rangesLoop : Nat → Option Nat → List Text → List LineRange
  | n, some start, [] => [⟨start, n - 1⟩]
  | _, none, [] => []
  | n, opened, line :: lines =>
    if hasPrefix line "<<<<<<<".toList then rangesLoop (n + 1) (some n) lines
    else if hasPrefix line ">>>>>>>".toList then
      match opened with
      | some start => ⟨start, n⟩ :: rangesLoop (n + 1) none lines
      | none => rangesLoop (n + 1) none lines
    else rangesLoop (n + 1) opened lines

def parseConflictRanges (content : Text) : List LineRange := rangesLoop 1 none (rawLines content)

end Jamsesh.Automerger
