import Jamsesh.Heuristics
/-!
# ConflictRanges — the ranges of a file with conflict markers (`ParseConflictRanges`)

The ranges are in order, apart and within the file, whatever the file is; of what `git merge-file` writes they are its conflict
regions (`parseConflictRanges_spec`).
-/
namespace Jamsesh.Automerger

open List Text

/-! ## Any file -/

/-- Ranges from `lo` to `hi`, each after the one before. -/
def Ordered (lo hi : Nat) (rs : List LineRange) : Prop :=
  rs.Pairwise (·.last < ·.first) ∧ ∀ r ∈ rs, lo ≤ r.first ∧ r.first ≤ r.last ∧ r.last ≤ hi

theorem Ordered.cons {lo hi : Nat} {r : LineRange} {rs : List LineRange} (hlo : lo ≤ r.first) (hr : r.first ≤ r.last)
    (hhi : r.last ≤ hi) (h : Ordered (r.last + 1) hi rs) : Ordered lo hi (r :: rs) := by
  refine ⟨pairwise_cons.2 ⟨fun r' hr' => (h.2 r' hr').1, h.1⟩, forall_mem_cons.2 ⟨⟨hlo, hr, hhi⟩, fun r' hr' => ?_⟩⟩
  obtain ⟨hf, hrest⟩ := h.2 r' hr'
  exact ⟨by omega, hrest⟩

theorem rangesLoop_cons (n : Nat) (opened : Option Nat) (l : Text) (ls : List Text) :
    rangesLoop n opened (l :: ls) =
      if hasPrefix l "<<<<<<<".toList then rangesLoop (n + 1) (some n) ls
      else if hasPrefix l ">>>>>>>".toList then
        opened.elim [] (fun start => [⟨start, n⟩]) ++ rangesLoop (n + 1) none ls
      else rangesLoop (n + 1) opened ls := by
  cases opened <;> rfl

theorem rangesLoop_ordered (ls : List Text) : ∀ (n lo : Nat) (opened : Option Nat), lo ≤ n + 1 →
    (∀ s ∈ opened, lo ≤ s ∧ s ≤ n) → Ordered lo (n + ls.length) (rangesLoop (n + 1) opened ls) := by
  induction ls with
  | nil =>
    intro n lo opened _ h
    cases opened with
    | none => exact ⟨Pairwise.nil, nofun⟩
    | some s => exact .cons (h s rfl).1 (h s rfl).2 le_rfl ⟨Pairwise.nil, nofun⟩
  | cons l ls ih =>
    intro n lo opened hlo h
    rw [rangesLoop_cons, length_cons, Nat.add_left_comm, Nat.add_comm]
    split
    · exact ih (n + 1) lo _ (by omega) (by simpa using hlo)
    split
    · cases opened with
      | none => exact ih (n + 1) lo none (by omega) nofun
      | some s =>
        exact .cons (h s rfl).1 (Nat.le_succ_of_le (h s rfl).2) (Nat.le_add_right _ _) (ih (n + 1) _ none le_rfl nofun)
    · exact ih (n + 1) lo opened (by omega) fun s hs => ⟨(h s hs).1, Nat.le_succ_of_le (h s hs).2⟩

/-! ## What `git merge-file` writes -/

/-- A part of what `git merge-file` writes: a line, or a conflict.  Between the markers, which go on with a label, are our
lines, those of the base if `merge.conflictStyle` asks for them, and theirs, with separators. -/
inductive Segment where
  | merged (l : Text)
  | conflict (ours : Text) (between : List Text) (theirs : Text)

namespace Segment

def inner : Segment → List Text
  | merged l => [l]
  | conflict _ between _ => between

def lines : Segment → List Text
  | merged l => [l]
  | conflict ours between theirs => ("<<<<<<<".toList ++ ours) :: (between ++ [">>>>>>>".toList ++ theirs])

/-- The conflicts, each from its opening to its closing line, when the first line is the `n`-th. -/
def regions : Nat → List Segment → List LineRange
  | _, [] => []
  | n, merged _ :: ps => regions (n + 1) ps
  | n, conflict _ between _ :: ps => ⟨n, n + 1 + between.length⟩ :: regions (n + 1 + between.length + 1) ps

end Segment

/-- A line that neither opens nor closes a conflict, as a separator. -/
def Inner (l : Text) : Prop := hasPrefix l "<<<<<<<".toList = false ∧ hasPrefix l ">>>>>>>".toList = false

theorem rangesLoop_inner (opened : Option Nat) (rest : List Text) : ∀ (ls : List Text) (n : Nat), (∀ l ∈ ls, Inner l) →
    rangesLoop n opened (ls ++ rest) = rangesLoop (n + ls.length) opened rest
  | [], _, _ => rfl
  | l :: ls, n, h => by
    obtain ⟨hl, hls⟩ := forall_mem_cons.1 h
    rw [cons_append, rangesLoop_cons, hl.1, hl.2, length_cons, ← Nat.add_assoc, Nat.add_right_comm]
    exact rangesLoop_inner opened rest ls (n + 1) hls

theorem rangesLoop_segments : ∀ (ps : List Segment) (n : Nat), (∀ p ∈ ps, ∀ l ∈ p.inner, Inner l) →
    rangesLoop n none (ps.flatMap Segment.lines) = Segment.regions n ps
  | [], _, _ => rfl
  | .merged l :: ps, n, h => by
    obtain ⟨hp, hps⟩ := forall_mem_cons.1 h
    rw [flatMap_cons]
    exact (rangesLoop_inner none _ [l] n hp).trans (rangesLoop_segments ps (n + 1) hps)
  | .conflict ours between theirs :: ps, n, h => by
    obtain ⟨hp, hps⟩ := forall_mem_cons.1 h
    have hc : rangesLoop (n + 1 + between.length) (some n) ((">>>>>>>".toList ++ theirs) :: ps.flatMap Segment.lines) =
      ⟨n, n + 1 + between.length⟩ :: rangesLoop (n + 1 + between.length + 1) none (ps.flatMap Segment.lines) := rfl
    rw [Segment.regions, ← rangesLoop_segments ps _ hps, ← hc, ← rangesLoop_inner (some n) _ between (n + 1) hp,
      flatMap_cons, Segment.lines, cons_append, append_assoc]
    rfl

/-- **The conflict ranges of a file**: in order, apart and within it; of what `git merge-file` writes, where no other line
looks like a marker, one for each conflict, from its opening to its closing line. -/
theorem parseConflictRanges_spec (content : Text) :
    Ordered 1 (rawLines content).length (parseConflictRanges content) ∧
      ∀ ps : List Segment, rawLines content = ps.flatMap Segment.lines → (∀ p ∈ ps, ∀ l ∈ p.inner, Inner l) →
        parseConflictRanges content = Segment.regions 1 ps := by
  refine ⟨?_, fun ps hps hi => ?_⟩
  · simpa [parseConflictRanges] using rangesLoop_ordered (rawLines content) 0 1 none le_rfl nofun
  · rw [parseConflictRanges, hps, rangesLoop_segments ps 1 hi]

example : parseConflictRanges "a\n<<<<<<< ours\nb\n=======\nc\n>>>>>>> theirs\nd".toList = [⟨2, 6⟩] := by decide

end Jamsesh.Automerger
