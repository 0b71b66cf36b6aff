import NamedLambda.Proofs.SourceLines
import NamedLambda.Proofs.SyntaxErrors
import NamedLambda.Proofs.TokenPartition
import NamedLambda.Report

/-!
# What a report points at

Whatever span it is given, a report on a source that is not empty points at a part of the source that
is not empty either: the span itself where it is such a part, and else the nearest one. So both ends
of that part stand on a line and there is always something to draw. The span of a syntax error
is that of a token or of the whole text, and stays as it is; only the end of the text is
outside, and the last character is shown in its place.

The part is found by a clamp, which fails if its bounds are the wrong way round, and by an addition,
which fails if the sum is too large a number. Neither happens.
-/

namespace NamedLambda

set_option autoImplicit false

/-- The nearest number from `low` to `high`. -/
def clamp? (low high n : Nat) : Option Nat :=
  if low ≤ high then some (if n < low then low else if high < n then high else n) else none

/-- The sum, where numbers go up to `limit`. -/
def addWithin? (limit m n : Nat) : Option Nat := if m + n ≤ limit then some (m + n) else none

/-- The part of a source of `length` characters that a report points at, found by steps that may
fail. -/
def Span.labelWithin? (limit : Nat) (span : Span) (length : Nat) : Option Span := do
  let start := min span.start (length - 1)
  let stop ← clamp? start length span.stop
  let least ← addWithin? limit start (if 0 < length then 1 else 0)
  return ⟨start, max stop least⟩

theorem clamp?_of_le {low high : Nat} (h : low ≤ high) (n : Nat) :
    clamp? low high n = some (min (max n low) high) := by
  rw [clamp?, if_pos h]
  split
  · congr 1
    omega
  · split
    · congr 1
      omega
    · congr 1
      omega

namespace Span

variable {length : Nat}

theorem labelWithin?_eq_label (span : Span) (hPos : 0 < length) {limit : Nat} (hLimit : length ≤ limit) :
    span.labelWithin? limit length = some (span.label length) := by
  have hStart : min span.start (length - 1) ≤ length := by omega
  have hSum : min span.start (length - 1) + 1 ≤ limit := by omega
  simp only [labelWithin?, clamp?_of_le hStart, addWithin?, if_pos hPos, if_pos hSum]
  rfl

theorem holds_iff {span : Span} {pos : Nat} : span.holds pos = true ↔ span.Covers pos := by
  rw [holds, Bool.and_eq_true, decide_eq_true_eq, decide_eq_true_eq, Covers]

theorem start_lt_stop_label (span : Span) (length : Nat) :
    (span.label length).start < (span.label length).stop :=
  Nat.le_max_right _ _

theorem stop_label_le (span : Span) (hPos : 0 < length) : (span.label length).stop ≤ length := by
  simp only [label]
  omega

theorem label_eq_self {span : Span} (hNonempty : span.start < span.stop) (hInside : span.stop ≤ length) :
    span.label length = span := by
  obtain ⟨start, stop⟩ := span
  simp only [label, mk.injEq] at hNonempty hInside ⊢
  omega

theorem label_end (hPos : 0 < length) :
    (⟨length, length + 1⟩ : Span).label length = ⟨length - 1, length⟩ := by
  simp only [label, mk.injEq]
  omega

end Span

namespace Diagnostic

/-- A report on `source` shows the part `label` of it. -/
structure PointsAt (d : Diagnostic) (source : String) (label : Span) : Prop where
  found : ∀ limit, source.length ≤ limit → d.span.labelWithin? limit source.length = some label
  nonempty : label.start < label.stop
  inSource : label.stop ≤ source.length
  kept : d.span.start < d.span.stop → d.span.stop ≤ source.length → label = d.span
  fixed : label.label source.length = label
  startLine : ∃! l, StandsOn source label.start l
  stopLine : ∃! l, StandsOn source (label.stop - 1) l
  linesInOrder : ∀ first last, StandsOn source label.start first → StandsOn source (label.stop - 1) last →
    first.index ≤ last.index
  drawn : ∃ text, d.report? source = some text

/-- The rows of a report whose label starts and ends on given lines. -/
theorem rows?_eq (d : Diagnostic) {source : String} {first last : NumberedLine}
    (hFirst : StandsOn source (d.span.label source.length).start first)
    (hLast : StandsOn source ((d.span.label source.length).stop - 1) last) :
    d.rows? source = some (Report.rows (d.span.label source.length) d.reason first last) := by
  simp only [rows?, lineAt?_eq_some_iff.mpr hFirst, lineAt?_eq_some_iff.mpr hLast]
  rfl

theorem pointsAt_label (d : Diagnostic) {source : String} (hSource : 0 < source.length) :
    d.PointsAt source (d.span.label source.length) := by
  have hNonempty := d.span.start_lt_stop_label source.length
  have hInSource := d.span.stop_label_le hSource
  have hStart : (d.span.label source.length).start < source.length := by omega
  have hStop : (d.span.label source.length).stop - 1 < source.length := by omega
  refine ⟨?_, hNonempty, hInSource, ?_, ?_, ?_, ?_, ?_, ?_⟩
  · intro limit hLimit
    exact d.span.labelWithin?_eq_label hSource hLimit
  · exact Span.label_eq_self
  · exact Span.label_eq_self hNonempty hInSource
  · exact existsUnique_standsOn hStart
  · exact existsUnique_standsOn hStop
  · intro first last hFirst hLast
    exact hFirst.index_le hLast (by omega)
  · obtain ⟨first, hFirst⟩ := exists_standsOn hStart
    obtain ⟨last, hLast⟩ := exists_standsOn hStop
    rw [report?, d.rows?_eq hFirst hLast]
    exact ⟨_, rfl⟩

end Diagnostic

namespace SyntaxError

def atEnd : SyntaxError → Bool
  | unexpected none _ _ => true
  | _ => false

theorem label_of_parse {source : String} (hSource : 0 < source.length) {e : SyntaxError}
    (h : Term.parse source = .error e) :
    e.span.label source.length = if e.atEnd then ⟨source.length - 1, source.length⟩ else e.span := by
  by_cases hTokens : tokens source = []
  · rw [parse_of_no_tokens hTokens] at h
    cases h
    exact Span.label_eq_self hSource (Nat.le_refl _)
  · obtain ⟨i, r, _, _, _, rfl⟩ := (parse_eq_error_iff hTokens e).mp h
    rw [tokenAt, spanAt]
    cases hl : (tokens source)[i]? with
    | none => exact Span.label_end hSource
    | some l =>
      have hMem := List.mem_of_getElem? hl
      have hPartitions := partitions_tokens source
      exact Span.label_eq_self (hPartitions.nonempty l hMem) (hPartitions.inText l hMem)

end SyntaxError

theorem report_points_into_source (source : String) (hSource : source ≠ "") :
    lines source = placed 0 (pieces source.toList) ∧
      (∀ d : Diagnostic, d.PointsAt source (d.span.label source.length)) ∧
      ∀ e, Term.parse source = .error e →
        e.span.label source.length = if e.atEnd then ⟨source.length - 1, source.length⟩ else e.span := by
  have hPos : 0 < source.length := by
    rw [← String.length_toList, List.length_pos_iff]
    exact mt String.toList_eq_nil_iff.mp hSource
  refine ⟨?_, ?_, ?_⟩
  · exact linesFrom_eq_placed 0 source.toList
  · intro d
    exact d.pointsAt_label hPos
  · intro e h
    exact SyntaxError.label_of_parse hPos h

theorem report_points_into_source_finalLineFeed :
    let e : SyntaxError := .unexpected none ⟨3, 4⟩ .nested
    let d : Diagnostic := ⟨⟨9, 2⟩, "reversed"⟩
    "(x\n" ≠ "" ∧ Term.parse "(x\n" = .error e ∧ e.span.label 3 = ⟨2, 3⟩ ∧ d.PointsAt "(x\n" ⟨2, 3⟩ ∧
      StandsOn "(x\n" 2 ⟨0, ⟨0, 2, ['(', 'x']⟩⟩ := by
  intro e d
  have hSource : "(x\n" ≠ "" := by decide
  have hParse : Term.parse "(x\n" = .error e := by decide +kernel
  obtain ⟨_, hPoints, hError⟩ := report_points_into_source "(x\n" hSource
  exact ⟨hSource, hParse, hError e hParse, hPoints d, by decide +kernel, rfl⟩

end NamedLambda
