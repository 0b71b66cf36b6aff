import Mathlib.Data.List.TakeWhile
import Mathlib.Logic.ExistsUnique
import NamedLambda.Report.Line

/-!
# The lines of a source

The lines are the pieces between line feeds, without an empty last one. A source is empty, or a line
without a line feed, or a line with its line feed and a source after it; what is said about all
lines is proved along this. Each line starts right after the line feed of the one before it, so
every character, line feeds included, stands on exactly one line, and a later character stands
on the same line or on a later one.
-/

namespace NamedLambda

set_option autoImplicit false

theorem isLineChar_of_mem {cs : List Char} (h : '\n' ∉ cs) : ∀ c ∈ cs, isLineChar c = true := by
  intro c hc
  rw [isLineChar, decide_eq_true_eq]
  rintro rfl
  exact h hc

theorem linesFrom_nil (offset : Nat) : linesFrom offset [] = [] := by
  rw [linesFrom, dif_pos rfl]

theorem linesFrom_last {cs : List Char} (hNonempty : cs ≠ []) (h : '\n' ∉ cs) (offset : Nat) :
    linesFrom offset cs = [.ofChars offset cs] := by
  have hTake : cs.takeWhile isLineChar = cs := List.takeWhile_eq_self_iff.mpr (isLineChar_of_mem h)
  have hDrop : cs.dropWhile isLineChar = [] := List.dropWhile_eq_nil_iff.mpr (isLineChar_of_mem h)
  rw [linesFrom, dif_neg hNonempty, hTake, hDrop, List.drop_nil]
  exact congrArg _ (linesFrom_nil _)

theorem takeWhile_isLineChar_append {cs : List Char} (h : '\n' ∉ cs) (rest : List Char) :
    (cs ++ '\n' :: rest).takeWhile isLineChar = cs := by
  have hStop : ¬ isLineChar '\n' = true := by decide
  rw [List.takeWhile_append_of_pos (isLineChar_of_mem h), List.takeWhile_cons_of_neg hStop, List.append_nil]

theorem linesFrom_append {cs : List Char} (h : '\n' ∉ cs) (offset : Nat) (rest : List Char) :
    linesFrom offset (cs ++ '\n' :: rest) =
      .ofChars offset cs :: linesFrom (offset + cs.length + 1) rest := by
  have hStop : ¬ isLineChar '\n' = true := by decide
  have hDrop : (cs ++ '\n' :: rest).dropWhile isLineChar = '\n' :: rest := by
    rw [List.dropWhile_append_of_pos (isLineChar_of_mem h), List.dropWhile_cons_of_neg hStop]
  rw [linesFrom, dif_neg (List.append_ne_nil_of_right_ne_nil cs (List.cons_ne_nil _ _)),
    takeWhile_isLineChar_append h, hDrop]
  rfl

theorem line_induction {motive : List Char → Prop} (nil : motive [])
    (last : ∀ cs, cs ≠ [] → '\n' ∉ cs → motive cs)
    (more : ∀ cs rest, '\n' ∉ cs → motive rest → motive (cs ++ '\n' :: rest)) (cs : List Char) :
    motive cs := by
  by_cases hNonempty : cs = []
  · rw [hNonempty]
    exact nil
  · by_cases hFeed : '\n' ∈ cs
    · obtain ⟨line, rest, hSplit, hLine⟩ := List.eq_append_cons_of_mem hFeed
      rw [hSplit]
      exact more line rest hLine (line_induction nil last more rest)
    · exact last cs hNonempty hFeed
termination_by cs.length
decreasing_by
  rw [hSplit, List.length_append, List.length_cons]
  omega

/-- The pieces of a text between its line feeds, without the last one if that is empty. -/
def pieces (cs : List Char) : List (List Char) :=
  if (cs.splitOn '\n').getLast? = some [] then (cs.splitOn '\n').dropLast else cs.splitOn '\n'

/-- Lines of the given characters one after the other, with a line feed between them. -/
def placed (offset : Nat) : List (List Char) → List Line
  | [] => []
  | cs :: rest => .ofChars offset cs :: placed (offset + cs.length + 1) rest

theorem pieces_append {cs : List Char} (h : '\n' ∉ cs) (rest : List Char) :
    pieces (cs ++ '\n' :: rest) = cs :: pieces rest := by
  have hRest := List.splitOn_ne_nil '\n' rest
  unfold pieces
  rw [List.splitOn_append_cons_self_of_not_mem h, List.getLast?_cons_of_ne_nil hRest,
    List.dropLast_cons_of_ne_nil hRest]
  split <;> rfl

theorem linesFrom_eq_placed (offset : Nat) (cs : List Char) :
    linesFrom offset cs = placed offset (pieces cs) := by
  induction cs using line_induction generalizing offset with
  | nil => rw [linesFrom_nil]; rfl
  | last cs hNonempty h =>
    have hPieces : pieces cs = [cs] := by
      rw [pieces, List.splitOn_eq_singleton h]
      exact if_neg (mt Option.some.inj hNonempty)
    rw [linesFrom_last hNonempty h, hPieces]
    rfl
  | more cs rest h ih =>
    rw [linesFrom_append h, pieces_append h, ih]
    rfl

theorem Line.holds_iff {line : Line} {pos : Nat} :
    line.holds pos = true ↔ line.offset ≤ pos ∧ pos ≤ line.offset + line.length := by
  rw [holds, Bool.and_eq_true, decide_eq_true_eq, decide_eq_true_eq]

theorem exists_line (offset : Nat) {cs : List Char} {pos : Nat} (h : pos < cs.length) :
    ∃ line ∈ linesFrom offset cs, line.holds (offset + pos) = true := by
  induction cs using line_induction generalizing offset pos with
  | nil => exact absurd h (Nat.not_lt_zero pos)
  | last cs hNonempty hLine =>
    rw [linesFrom_last hNonempty hLine]
    refine ⟨_, List.mem_singleton.mpr rfl, Line.holds_iff.mpr ⟨?_, ?_⟩⟩
    · exact Nat.le_add_right offset pos
    · exact Nat.add_le_add_left (Nat.le_of_lt h) offset
  | more cs rest hLine ih =>
    rw [linesFrom_append hLine]
    by_cases hPos : pos ≤ cs.length
    · refine ⟨_, List.mem_cons_self, Line.holds_iff.mpr ⟨?_, ?_⟩⟩
      · exact Nat.le_add_right offset pos
      · exact Nat.add_le_add_left hPos offset
    · rw [List.length_append, List.length_cons] at h
      have hRest : pos - (cs.length + 1) < rest.length := by omega
      obtain ⟨line, hMem, hHolds⟩ := ih (offset + cs.length + 1) hRest
      have hPlace : offset + cs.length + 1 + (pos - (cs.length + 1)) = offset + pos := by omega
      exact ⟨line, List.mem_cons_of_mem _ hMem, hPlace ▸ hHolds⟩

theorem le_offset_of_mem {line : Line} {ps : List (List Char)} {offset : Nat} (h : line ∈ placed offset ps) :
    offset ≤ line.offset := by
  induction ps generalizing offset with
  | nil => cases h
  | cons cs ps ih =>
    rcases List.mem_cons.mp h with rfl | hRest
    · exact Nat.le_refl offset
    · have hLe := ih hRest
      omega

/-- A line ends before the next one starts. -/
theorem placed_ordered (offset : Nat) (ps : List (List Char)) :
    (placed offset ps).Pairwise fun line next => line.offset + line.length < next.offset := by
  induction ps generalizing offset with
  | nil => exact .nil
  | cons cs ps ih => exact .cons (fun line hLine => le_offset_of_mem hLine) (ih _)

/-- The character at `pos` stands on the line `l`. -/
def StandsOn (source : String) (pos : Nat) (l : NumberedLine) : Prop :=
  (lines source)[l.index]? = some l.line ∧ l.line.holds pos = true

section

variable {source : String} {pos pos' : Nat} {l l' : NumberedLine}

theorem StandsOn.index_le (h : StandsOn source pos l) (h' : StandsOn source pos' l') (hPos : pos ≤ pos') :
    l.index ≤ l'.index := by
  obtain ⟨hLine, hHolds⟩ := h
  obtain ⟨hLine', hHolds'⟩ := h'
  refine Nat.le_of_not_lt fun hLt => ?_
  obtain ⟨hIndex, hEq⟩ := List.getElem?_eq_some_iff.mp hLine
  obtain ⟨hIndex', hEq'⟩ := List.getElem?_eq_some_iff.mp hLine'
  have hOrdered : (lines source).Pairwise fun line next => line.offset + line.length < next.offset := by
    rw [lines, linesFrom_eq_placed]
    exact placed_ordered 0 _
  -- Were the line of `pos'` the earlier one, it would end, with its line feed, before `pos`.
  have hBefore := List.pairwise_iff_getElem.mp hOrdered _ _ hIndex' hIndex hLt
  rw [hEq, hEq'] at hBefore
  have hStart := (Line.holds_iff.mp hHolds).1
  have hStop := (Line.holds_iff.mp hHolds').2
  omega

theorem StandsOn.unique (h : StandsOn source pos l) (h' : StandsOn source pos l') : l = l' := by
  obtain ⟨index, line⟩ := l
  obtain ⟨index', line'⟩ := l'
  obtain rfl : index = index' :=
    Nat.le_antisymm (h.index_le h' (Nat.le_refl pos)) (h'.index_le h (Nat.le_refl pos))
  obtain rfl : line = line' := Option.some.inj (h.1.symm.trans h'.1)
  rfl

theorem exists_standsOn (h : pos < source.length) : ∃ l, StandsOn source pos l := by
  rw [← String.length_toList] at h
  obtain ⟨line, hMem, hHolds⟩ := exists_line 0 h
  obtain ⟨index, hIndex⟩ := List.getElem?_of_mem hMem
  exact ⟨⟨index, line⟩, hIndex, Nat.zero_add pos ▸ hHolds⟩

theorem existsUnique_standsOn (h : pos < source.length) : ∃! l, StandsOn source pos l := by
  obtain ⟨l, hl⟩ := exists_standsOn h
  exact ⟨l, hl, fun l' hl' => hl'.unique hl⟩

theorem standsOn_of_lineAt? (h : lineAt? source pos = some l) : StandsOn source pos l := by
  obtain ⟨⟨line, index⟩, hMem, hSome⟩ := List.exists_of_findSome?_eq_some h
  have hLine : (lines source)[index]? = some line := List.mem_zipIdx_iff_getElem?.mp hMem
  simp only at hSome
  split at hSome
  case isTrue hHolds =>
    cases hSome
    exact ⟨hLine, hHolds⟩
  case isFalse => cases hSome

theorem lineAt?_eq_some_iff : lineAt? source pos = some l ↔ StandsOn source pos l := by
  refine ⟨standsOn_of_lineAt?, fun h => ?_⟩
  have hFound : (lineAt? source pos).isSome = true := by
    refine List.findSome?_isSome_iff.mpr ⟨(l.line, l.index), List.mem_zipIdx_iff_getElem?.mpr h.1, ?_⟩
    exact congrArg Option.isSome (if_pos h.2)
  obtain ⟨l', hl'⟩ := Option.isSome_iff_exists.mp hFound
  rw [hl', (standsOn_of_lineAt? hl').unique h]

end

end NamedLambda
