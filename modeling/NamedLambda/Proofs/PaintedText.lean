import NamedLambda.Proofs.ReportCells
import NamedLambda.Proofs.SourceLines

/-!
# Reading a painted text

A report is written as one text. A terminal cuts it into rows at line feeds; in a row, an escape
sequence takes no cell and sets the paint of the cells after it, and every other character takes a
cell. Rows start plain, as no piece leaves its paint on. Reading a text in this way gives back the
rows that were written.

This is so because nothing else in a row can be taken for an escape sequence. The characters of the source
are arbitrary, but each is painted by itself, so that the escape which ends its paint follows at
once. All other texts are free of escape characters, but for the reason of a report, of which
nothing is known.
-/

namespace NamedLambda

set_option autoImplicit false

/-- The paint with a given code. Any other code takes the paint off. -/
def Paint.ofCode (code : List Char) : Paint :=
  ([red, margin, dim].find? fun paint => paint.code.toList = code).getD plain

def isCodeChar (c : Char) : Bool := c.isDigit || c = ';'

/-- The code of the escape sequence that a text starts with, and what follows the sequence. -/
def escape? : List Char → Option (List Char × List Char)
  | '\x1b' :: '[' :: cs =>
    match cs.dropWhile isCodeChar with
    | 'm' :: rest => some (cs.takeWhile isCodeChar, rest)
    | _ => none
  | _ => none

theorem length_lt_of_escape? {cs code rest : List Char} (h : escape? cs = some (code, rest)) :
    rest.length < cs.length := by
  unfold escape? at h
  split at h
  case h_1 cs =>
    split at h
    case h_1 rest' hDrop =>
      cases h
      have hLe := (List.dropWhile_sublist isCodeChar (l := cs)).length_le
      rw [hDrop] at hLe
      simp only [List.length_cons] at hLe ⊢
      omega
    case h_2 => cases h
  case h_2 => cases h

/-- The cells of a text that starts with the given paint. -/
def readCells (paint : Paint) (cs : List Char) : List Cell :=
  match _hEscape : escape? cs with
  | some (code, rest) => readCells (.ofCode code) rest
  | none =>
    match cs with
    | [] => []
    | c :: cs => ⟨paint, c⟩ :: readCells paint cs
termination_by cs.length
decreasing_by
  · exact length_lt_of_escape? _hEscape
  · exact Nat.lt_succ_self _

/-- A text with all paint taken off. -/
def unpainted (text : String) : String := String.ofList ((readCells .plain text.toList).map Cell.char)

/-- The rows of a text. -/
def readRows (cs : List Char) : List (List Cell) := (cs.splitOn '\n').map (readCells .plain)

theorem escape?_of_code {code : List Char} (h : code.all isCodeChar = true) (rest : List Char) :
    escape? ('\x1b' :: '[' :: (code ++ 'm' :: rest)) = some (code, rest) := by
  rw [List.all_eq_true] at h
  have hStop : ¬ isCodeChar 'm' = true := by decide
  have hTake : (code ++ 'm' :: rest).takeWhile isCodeChar = code := by
    rw [List.takeWhile_append_of_pos h, List.takeWhile_cons_of_neg hStop, List.append_nil]
  have hDrop : (code ++ 'm' :: rest).dropWhile isCodeChar = 'm' :: rest := by
    rw [List.dropWhile_append_of_pos h, List.dropWhile_cons_of_neg hStop]
  simp only [escape?, hDrop, hTake]

theorem escape?_of_ne {c : Char} (h : c ≠ '\x1b') (cs : List Char) : escape? (c :: cs) = none := by
  unfold escape?
  split
  case h_1 hEq => exact absurd (List.cons.inj hEq).1 h
  case h_2 => rfl

/-- An escape character starts no sequence if another one follows. -/
theorem escape?_of_escape (c : Char) (cs : List Char) : escape? (c :: '\x1b' :: cs) = none := by
  unfold escape?
  split
  case h_1 hEq => exact absurd (List.cons.inj (List.cons.inj hEq).2).1 (by decide)
  case h_2 => rfl

section

variable {paint : Paint}

theorem readCells_nil : readCells paint [] = [] := by
  rw [readCells]
  rfl

theorem readCells_cons {c : Char} {cs : List Char} (h : escape? (c :: cs) = none) :
    readCells paint (c :: cs) = ⟨paint, c⟩ :: readCells paint cs := by
  rw [readCells]
  split
  case h_1 hSome => rw [h] at hSome; cases hSome
  case h_2 => rfl

theorem readCells_escape {code : List Char} (h : code.all isCodeChar = true) (rest : List Char) :
    readCells paint ('\x1b' :: '[' :: (code ++ 'm' :: rest)) = readCells (.ofCode code) rest := by
  rw [readCells]
  split
  case h_1 hSome =>
    rw [escape?_of_code h] at hSome
    cases hSome
    rfl
  case h_2 hNone =>
    rw [escape?_of_code h] at hNone
    cases hNone

theorem readCells_append {cs : List Char} (h : '\x1b' ∉ cs) (rest : List Char) :
    readCells paint (cs ++ rest) = cs.map (Cell.mk paint) ++ readCells paint rest := by
  induction cs with
  | nil => rfl
  | cons c cs ih =>
    rw [List.mem_cons, not_or] at h
    rw [List.cons_append, readCells_cons (escape?_of_ne (Ne.symm h.1) _), ih h.2]
    rfl

end

theorem readRows_append (cs rest : List Char) :
    readRows (cs ++ '\n' :: rest) = readRows cs ++ readRows rest := by
  rw [readRows, List.splitOn_append_cons_self, List.map_append]
  rfl

theorem length_readRows (cs : List Char) : (readRows cs).length = cs.count '\n' + 1 := by
  rw [readRows, List.length_map]
  induction cs using line_induction with
  | nil => rfl
  | last cs _ hLine => rw [List.splitOn_eq_singleton hLine, List.count_eq_zero.mpr hLine]; rfl
  | more cs rest hLine ih =>
    rw [List.splitOn_append_cons_self_of_not_mem hLine, List.length_cons, ih, List.count_append,
      List.count_eq_zero.mpr hLine, List.count_cons_self, Nat.zero_add]

theorem exists_readRows_eq_cons (cs : List Char) :
    ∃ others, readRows cs = readCells .plain (cs.takeWhile isLineChar) :: others := by
  induction cs using line_induction with
  | nil => exact ⟨[], rfl⟩
  | last cs _ hLine =>
    refine ⟨[], ?_⟩
    rw [readRows, List.splitOn_eq_singleton hLine, List.takeWhile_eq_self_iff.mpr (isLineChar_of_mem hLine)]
    rfl
  | more cs rest hLine _ =>
    refine ⟨readRows rest, ?_⟩
    rw [readRows, List.splitOn_append_cons_self_of_not_mem hLine, takeWhile_isLineChar_append hLine]
    rfl

theorem Paint.ofCode_code (paint : Paint) : ofCode paint.code.toList = paint := by
  cases paint <;> decide

theorem Paint.all_isCodeChar_code (paint : Paint) : paint.code.toList.all isCodeChar = true := by
  cases paint <;> decide

namespace Piece

theorem escaped_plain {p : Piece} (h : p.paint = .plain) : p.escaped = p.text := by
  rw [escaped, h]

theorem toList_escaped {p : Piece} (h : p.paint ≠ .plain) :
    p.escaped.toList =
      '\x1b' :: '[' :: (p.paint.code.toList ++ 'm' :: (p.text.toList ++ ['\x1b', '[', '0', 'm'])) := by
  obtain ⟨paint, text⟩ := p
  cases paint with
  | plain => exact absurd rfl h
  | red | margin | dim => simp [escaped]

/-- A piece that is read back as it was written, on one row. -/
structure Legible (p : Piece) : Prop where
  noFeed : '\n' ∉ p.text.toList
  noEscape : '\x1b' ∉ p.text.toList ∨ p.paint ≠ .plain ∧ ∃ c, p.text.toList = [c]

theorem Legible.readCells_escaped {p : Piece} (h : p.Legible) (rest : List Char) :
    readCells .plain (p.escaped.toList ++ rest) =
      p.text.toList.map (Cell.mk p.paint) ++ readCells .plain rest := by
  by_cases hPlain : p.paint = .plain
  · have hText : '\x1b' ∉ p.text.toList := h.noEscape.resolve_right fun hPainted => hPainted.1 hPlain
    rw [escaped_plain hPlain, readCells_append hText, hPlain]
  · have hReset : ∀ paint, readCells paint (['\x1b', '[', '0', 'm'] ++ rest) = readCells .plain rest :=
      fun paint => readCells_escape (show ['0'].all isCodeChar = true by decide) rest
    have hOpen : readCells .plain (p.escaped.toList ++ rest) =
        readCells p.paint (p.text.toList ++ (['\x1b', '[', '0', 'm'] ++ rest)) := by
      rw [toList_escaped hPlain]
      simp only [List.cons_append, List.append_assoc]
      rw [readCells_escape p.paint.all_isCodeChar_code, p.paint.ofCode_code]
    rw [hOpen]
    rcases h.noEscape with hText | ⟨_, c, hText⟩
    · rw [readCells_append hText, hReset]
    · rw [hText, List.singleton_append, List.cons_append, readCells_cons (escape?_of_escape c _)]
      exact congrArg _ (hReset p.paint)

theorem Legible.noFeed_escaped {p : Piece} (h : p.Legible) : '\n' ∉ p.escaped.toList := by
  by_cases hPlain : p.paint = .plain
  · rw [escaped_plain hPlain]
    exact h.noFeed
  · have hCode : '\n' ∉ p.paint.code.toList := by
      intro hMem
      cases List.all_eq_true.mp p.paint.all_isCodeChar_code _ hMem
    rw [toList_escaped hPlain]
    simp [hCode, h.noFeed]

end Piece

namespace Row

def Legible (row : Row) : Prop := ∀ p ∈ row, p.Legible

theorem legible_nil : Legible [] := List.forall_mem_nil _

theorem legible_cons {p : Piece} {row : Row} (h : p.Legible) (h' : row.Legible) : Legible (p :: row) :=
  List.forall_mem_cons.mpr ⟨h, h'⟩

theorem toList_escaped_cons (p : Piece) (row : Row) :
    (escaped (p :: row)).toList = p.escaped.toList ++ row.escaped.toList := by
  simp only [escaped, String.toList_join, List.map_cons, List.flatMap_cons]

theorem toList_escaped_append (row row' : Row) :
    (escaped (row ++ row')).toList = row.escaped.toList ++ row'.escaped.toList := by
  simp only [escaped, String.toList_join, List.map_append, List.flatMap_append]

theorem Legible.readCells_escaped {row : Row} (h : row.Legible) (rest : List Char) :
    readCells .plain (row.escaped.toList ++ rest) = row.cells ++ readCells .plain rest := by
  induction row with
  | nil => rfl
  | cons p row ih =>
    obtain ⟨hp, hRow⟩ := List.forall_mem_cons.mp h
    rw [toList_escaped_cons, List.append_assoc, hp.readCells_escaped, ih hRow, cells_cons, List.append_assoc]

theorem Legible.noFeed_escaped {row : Row} (h : row.Legible) : '\n' ∉ row.escaped.toList := by
  induction row with
  | nil => exact List.not_mem_nil
  | cons p row ih =>
    obtain ⟨hp, hRow⟩ := List.forall_mem_cons.mp h
    rw [toList_escaped_cons, List.mem_append, not_or]
    exact ⟨hp.noFeed_escaped, ih hRow⟩

theorem Legible.readRows_escaped {row : Row} (h : row.Legible) :
    readRows row.escaped.toList = [row.cells] := by
  have hCells := h.readCells_escaped []
  rw [List.append_nil, readCells_nil, List.append_nil] at hCells
  rw [readRows, List.splitOn_eq_singleton h.noFeed_escaped, List.map_singleton, hCells]

/-- Taking the paint off what is written of a row leaves its text. -/
theorem unpainted_escaped {row : Row} (h : row.Legible) : unpainted row.escaped = row.text := by
  have hCells := h.readCells_escaped []
  rw [List.append_nil, readCells_nil, List.append_nil] at hCells
  rw [unpainted, hCells, ← toList_text, String.ofList_toList]

end Row

end NamedLambda
