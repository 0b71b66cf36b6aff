import NamedLambda.Proofs.PaintedText
import NamedLambda.Proofs.ReportAlignment

/-!
# The text of a report

What is written of a report is read back row by row. Below the heading, which takes one row more than
the reason has line feeds, stand the location and a bar, and then the rows of the label. For a label on
one line these are its source line, the underline and the arrow with the reason; so what was
said about their cells holds of the text, once its paint is read and taken off.
-/

namespace NamedLambda

set_option autoImplicit false

/-- A text without line feeds and escape characters. -/
def Inert (s : String) : Prop := ∀ c ∈ s.toList, c ≠ '\n' ∧ c ≠ '\x1b'

instance (s : String) : Decidable (Inert s) := List.decidableBAll _ s.toList

theorem Inert.append {s s' : String} (h : Inert s) (h' : Inert s') : Inert (s ++ s') := by
  intro c hc
  rw [String.toList_append, List.mem_append] at hc
  exact hc.elim (h c) (h' c)

theorem inert_repr (n : Nat) : Inert n.repr := by
  intro c hc
  rw [Nat.toList_repr] at hc
  have hDigit : c.isDigit = true := Nat.isDigit_of_mem_toDigits (by decide) (by decide) hc
  constructor
  · rintro rfl
    cases hDigit
  · rintro rfl
    cases hDigit

theorem Inert.legible {s : String} (h : Inert s) (paint : Paint) : (⟨paint, s⟩ : Piece).Legible where
  noFeed hMem := (h _ hMem).1 rfl
  noEscape := Or.inl fun hMem => (h _ hMem).2 rfl

/-- A character painted by itself may be any but a line feed. -/
theorem legible_singleton {paint : Paint} (hPaint : paint ≠ .plain) {c : Char} (hc : c ≠ '\n') :
    (⟨paint, String.singleton c⟩ : Piece).Legible := by
  refine ⟨?_, Or.inr ⟨hPaint, c, String.toList_singleton c⟩⟩
  rw [String.toList_singleton, List.mem_singleton]
  exact Ne.symm hc

namespace Row

theorem Legible.append {row row' : Row} (h : row.Legible) (h' : row'.Legible) : Legible (row ++ row') :=
  List.forall_mem_append.mpr ⟨h, h'⟩

theorem legible_replicate {p : Piece} (h : p.Legible) (n : Nat) : Legible (List.replicate n p) := by
  intro q hq
  rw [List.eq_of_mem_replicate hq]
  exact h

theorem legible_flatMap {α : Type} {l : List α} {block : α → Row} (h : ∀ a ∈ l, (block a).Legible) :
    Legible (l.flatMap block) := by
  intro p hp
  obtain ⟨a, ha, hpa⟩ := List.mem_flatMap.mp hp
  exact h a ha p hpa

/-- Rows written one below the other are read one after the other. -/
theorem readRows_join (rows : List Row) :
    readRows (String.join (rows.map fun row => row.escaped ++ "\n")).toList =
      rows.flatMap (fun row => readRows row.escaped.toList) ++ [[]] := by
  induction rows with
  | nil => exact congrArg (· :: []) readCells_nil
  | cons row rows ih =>
    rw [String.toList_join] at ih ⊢
    rw [List.map_cons, List.flatMap_cons, String.toList_append, List.flatMap_cons, List.append_assoc,
      List.append_assoc, ← ih]
    exact readRows_append _ _

/-- A row that is followed by pieces of any text, line feeds included. -/
theorem Legible.exists_readRows_append {row : Row} (h : row.Legible) (rest : Row) :
    ∃ others, readRows (escaped (row ++ rest)).toList =
      (row.cells ++ readCells .plain (rest.escaped.toList.takeWhile isLineChar)) :: others := by
  obtain ⟨others, hOthers⟩ := exists_readRows_eq_cons (escaped (row ++ rest)).toList
  refine ⟨others, ?_⟩
  rw [hOthers, toList_escaped_append, List.takeWhile_append_of_pos (isLineChar_of_mem h.noFeed_escaped),
    h.readCells_escaped]

end Row

namespace Report

open Row

theorem inert_spaces (count : Nat) : Inert (spaces count) := by
  intro c hc
  rw [spaces, String.toList_ofList] at hc
  rw [List.eq_of_mem_replicate hc]
  decide

theorem legible_blank : (plain " ").Legible := Inert.legible (by decide) .plain

theorem legible_numberMargin (digits index : Nat) : (numberMargin digits index).Legible := by
  have hNumber := ((inert_spaces (digits - (index + 1).repr.length)).append (inert_repr (index + 1))).append
    (show Inert " │" by decide)
  exact legible_cons legible_blank
    (legible_cons (hNumber.legible .margin) (legible_cons legible_blank legible_nil))

theorem legible_signMargin {sign : String} (h : Inert sign) (digits : Nat) : (signMargin digits sign).Legible := by
  have hSign := (inert_spaces (digits + 1)).append h
  exact legible_cons legible_blank
    (legible_cons (hSign.legible .margin) (legible_cons legible_blank legible_nil))

theorem legible_sourceRow (label : Span) (line : Line) : (sourceRow label line).Legible := by
  apply legible_flatMap
  rintro ⟨c, col⟩ _
  apply legible_replicate
  apply legible_singleton
  · split
    · decide
    · decide
  · split
    · decide
    case isFalse hBlank =>
      rintro rfl
      exact hBlank (by decide)

theorem legible_branched {first : String} (h : Inert first) (line : Line) (mid : Nat) (drawn : Nat → Bool)
    (col : Nat) : (branched line mid first drawn col).Legible := by
  have hLine : (red "─").Legible := Inert.legible (by decide) .red
  unfold branched
  split
  · exact legible_cons (h.legible .red) (legible_replicate hLine _)
  · split
    · exact legible_replicate hLine _
    · exact legible_replicate legible_blank _

theorem legible_underline (label : Span) (line : Line) : (underline label line).Legible := by
  rw [underline_eq]
  exact legible_flatMap fun col _ => legible_branched (by decide) line _ _ col

theorem legible_arrow (label : Span) (line : Line) : (arrow label line).Legible := by
  rw [arrow_eq]
  exact legible_flatMap fun col _ => legible_branched (by decide) line _ _ col

theorem legible_location (digits : Nat) (label : Span) (first : NumberedLine) :
    Legible (plain (spaces digits) :: each .margin "╭─[" ++ [plain (location label first), margin "]"]) := by
  have hPlace : Inert (location label first) :=
    (((show Inert "<unknown>:" by decide).append (inert_repr _)).append (show Inert ":" by decide)).append
      (inert_repr _)
  have hCorner : Legible (each .margin "╭─[") := by
    intro p hp
    obtain ⟨c, hc, rfl⟩ := List.mem_map.mp hp
    refine legible_singleton (show Paint.margin ≠ .plain by decide) ?_
    rintro rfl
    revert hc
    decide
  have hEnd : (margin "]").Legible := Inert.legible (by decide) .margin
  exact Legible.append (legible_cons ((inert_spaces digits).legible .plain) hCorner)
    (legible_cons (hPlace.legible .plain) (legible_cons hEnd legible_nil))

theorem legible_bar (digits : Nat) : Legible [plain (spaces digits), margin "│"] := by
  have hBar : (margin "│").Legible := Inert.legible (by decide) .margin
  exact legible_cons ((inert_spaces digits).legible .plain) (legible_cons hBar legible_nil)

/-- The heading takes one row more than the reason has line feeds. -/
theorem length_readRows_heading (reason : String) :
    (readRows (escaped [red "Error:", plain (" " ++ reason)]).toList).length = reason.toList.count '\n' + 1 := by
  have hRed : (red "Error:").Legible := Inert.legible (by decide) .red
  have hText : (plain (" " ++ reason)).escaped.toList = ' ' :: reason.toList := by
    simp [Piece.escaped, plain]
  rw [length_readRows, toList_escaped_cons, List.count_append, List.count_eq_zero.mpr hRed.noFeed_escaped,
    toList_escaped_cons, hText]
  simp [escaped]

/-- What stands above the rows of the label: the heading, the location and a bar. -/
theorem length_readRows_above (label : Span) (reason : String) (digits : Nat) (first : NumberedLine) :
    (([[red "Error:", plain (" " ++ reason)],
      plain (spaces digits) :: each .margin "╭─[" ++ [plain (location label first), margin "]"],
      [plain (spaces digits), margin "│"]] : List Row).flatMap fun row => readRows row.escaped.toList).length =
      reason.toList.count '\n' + 3 := by
  simp only [List.flatMap_cons, List.flatMap_nil, List.append_nil, List.length_append, length_readRows_heading,
    (legible_location digits label first).readRows_escaped, (legible_bar digits).readRows_escaped,
    List.length_singleton]

theorem exists_readRows_underlined (label : Span) (reason : String) (digits : Nat) (l : NumberedLine) :
    ∃ others, (underlined label reason digits l).flatMap (fun row => readRows row.escaped.toList) =
      cells (numberMargin digits l.index ++ sourceRow label l.line) ::
        cells (signMargin digits "·" ++ underline label l.line) ::
        (cells (signMargin digits "·" ++ arrow label l.line) ++
          readCells .plain ((reasonPieces reason).escaped.toList.takeWhile isLineChar)) :: others := by
  have hNumber := legible_numberMargin digits l.index
  have hSign := legible_signMargin (show Inert "·" by decide) digits
  have hSource := (hNumber.append (legible_sourceRow label l.line)).readRows_escaped
  have hUnderline := (hSign.append (legible_underline label l.line)).readRows_escaped
  obtain ⟨others, hArrow⟩ :=
    (hSign.append (legible_arrow label l.line)).exists_readRows_append (reasonPieces reason)
  refine ⟨others ++ [], ?_⟩
  rw [underlined, List.flatMap_cons, hSource, List.flatMap_cons, hUnderline, List.flatMap_cons, hArrow]
  rfl

/-- The rows of a report whose label stands on one line. -/
theorem exists_readRows_rows (label : Span) (reason : String) (l : NumberedLine) :
    let digits := (l.index + 1).repr.length
    ∃ above after, above.length = reason.toList.count '\n' + 3 ∧
      readRows (String.join ((rows label reason l l).map fun row => row.escaped ++ "\n")).toList =
        above ++ cells (numberMargin digits l.index ++ sourceRow label l.line) ::
          cells (signMargin digits "·" ++ underline label l.line) ::
          (cells (signMargin digits "·" ++ arrow label l.line) ++
            readCells .plain ((reasonPieces reason).escaped.toList.takeWhile isLineChar)) :: after := by
  obtain ⟨others, hUnderlined⟩ := exists_readRows_underlined label reason (l.index + 1).repr.length l
  rw [readRows_join, rows, body, if_pos rfl, List.flatMap_append, List.flatMap_append, hUnderlined,
    List.append_assoc, List.append_assoc]
  exact ⟨_, _, length_readRows_above label reason _ l, rfl⟩

end Report

theorem underline_lines_up_with_source (d : Diagnostic) (source : String) (l : NumberedLine)
    (hStart : StandsOn source (d.span.label source.length).start l)
    (hStop : StandsOn source ((d.span.label source.length).stop - 1) l) :
    ∃ (text : String) (above after : List (List Cell)) (sourceRow below arrow : List Cell),
      d.report? source = some text ∧
      above.length = d.reason.toList.count '\n' + 3 ∧
      readRows text.toList = above ++ sourceRow :: below ::
        (arrow ++ readCells .plain ((Report.reasonPieces d.reason).escaped.toList.takeWhile isLineChar)) ::
        after ∧
      LinedUp l.line (d.span.label source.length) ((l.index + 1).repr.length + 4) sourceRow below arrow := by
  have hOffset := (Line.holds_iff.mp hStart.2).1
  have hLinedUp := Report.linedUp_underlined (d.span.start_lt_stop_label source.length) hOffset
  obtain ⟨above, after, hAbove, hRows⟩ := Report.exists_readRows_rows (d.span.label source.length) d.reason l
  refine ⟨_, above, after, _, _, _, ?_, hAbove, hRows, hLinedUp⟩
  rw [Diagnostic.report?, d.rows?_eq hStart hStop]
  rfl

theorem underline_lines_up_with_source_pastShownText :
    let d : Diagnostic := ⟨⟨1, 99⟩, "too\nlong"⟩
    let l : NumberedLine := ⟨1, ⟨1, 6, ['x', '\t', ')', '\t', 'y']⟩⟩
    StandsOn "\nx\t)\ty \n" 1 l ∧ StandsOn "\nx\t)\ty \n" 7 l ∧
      ∃ (text : String) (above after : List (List Cell)) (sourceRow below arrow : List Cell),
        d.report? "\nx\t)\ty \n" = some text ∧ above.length = 4 ∧
        readRows text.toList = above ++ sourceRow :: below ::
          (arrow ++ readCells .plain ((Report.reasonPieces "too\nlong").escaped.toList.takeWhile isLineChar)) ::
          after ∧
        LinedUp l.line ⟨1, 8⟩ 5 sourceRow below arrow := by
  intro d l
  have hStart : StandsOn "\nx\t)\ty \n" 1 l := ⟨by decide +kernel, rfl⟩
  have hStop : StandsOn "\nx\t)\ty \n" 7 l := ⟨by decide +kernel, rfl⟩
  have hDigits : (l.index + 1).repr.length = 1 := by decide
  have hFeeds : d.reason.toList.count '\n' = 1 := by decide
  have hRows := underline_lines_up_with_source d "\nx\t)\ty \n" l hStart hStop
  rw [hDigits, hFeeds] at hRows
  exact ⟨hStart, hStop, hRows⟩

end NamedLambda
