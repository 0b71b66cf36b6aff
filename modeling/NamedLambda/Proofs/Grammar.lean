import NamedLambda.Error
import NamedLambda.Proofs.Reading

/-!
# The grammar of terms

A term is a header, `λ`, one or more names and a dot, followed by a term, or it is a row of one or more
atoms, applied from the left; an atom is a name or a term in parentheses. The reader accepts exactly
the token sequences that this grammar derives, and the term it gives is the derived one. As the
reader is a function, a token sequence derives at most one term.

What the reader keeps describes the tokens it has taken: for every open parenthesis, and for what
stands after the last of them, complete headers and then a row of atoms, or the beginning of one
more header.
-/

namespace NamedLambda

set_option autoImplicit false

mutual

inductive DerivesTerm : List Token → Term → Prop where
  | abs (x : Symbol) (xs : List Symbol) {ts : List Token} {body : Term} (h : DerivesTerm ts body) :
      DerivesTerm (.lambda :: (x :: xs).map .name ++ .dot :: ts) ((x :: xs).foldr .abs body)
  | row {ts us : List Token} {head : Term} {args : List Term} (hHead : DerivesAtom ts head)
      (hArgs : DerivesAtoms us args) : DerivesTerm (ts ++ us) (args.foldl .app head)

inductive DerivesAtom : List Token → Term → Prop where
  | name (x : Symbol) : DerivesAtom [.name x] (.var x)
  | parenthesized {ts : List Token} {t : Term} (h : DerivesTerm ts t) :
      DerivesAtom (.lparen :: ts ++ [.rparen]) t

inductive DerivesAtoms : List Token → List Term → Prop where
  | nil : DerivesAtoms [] []
  | cons {ts us : List Token} {t : Term} {args : List Term} (h : DerivesAtom ts t)
      (hArgs : DerivesAtoms us args) : DerivesAtoms (ts ++ us) (t :: args)

end

theorem bindAll_append (bs bs' : List Symbol) (body : Term) :
    bindAll (bs ++ bs') body = bindAll bs' (bindAll bs body) := List.foldl_append

theorem bindAll_reverse (xs : List Symbol) (body : Term) :
    bindAll xs.reverse body = xs.foldr .abs body := List.foldl_reverse

namespace Reader

theorem readAll?_names (fs : List Frame) (bs xs : List Symbol) :
    readAll? ⟨fs, bs, .header⟩ (xs.map .name) = some ⟨fs, xs.reverse ++ bs, .header⟩ := by
  induction xs generalizing bs with
  | nil => rfl
  | cons x xs ih =>
    rw [List.map_cons, readAll?_cons, List.reverse_cons, List.append_assoc]
    exact ih (x :: bs)

theorem readAll?_header (fs : List Frame) (bs : List Symbol) (x : Symbol) (xs : List Symbol)
    (ts : List Token) :
    readAll? ⟨fs, bs, .start⟩ (.lambda :: (x :: xs).map .name ++ .dot :: ts) =
      readAll? ⟨fs, (x :: xs).reverse ++ bs, .start⟩ ts := by
  have hNames := readAll?_names fs (x :: bs) xs
  rw [List.reverse_cons, List.append_assoc]
  calc readAll? ⟨fs, bs, .start⟩ (.lambda :: (x :: xs).map .name ++ .dot :: ts)
    _ = readAll? ⟨fs, x :: bs, .header⟩ (xs.map .name ++ .dot :: ts) := rfl
    _ = readAll? ⟨fs, xs.reverse ++ ([x] ++ bs), .start⟩ ts := by
      rw [readAll?_append, hNames]
      rfl

end Reader

mutual

/-- A derived term leaves the reader with the binders of its header still open. -/
theorem DerivesTerm.readAll {ts : List Token} {t : Term} (h : DerivesTerm ts t) (fs : List Frame)
    (bs : List Symbol) :
    ∃ bs' u, Reader.readAll? ⟨fs, bs, .start⟩ ts = some ⟨fs, bs', .operand u⟩ ∧
      bindAll bs' u = bindAll bs t := by
  match h with
  | .abs x xs h =>
    obtain ⟨bs', u, hRead, hBind⟩ := h.readAll fs ((x :: xs).reverse ++ bs)
    refine ⟨bs', u, (Reader.readAll?_header fs bs x xs _).trans hRead, ?_⟩
    rw [hBind, bindAll_append, bindAll_reverse]
  | .row hHead hArgs =>
    refine ⟨bs, _, ?_, rfl⟩
    rw [Reader.readAll?_append]
    exact (congrArg (Option.bind · _) (hHead.readAll fs bs none)).trans (hArgs.readAll fs bs _)

theorem DerivesAtom.readAll {ts : List Token} {t : Term} (h : DerivesAtom ts t) (fs : List Frame)
    (bs : List Symbol) (head : Option Term) :
    Reader.readAll? ⟨fs, bs, Reader.afterHead head⟩ ts = some ⟨fs, bs, .operand (applyHead head t)⟩ := by
  match h with
  | .name x =>
    rw [Reader.readAll?_cons, Reader.next?_name]
    rfl
  | .parenthesized h =>
    obtain ⟨bs', u, hRead, hBind⟩ := h.readAll (⟨bs, head⟩ :: fs) []
    rw [Reader.readAll?_parenthesized hRead, hBind]
    rfl

theorem DerivesAtoms.readAll {ts : List Token} {args : List Term} (h : DerivesAtoms ts args)
    (fs : List Frame) (bs : List Symbol) (fn : Term) :
    Reader.readAll? ⟨fs, bs, .operand fn⟩ ts = some ⟨fs, bs, .operand (args.foldl .app fn)⟩ := by
  match h with
  | .nil => rfl
  | .cons h hArgs =>
    rw [Reader.readAll?_append]
    exact (congrArg (Option.bind · _) (h.readAll fs bs (some fn))).trans (hArgs.readAll fs bs _)

end

theorem DerivesTerm.accepted {ts : List Token} {t : Term} (h : DerivesTerm ts t) :
    (Reader.initial.readAll? ts).bind Reader.result? = some t := by
  obtain ⟨bs, u, hRead, hBind⟩ := h.readAll [] []
  exact (congrArg (Option.bind · _) hRead).trans (congrArg some hBind)

theorem DerivesAtoms.snoc {ts us : List Token} {args : List Term} {t : Term} (h : DerivesAtoms ts args)
    (ht : DerivesAtom us t) : DerivesAtoms (ts ++ us) (args ++ [t]) := by
  cases h with
  | nil =>
    have hOne := DerivesAtoms.cons ht .nil
    rwa [List.append_nil] at hOne
  | cons h hArgs =>
    rw [List.append_assoc]
    exact .cons h (hArgs.snoc ht)

/-- Complete headers one after the other, and their binders, innermost first. -/
inductive Headers : List Token → List Symbol → Prop where
  | nil : Headers [] []
  | snoc {ts : List Token} {bs : List Symbol} (h : Headers ts bs) (x : Symbol) (xs : List Symbol) :
      Headers (ts ++ (.lambda :: (x :: xs).map .name ++ [.dot])) ((x :: xs).reverse ++ bs)

theorem Headers.derivesTerm {ts us : List Token} {bs : List Symbol} {body : Term} (h : Headers ts bs)
    (hBody : DerivesTerm us body) : DerivesTerm (ts ++ us) (bindAll bs body) := by
  induction h generalizing us body with
  | nil => exact hBody
  | snoc h x xs ih =>
    have hAbs := ih (.abs x xs hBody)
    rw [bindAll_append, bindAll_reverse]
    simpa only [List.append_assoc, List.singleton_append] using hAbs

/-- The tokens of one segment: what stands after an open parenthesis, up to the next one or up to
where the reader stands. -/
inductive Segment : List Token → List Symbol → Phase → Prop where
  | start {ts : List Token} {bs : List Symbol} (h : Headers ts bs) : Segment ts bs .start
  | binder {ts : List Token} {bs : List Symbol} (h : Headers ts bs) : Segment (ts ++ [.lambda]) bs .binder
  | header {ts : List Token} {bs : List Symbol} (h : Headers ts bs) (x : Symbol) (xs : List Symbol) :
      Segment (ts ++ (.lambda :: (x :: xs).map .name)) ((x :: xs).reverse ++ bs) .header
  | operand {ts us vs : List Token} {bs : List Symbol} {head : Term} {args : List Term}
      (h : Headers ts bs) (hHead : DerivesAtom us head) (hArgs : DerivesAtoms vs args) :
      Segment (ts ++ (us ++ vs)) bs (.operand (args.foldl .app head))

theorem Segment.derivesTerm {ts : List Token} {bs : List Symbol} {t : Term}
    (h : Segment ts bs (.operand t)) : DerivesTerm ts (bindAll bs t) := by
  cases h with
  | operand h hHead hArgs => exact h.derivesTerm (.row hHead hArgs)

theorem Segment.snoc_atom {ts us : List Token} {bs : List Symbol} {head : Option Term} {t : Term}
    (h : Segment ts bs (Reader.afterHead head)) (ht : DerivesAtom us t) :
    Segment (ts ++ us) bs (.operand (applyHead head t)) := by
  cases head with
  | none =>
    cases h with
    | start h =>
      have hRow := Segment.operand h ht .nil
      rwa [List.append_nil] at hRow
  | some fn =>
    cases h with
    | @operand ts us vs bs head args h hHead hArgs =>
      have hRow := Segment.operand h hHead (hArgs.snoc ht)
      rwa [List.foldl_append, ← List.append_assoc, ← List.append_assoc, List.append_assoc _ _ vs] at hRow

/-- The tokens that a reader has taken. -/
inductive Taken : List Token → Reader → Prop where
  | outermost {ts : List Token} {bs : List Symbol} {phase : Phase} (h : Segment ts bs phase) :
      Taken ts ⟨[], bs, phase⟩
  | nested {ts us : List Token} {frame : Frame} {fs : List Frame} {bs : List Symbol} {phase : Phase}
      (hOuter : Taken ts ⟨fs, frame.binders, Reader.afterHead frame.head⟩) (h : Segment us bs phase) :
      Taken (ts ++ .lparen :: us) ⟨frame :: fs, bs, phase⟩

namespace Taken

/-- A token that only goes on with the current segment leaves the segments around it alone. -/
theorem extend {ts us : List Token} {fs : List Frame} {bs bs' : List Symbol} {phase phase' : Phase}
    (h : Taken ts ⟨fs, bs, phase⟩)
    (hSegment : ∀ ts, Segment ts bs phase → Segment (ts ++ us) bs' phase') :
    Taken (ts ++ us) ⟨fs, bs', phase'⟩ := by
  cases h with
  | outermost h => exact .outermost (hSegment _ h)
  | nested hOuter h =>
    rw [List.append_assoc]
    exact .nested hOuter (hSegment _ h)

theorem next {ts : List Token} {r r' : Reader} {token : Token} (h : Taken ts r)
    (hNext : Reader.Takes r token r') : Taken (ts ++ [token]) r' := by
  cases hNext with
  | name fs bs head x => exact h.extend fun ts hSegment => hSegment.snoc_atom (.name x)
  | lparen fs bs head => exact .nested h (.start .nil)
  | rparen frame fs bs t =>
    cases h with
    | @nested ts us frame fs bs phase hOuter h =>
      -- The segment inside becomes one atom of the segment around it.
      have hAtom := DerivesAtom.parenthesized h.derivesTerm
      rw [List.append_assoc]
      exact hOuter.extend fun ts hSegment => hSegment.snoc_atom hAtom
  | lambda fs bs =>
    refine h.extend fun ts hSegment => ?_
    cases hSegment with
    | start hHeaders => exact .binder hHeaders
  | firstBinder fs bs x =>
    refine h.extend fun ts hSegment => ?_
    cases hSegment with
    | binder hHeaders =>
      rw [List.append_assoc]
      exact .header hHeaders x []
  | furtherBinder fs bs y =>
    refine h.extend fun ts hSegment => ?_
    cases hSegment with
    | header hHeaders x xs =>
      have hMore := Segment.header hHeaders x (xs ++ [y])
      simpa using hMore
  | dot fs bs =>
    refine h.extend fun ts hSegment => ?_
    cases hSegment with
    | header hHeaders x xs =>
      rw [List.append_assoc]
      exact .start (hHeaders.snoc x xs)

theorem readAll {ts us : List Token} {r r' : Reader} (h : Taken ts r) (hRead : r.readAll? us = some r') :
    Taken (ts ++ us) r' := by
  induction us generalizing ts r with
  | nil =>
    obtain rfl := Option.some.inj hRead
    rwa [List.append_nil]
  | cons token us ih =>
    rw [Reader.readAll?_cons] at hRead
    obtain ⟨r'', hNext, hRest⟩ := Option.bind_eq_some_iff.mp hRead
    have hTaken := ih (h.next ((Reader.next?_eq_some_iff r token r'').mp hNext)) hRest
    rwa [List.append_assoc] at hTaken

theorem result {ts : List Token} {r : Reader} {t : Term} (h : Taken ts r) (hResult : r.result? = some t) :
    DerivesTerm ts t := by
  unfold Reader.result? at hResult
  obtain ⟨fs, bs, phase⟩ := r
  split at hResult
  case h_1 u hPhase hFrames =>
    cases hPhase
    cases hFrames
    cases hResult
    cases h with
    | outermost h => exact h.derivesTerm
  case h_2 => cases hResult

end Taken

theorem derivesTerm_iff (ts : List Token) (t : Term) :
    DerivesTerm ts t ↔ (Reader.initial.readAll? ts).bind Reader.result? = some t := by
  constructor
  · intro h
    exact h.accepted
  · intro h
    obtain ⟨r, hRead, hResult⟩ := Option.bind_eq_some_iff.mp h
    have hInitial : Taken [] Reader.initial := .outermost (.start .nil)
    exact (hInitial.readAll hRead).result hResult

theorem derivesTerm_unique {ts : List Token} {t u : Term} (ht : DerivesTerm ts t)
    (hu : DerivesTerm ts u) : t = u :=
  Option.some.inj (ht.accepted.symm.trans hu.accepted)

theorem readTerm_eq_ok_iff (text : String) (t : Term) :
    readTerm text = .ok t ↔ DerivesTerm (tokenList text.toList) t := by
  rw [readTerm, mapError_eq_ok_iff, Term.parse_eq_ok_iff, derivesTerm_iff]

theorem readTerm_accepts_grammar (text : String) :
    (∀ t, readTerm text = .ok t ↔ DerivesTerm (tokenList text.toList) t) ∧
      ((∃ e, readTerm text = .error (.malformed e)) ↔ ∀ t, ¬ DerivesTerm (tokenList text.toList) t) ∧
      ∀ ts t u, DerivesTerm ts t → DerivesTerm ts u → t = u := by
  refine ⟨readTerm_eq_ok_iff text, ⟨?_, ?_⟩, fun ts t u => derivesTerm_unique⟩
  · rintro ⟨e, hError⟩ t ht
    rw [(readTerm_eq_ok_iff text t).mpr ht] at hError
    cases hError
  · intro hNone
    cases hParse : Term.parse text with
    | error e =>
      refine ⟨e, ?_⟩
      rw [readTerm, hParse]
      rfl
    | ok t =>
      rw [Term.parse_eq_ok_iff, ← derivesTerm_iff] at hParse
      exact absurd hParse (hNone t)

theorem readTerm_accepts_grammar_twice :
    let f : Symbol := .literal "f"
    let x : Symbol := .literal "x"
    let twice : Term := .abs f (.abs x (.app (.var f) (.app (.var f) (.var x))))
    readTerm "λf x. f (f x)" = .ok twice ∧
      ∀ t, DerivesTerm (tokenList "λf x. f (f x)".toList) t → twice = t := by
  intro f x twice
  have hTokens : tokenList "λf x. f (f x)".toList =
      [.lambda, .name f, .name x, .dot, .name f, .lparen, .name f, .name x, .rparen] := by decide +kernel
  have hRow : DerivesTerm [.name f, .name x] (.app (.var f) (.var x)) :=
    .row (.name f) (.cons (.name x) .nil)
  have hBody : DerivesTerm [.name f, .lparen, .name f, .name x, .rparen]
      (.app (.var f) (.app (.var f) (.var x))) :=
    .row (.name f) (.cons (.parenthesized hRow) .nil)
  have hTwice : DerivesTerm (tokenList "λf x. f (f x)".toList) twice := by
    rw [hTokens]
    exact .abs f [x] hBody
  obtain ⟨hOk, _, hUnique⟩ := readTerm_accepts_grammar "λf x. f (f x)"
  exact ⟨(hOk twice).mpr hTwice, fun t ht => hUnique _ twice t hTwice ht⟩

end NamedLambda
