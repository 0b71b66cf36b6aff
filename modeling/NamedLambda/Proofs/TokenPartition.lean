import NamedLambda.Proofs.TokenPlaces

/-!
# Tokens partition a text

Every character belongs to exactly one token or is blank. Tokens are never empty and stand one after
the other, the characters of a token spell it, and between two names there is at least one
character. Cutting a text skips whatever starts no token; that only blanks are skipped is said by
a scanner that fails at any other character, and never does.

A text is a symbol exactly when it is cut into one name.
-/

namespace NamedLambda

set_option autoImplicit false

/-- Skips blanks, and fails at a character that is not blank and starts no token. -/
def scanFrom? (pos : Nat) : List Char → Option (List Located)
  | [] => some []
  | c :: cs =>
    if isBlank c = true then scanFrom? (pos + 1) cs
    else
      match Token.ofChar? c with
      | some t => (scanFrom? (pos + 1) cs).map (⟨t, ⟨pos, pos + 1⟩⟩ :: ·)
      | none =>
        if h : isNameChar c = true then
          let stop := pos + 1 + (cs.takeWhile isNameChar).length
          (scanFrom? stop (cs.dropWhile isNameChar)).map (⟨.name (.ofRun c cs h), ⟨pos, stop⟩⟩ :: ·)
        else none
termination_by cs => cs.length
decreasing_by
  all_goals simp only [List.length_cons]
  · exact Nat.lt_succ_self _
  · exact Nat.lt_succ_self _
  · exact Nat.lt_succ_of_le (List.dropWhile_sublist _).length_le

def scan? (text : String) : Option (List Located) := scanFrom? 0 text.toList

theorem scanFrom?_eq_tokensFrom (pos : Nat) (cs : List Char) :
    scanFrom? pos cs = some (tokensFrom pos cs) := by
  fun_induction scanFrom? pos cs with
  | case1 pos => rw [tokensFrom]
  | case2 pos c cs hBlank ih =>
    have hName : isNameChar c ≠ true := Bool.eq_false_iff.mp (isNameChar_eq_false_of_isBlank hBlank)
    rw [ih, tokensFrom_blank _ _ hName (ofChar?_eq_none_of_isBlank hBlank)]
  | case3 pos c cs hBlank t hToken ih =>
    have hName : isNameChar c ≠ true := Bool.eq_false_iff.mp (isNameChar_eq_false_of_ofChar? hToken)
    rw [ih, tokensFrom_reserved _ _ hName hToken]
    rfl
  | case4 pos c cs hBlank hToken hName stop ih =>
    rw [ih, tokensFrom_name _ _ hName]
    rfl
  | case5 pos c cs hBlank hToken hName =>
    exact absurd (Token.isBlank_of_ofChar?_eq_none hName hToken) hBlank

/-- The ways to write a token. -/
def Token.spellings : Token → List String
  | lambda => ["λ", "\\"]
  | token => [token.text]

theorem Spells.mem_spellings {cs : List Char} {t : Token} (h : Spells cs t) :
    String.ofList cs ∈ t.spellings := by
  cases h with
  | reserved hToken =>
    unfold Token.ofChar? at hToken
    split at hToken <;> cases hToken <;> decide
  | name x =>
    rw [String.ofList_toList]
    exact List.mem_singleton.mpr rfl

theorem Spells.ne_nil {cs : List Char} {t : Token} (h : Spells cs t) : cs ≠ [] := by
  cases h with
  | reserved hToken => exact List.cons_ne_nil _ _
  | name x => exact mt String.toList_eq_nil_iff.mp x.isName.1

theorem Spells.isBlank_eq_false {cs : List Char} {t : Token} (h : Spells cs t) {c : Char} (hc : c ∈ cs) :
    isBlank c = false := by
  rw [Bool.eq_false_iff]
  intro hBlank
  cases h with
  | reserved hToken =>
    rw [← List.mem_singleton.mp hc, ofChar?_eq_none_of_isBlank hBlank] at hToken
    cases hToken
  | name x =>
    have hName := x.isName.2 c hc
    rw [isNameChar_eq_false_of_isBlank hBlank] at hName
    cases hName

theorem ofChar?_ne_name (c : Char) (x : Symbol) : Token.ofChar? c ≠ some (.name x) := by
  unfold Token.ofChar?
  split <;> nofun

theorem spells_name_iff {cs : List Char} {x : Symbol} : Spells cs (.name x) ↔ cs = x.name.toList := by
  constructor
  · intro h
    cases h with
    | reserved hToken => exact absurd hToken (ofChar?_ne_name _ x)
    | name => rfl
  · rintro rfl
    exact .name x

/-- The part of a text that a span covers. -/
def Span.slice (span : Span) (text : String) : String :=
  String.ofList ((text.toList.take span.stop).drop span.start)

def Span.Covers (span : Span) (i : Nat) : Prop := span.start ≤ i ∧ i < span.stop

/-- The tokens take all of a text but its blanks. -/
structure Partitions (text : String) (located : List Located) : Prop where
  nonempty : ∀ l ∈ located, l.span.start < l.span.stop
  inText : ∀ l ∈ located, l.span.stop ≤ text.length
  ordered : located.Pairwise fun l l' => l.span.stop ≤ l'.span.start
  uncovered : ∀ i c, text.toList[i]? = some c →
    ((∀ l ∈ located, ¬ l.span.Covers i) ↔ isBlank c = true)
  spelt : ∀ l ∈ located, l.span.slice text ∈ l.token.spellings
  apart : located.Pairwise fun l l' => ∀ x y, l.token = .name x → l'.token = .name y →
    l.span.stop < l'.span.start

section

variable {pos : Nat} {cs : List Char} {l : Located}

theorem StandsIn.start_lt_stop (h : StandsIn pos cs l) : l.span.start < l.span.stop := by
  obtain ⟨before, spelling, after, _, hSpells, hSpan⟩ := h
  rw [hSpan]
  exact Nat.lt_add_of_pos_right (List.length_pos_iff.mpr hSpells.ne_nil)

theorem StandsIn.stop_le (h : StandsIn pos cs l) : l.span.stop ≤ pos + cs.length := by
  obtain ⟨before, spelling, after, rfl, _, hSpan⟩ := h
  simp only [hSpan, List.length_append]
  omega

theorem StandsIn.isBlank_eq_false (h : StandsIn pos cs l) {i : Nat} (hi : l.span.Covers (pos + i)) {c : Char}
    (hc : cs[i]? = some c) : isBlank c = false := by
  obtain ⟨before, spelling, after, rfl, hSpells, hSpan⟩ := h
  obtain ⟨hStart, hStop⟩ := hi
  simp only [hSpan] at hStart hStop
  rw [List.append_assoc, List.getElem?_append_right (by omega), List.getElem?_append_left (by omega)] at hc
  exact hSpells.isBlank_eq_false (List.mem_of_getElem? hc)

/-- Where no name character stands first, a name starts later. -/
theorem StandsIn.lt_start (h : StandsIn pos cs l) (hEnds : EndsName cs) {x : Symbol}
    (hx : l.token = .name x) : pos < l.span.start := by
  obtain ⟨before, spelling, after, rfl, hSpells, hSpan⟩ := h
  rw [hSpan]
  cases before with
  | cons c before => exact Nat.lt_add_of_pos_right (Nat.succ_pos _)
  | nil =>
    obtain ⟨hNonempty, hChars⟩ := x.isName
    rw [hx, spells_name_iff] at hSpells
    cases hName : x.name.toList with
    | nil => exact absurd (String.toList_eq_nil_iff.mp hName) hNonempty
    | cons c cs =>
      rw [hName] at hSpells hChars
      have hFirst : isNameChar c = false := hEnds c (by rw [hSpells]; rfl)
      rw [hChars c List.mem_cons_self] at hFirst
      cases hFirst

end

theorem StandsIn.slice_mem_spellings {text : String} {l : Located} (h : StandsIn 0 text.toList l) :
    l.span.slice text ∈ l.token.spellings := by
  obtain ⟨before, spelling, after, hText, hSpells, hSpan⟩ := h
  rw [Span.slice, hText, hSpan, Nat.zero_add, List.take_left' List.length_append, List.drop_left]
  exact hSpells.mem_spellings

theorem tokensFrom_ordered (pos : Nat) (cs : List Char) :
    (tokensFrom pos cs).Pairwise fun l l' => l.span.stop ≤ l'.span.start := by
  fun_induction tokensFrom pos cs with
  | case1 pos => exact .nil
  | case2 pos c cs hName stop ih => exact .cons (fun l hl => le_start_of_mem hl) ih
  | case3 pos c cs hName t hToken ih => exact .cons (fun l hl => le_start_of_mem hl) ih
  | case4 pos c cs hName hToken ih => exact ih

theorem endsName_dropWhile (cs : List Char) : EndsName (cs.dropWhile isNameChar) := by
  intro c hc
  have hHead := List.head?_dropWhile_not isNameChar cs
  rw [hc] at hHead
  exact hHead

theorem tokensFrom_names_apart (pos : Nat) (cs : List Char) :
    (tokensFrom pos cs).Pairwise fun l l' => ∀ x y, l.token = .name x → l'.token = .name y →
      l.span.stop < l'.span.start := by
  fun_induction tokensFrom pos cs with
  | case1 pos => exact .nil
  | case2 pos c cs hName stop ih =>
    refine .cons (fun l hl x y _ hy => ?_) ih
    exact (standsIn_of_mem hl).lt_start (endsName_dropWhile cs) hy
  | case3 pos c cs hName t hToken ih =>
    refine .cons (fun l hl x y hx _ => ?_) ih
    exact absurd (hToken.trans (congrArg some hx)) (ofChar?_ne_name c x)
  | case4 pos c cs hName hToken ih => exact ih

theorem exists_covering {c : Char} (hBlank : isBlank c = false) (pos : Nat) (cs : List Char) :
    ∀ i, cs[i]? = some c → ∃ l ∈ tokensFrom pos cs, l.span.Covers (pos + i) := by
  fun_induction tokensFrom pos cs with
  | case1 pos =>
    intro i hc
    cases hc
  | case2 pos d cs hName stop ih =>
    intro i hc
    by_cases hi : i < 1 + (cs.takeWhile isNameChar).length
    · refine ⟨_, List.mem_cons_self, Nat.le_add_right pos i, ?_⟩
      show pos + i < stop
      omega
    · have hSplit : d :: cs = d :: cs.takeWhile isNameChar ++ cs.dropWhile isNameChar := by
        rw [List.cons_append, List.takeWhile_append_dropWhile]
      rw [hSplit, List.getElem?_append_right (by rw [List.length_cons]; omega), List.length_cons] at hc
      obtain ⟨l, hl, hCovers⟩ := ih _ hc
      have hPlace : stop + (i - ((cs.takeWhile isNameChar).length + 1)) = pos + i := by omega
      exact ⟨l, List.mem_cons_of_mem _ hl, hPlace ▸ hCovers⟩
  | case3 pos d cs hName t hToken ih =>
    intro i hc
    cases i with
    | zero => exact ⟨_, List.mem_cons_self, Nat.le_refl pos, Nat.lt_succ_self pos⟩
    | succ i =>
      obtain ⟨l, hl, hCovers⟩ := ih i hc
      rw [Nat.add_right_comm] at hCovers
      exact ⟨l, List.mem_cons_of_mem _ hl, hCovers⟩
  | case4 pos d cs hName hToken ih =>
    intro i hc
    cases i with
    | zero =>
      cases hc
      rw [Token.isBlank_of_ofChar?_eq_none hName hToken] at hBlank
      cases hBlank
    | succ i =>
      rw [Nat.add_comm i 1, ← Nat.add_assoc]
      exact ih i hc

theorem partitions_tokens (text : String) : Partitions text (tokens text) where
  nonempty l hl := (standsIn_of_mem hl).start_lt_stop
  inText l hl := by
    have hStop := (standsIn_of_mem hl).stop_le
    rwa [Nat.zero_add, String.length_toList] at hStop
  ordered := tokensFrom_ordered 0 text.toList
  uncovered i c hc := by
    constructor
    · intro hNone
      rw [← Bool.not_eq_false]
      intro hBlank
      obtain ⟨l, hl, hCovers⟩ := exists_covering hBlank 0 text.toList i hc
      exact hNone l hl (Nat.zero_add i ▸ hCovers)
    · intro hBlank l hl hCovers
      have hNot := (standsIn_of_mem hl).isBlank_eq_false ((Nat.zero_add i).symm ▸ hCovers) hc
      rw [hBlank] at hNot
      cases hNot
  spelt l hl := (standsIn_of_mem hl).slice_mem_spellings
  apart := tokensFrom_names_apart 0 text.toList

/-- The text of a name token is read as the symbol that it carries. -/
theorem ofString_slice {text : String} {l : Located} (hl : l ∈ tokens text) {x : Symbol}
    (hx : l.token = .name x) : Symbol.ofString (l.span.slice text) = .ok x := by
  have hSpelt := (partitions_tokens text).spelt l hl
  rw [hx] at hSpelt
  exact Symbol.ofString_eq_ok_iff.mpr (List.mem_singleton.mp hSpelt).symm

theorem Span.slice_all (text : String) : (⟨0, text.length⟩ : Span).slice text = text := by
  rw [slice, List.drop_zero, ← String.length_toList, List.take_length, String.ofList_toList]

/-- A symbol is a text that is cut into one name and nothing else. -/
theorem ofString_eq_ok_iff_tokens {text : String} {x : Symbol} :
    Symbol.ofString text = .ok x ↔ tokens text = [⟨.name x, ⟨0, text.length⟩⟩] := by
  constructor
  · intro h
    obtain rfl := Symbol.ofString_eq_ok_iff.mp h
    have hList := tokenList_name_append x endsName_nil
    rw [List.append_nil, tokenList_nil] at hList
    obtain ⟨⟨token, span⟩, hTokens, hToken⟩ := List.map_eq_singleton_iff.mp hList
    cases hToken
    obtain ⟨before, spelling, after, hText, hSpells, hSpan⟩ := standsIn_of_mem (hTokens ▸ List.mem_cons_self)
    -- The name is as long as the text, so nothing stands before or after it.
    have hLength := congrArg List.length hText
    rw [spells_name_iff.mp hSpells] at hLength hSpan
    simp only [List.length_append, String.length_toList] at hLength hSpan
    have hBefore : before.length = 0 := by omega
    rw [hBefore, Nat.zero_add, Nat.zero_add] at hSpan
    cases hSpan
    exact hTokens
  · intro h
    have hMem : (⟨.name x, ⟨0, text.length⟩⟩ : Located) ∈ tokens text := by
      rw [h]
      exact List.mem_singleton.mpr rfl
    have hSlice := ofString_slice hMem rfl
    rwa [Span.slice_all] at hSlice

theorem tokens_partition_text (text : String) :
    scan? text = some (tokens text) ∧ Partitions text (tokens text) ∧
      (∀ l ∈ tokens text, ∀ x, l.token = .name x → Symbol.ofString (l.span.slice text) = .ok x) ∧
      ∀ x, Symbol.ofString text = .ok x ↔ tokens text = [⟨.name x, ⟨0, text.length⟩⟩] := by
  refine ⟨?_, ?_, ?_, ?_⟩
  · exact scanFrom?_eq_tokensFrom 0 text.toList
  · exact partitions_tokens text
  · intro l hl x hx
    exact ofString_slice hl hx
  · intro x
    exact ofString_eq_ok_iff_tokens

theorem tokens_partition_text_bothSpellings :
    let text := " λf.f\t\\x1 "
    let f : Symbol := .literal "f"
    let x₁ : Symbol := .literal "x1"
    tokens text =
        [⟨.lambda, ⟨1, 2⟩⟩, ⟨.name f, ⟨2, 3⟩⟩, ⟨.dot, ⟨3, 4⟩⟩, ⟨.name f, ⟨4, 5⟩⟩, ⟨.lambda, ⟨6, 7⟩⟩,
          ⟨.name x₁, ⟨7, 9⟩⟩] ∧
      scan? text = some (tokens text) ∧ Partitions text (tokens text) ∧
      Symbol.ofString ((⟨7, 9⟩ : Span).slice text) = .ok x₁ ∧
      tokens "x1" = [⟨.name x₁, ⟨0, 2⟩⟩] := by
  intro text f x₁
  have hTokens : tokens text =
      [⟨.lambda, ⟨1, 2⟩⟩, ⟨.name f, ⟨2, 3⟩⟩, ⟨.dot, ⟨3, 4⟩⟩, ⟨.name f, ⟨4, 5⟩⟩, ⟨.lambda, ⟨6, 7⟩⟩,
        ⟨.name x₁, ⟨7, 9⟩⟩] := by
    decide +kernel
  have hMem : (⟨.name x₁, ⟨7, 9⟩⟩ : Located) ∈ tokens text := by
    rw [hTokens]
    decide
  obtain ⟨hScan, hPartitions, hNames, _⟩ := tokens_partition_text text
  obtain ⟨_, _, _, hSymbol⟩ := tokens_partition_text "x1"
  exact ⟨hTokens, hScan, hPartitions, hNames _ hMem x₁ rfl, (hSymbol x₁).mp (Symbol.ofString_name x₁)⟩

end NamedLambda
