import Mathlib
import Tariff.Token.Lexer

/-!
# How words are cut from a text

A `Word` is a token without its place. `Lexes s words rest` says that the lexer cuts `s`, with `rest`
after it, into these words and goes on with `rest`. A word is cut off whole unless the character
after it could belong to it (`Lexes.word`), and texts that are cut up one after the other are cut up
together (`Lexes.append`).
-/

namespace Tariff

/-- The kind and the text of a token. -/
structure Word where
  kind : TokenKind
  text : String
deriving DecidableEq, Repr

/-- A token wherever it stands. -/
def Token.word (t : Token) : Word :=
  ⟨t.kind, t.text⟩

/-- A text is one identifier and nothing else. -/
def isIdentifier : List Char → Bool
  | [] => false
  | c :: s => LexemeClass.startsIdentifier c && s.all LexemeClass.continuesIdentifier

/-- The text of a word is one the lexer gives to words of its kind. -/
def Word.Lexical (w : Word) : Prop :=
  match w.kind with
  | .identifier => isIdentifier w.text.toList
  | .number => isNumberLiteral w.text.toList
  | .symbol => w.text.toList ∈ LexemeClass.symbols

instance : DecidablePred Word.Lexical
  | ⟨.identifier, text⟩ => inferInstanceAs (Decidable (isIdentifier text.toList = true))
  | ⟨.number, text⟩ => inferInstanceAs (Decidable (isNumberLiteral text.toList = true))
  | ⟨.symbol, text⟩ => inferInstanceAs (Decidable (text.toList ∈ LexemeClass.symbols))

/-- A character that may go on a word of the kind. -/
def TokenKind.goesOnWith : TokenKind → Char → Bool
  | .identifier, c => LexemeClass.continuesIdentifier c
  | .number, c => c.isDigit || c == '.'
  | .symbol, c => c == '=' || c == '&' || c == '|'

/-- The text does not go on a word of the kind that stands before it. -/
def TokenKind.EndsBefore (kind : TokenKind) (rest : List Char) : Prop :=
  ∀ c ∈ rest.head?, kind.goesOnWith c = false

lemma toNat_of_isAlpha {c : Char} (h : c.isAlpha = true) : 65 ≤ c.toNat ∧ c.toNat ≤ 122 := by
  simp only [Char.isAlpha, Char.isUpper, Char.isLower, Bool.or_eq_true, decide_eq_true_eq,
    Bool.and_eq_true, UInt32.le_iff_toNat_le, ge_iff_le] at h
  change (65 ≤ c.toNat ∧ c.toNat ≤ 90) ∨ (97 ≤ c.toNat ∧ c.toNat ≤ 122) at h
  omega

lemma toNat_of_isDigit {c : Char} (h : c.isDigit = true) : 48 ≤ c.toNat ∧ c.toNat ≤ 57 := by
  simp only [Char.isDigit, Bool.and_eq_true, decide_eq_true_eq, UInt32.le_iff_toNat_le, ge_iff_le] at h
  exact h

/-- The blank characters of ASCII stand before the visible ones. -/
lemma isBlank_eq_false_of_toNat {c : Char} (hlow : 33 ≤ c.toNat) (hhigh : c.toNat ≤ 132) :
    Text.isBlank c = false := by
  rw [Text.isBlank, List.any_eq_false]
  intro range hrange
  simp only [Text.blankRanges, List.mem_cons, List.not_mem_nil, or_false] at hrange
  simp only [Bool.and_eq_true, decide_eq_true_eq]
  rcases hrange with rfl | rfl | rfl | rfl | rfl | rfl | rfl | rfl | rfl | rfl <;> omega

namespace LexemeClass

lemma toNat_of_startsIdentifier {c : Char} (h : startsIdentifier c = true) :
    65 ≤ c.toNat ∧ c.toNat ≤ 122 := by
  rw [startsIdentifier, Bool.or_eq_true, beq_iff_eq] at h
  rcases h with h | rfl
  · exact toNat_of_isAlpha h
  · decide

lemma isBlank_eq_false_of_startsIdentifier {c : Char} (h : startsIdentifier c = true) :
    Text.isBlank c = false := by
  have hc := toNat_of_startsIdentifier h
  exact isBlank_eq_false_of_toNat (by omega) (by omega)

lemma isBlank_eq_false_of_isDigit {c : Char} (h : c.isDigit = true) : Text.isBlank c = false := by
  have hc := toNat_of_isDigit h
  exact isBlank_eq_false_of_toNat (by omega) (by omega)

lemma startsIdentifier_eq_false_of_isDigit {c : Char} (h : c.isDigit = true) :
    startsIdentifier c = false := by
  by_contra hc
  rw [Bool.not_eq_false] at hc
  have hdigit := toNat_of_isDigit h
  have hletter := toNat_of_startsIdentifier hc
  omega

lemma continuesIdentifier_of_startsIdentifier {c : Char} (h : startsIdentifier c = true) :
    continuesIdentifier c = true := by
  simp only [startsIdentifier, Bool.or_eq_true] at h
  simp only [continuesIdentifier, Char.isAlphanum, Bool.or_eq_true]
  exact h.imp_left .inl

lemma continuesIdentifier_of_isDigit {c : Char} (h : c.isDigit = true) :
    continuesIdentifier c = true := by
  simp [continuesIdentifier, Char.isAlphanum, h]

lemma startsIdentifier_or_isDigit {c : Char} (h : continuesIdentifier c = true) :
    startsIdentifier c = true ∨ c.isDigit = true := by
  simp only [continuesIdentifier, Char.isAlphanum, Bool.or_eq_true] at h
  simp only [startsIdentifier, Bool.or_eq_true]
  tauto

/-- What stands at the front of a symbol begins nothing else. -/
lemma symbols_head : ∀ symbol ∈ symbols, symbol ≠ [] ∧ symbol.head?.all fun c =>
    !Text.isBlank c && !startsIdentifier c && !c.isDigit := by
  decide

section Runs

variable {p : Char → Bool} {s t : List Char}

lemma run_append (h : ∀ c ∈ s, p c = true) (t : List Char) : run p (s ++ t) = s.length + run p t := by
  rw [run, List.takeWhile_append_of_pos h, List.length_append, run]

lemma run_eq_zero (h : ∀ c ∈ t.head?, p c = false) : run p t = 0 := by
  cases t with
  | nil => rfl
  | cons c t => simp [run, h c rfl]

lemma run_eq_length (h : ∀ c ∈ s, p c = true) (ht : ∀ c ∈ t.head?, p c = false) :
    run p (s ++ t) = s.length := by
  rw [run_append h, run_eq_zero ht, Nat.add_zero]

lemma take_run (p : Char → Bool) (s : List Char) : s.take (run p s) = s.takeWhile p :=
  (List.prefix_iff_eq_take.mp (List.takeWhile_prefix p)).symm

/-- A text is a run and what does not go on it. -/
lemma exists_run (p : Char → Bool) (s : List Char) :
    ∃ t u : List Char, s = t ++ u ∧ (∀ c ∈ t, p c = true) ∧ ∀ c ∈ u.head?, p c = false := by
  refine ⟨s.takeWhile p, s.dropWhile p, List.takeWhile_append_dropWhile.symm,
    List.all_eq_true.mp List.all_takeWhile, fun c hc => ?_⟩
  have hhead := List.head?_dropWhile_not p s
  rw [Option.mem_def.mp hc] at hhead
  exact hhead

end Runs

section Extents

variable {s rest : List Char}

lemma identifierExtent_append (h : isIdentifier s = true)
    (hrest : TokenKind.identifier.EndsBefore rest) : identifierExtent (s ++ rest) = s.length := by
  cases s with
  | nil => cases h
  | cons c s =>
    rw [isIdentifier, Bool.and_eq_true, List.all_eq_true] at h
    rw [List.cons_append, identifierExtent, if_pos h.1, run_eq_length h.2 hrest, List.length_cons,
      Nat.add_comm]

lemma numberExtent_append {whole tail : List Char} (hne : whole ≠ [])
    (hwhole : ∀ c ∈ whole, c.isDigit = true) (htail : ∀ c ∈ tail.head?, c.isDigit = false) :
    numberExtent (whole ++ tail) = whole.length + fractionExtent tail := by
  have hrun := run_eq_length hwhole htail
  cases whole with
  | nil => exact (hne rfl).elim
  | cons d whole =>
    rw [List.length_cons] at hrun
    rw [numberExtent, hrun]
    dsimp only
    rw [List.drop_left' (by simp), List.length_cons]

lemma fractionExtent_eq_zero (h : ∀ c ∈ rest.head?, c ≠ '.') : fractionExtent rest = 0 := by
  unfold fractionExtent
  split
  · exact (h '.' rfl rfl).elim
  · rfl

lemma fractionExtent_append {fraction : List Char} (hne : fraction ≠ [])
    (hfraction : ∀ c ∈ fraction, c.isDigit = true) (hrest : ∀ c ∈ rest.head?, c.isDigit = false) :
    fractionExtent ('.' :: (fraction ++ rest)) = fraction.length + 1 := by
  have hrun := run_eq_length hfraction hrest
  cases fraction with
  | nil => exact (hne rfl).elim
  | cons d fraction =>
    rw [List.length_cons] at hrun
    rw [fractionExtent, hrun, List.length_cons]

/-- The digits of a number, and those after its point if there are any. -/
def numeral (whole fraction : List Char) : List Char :=
  whole ++ if fraction = [] then [] else '.' :: fraction

/-- The number at the front of a text and the digits it is made of. -/
lemma exists_numeral (h : 0 < numberExtent s) :
    ∃ whole fraction rest : List Char, whole ≠ [] ∧ (∀ c ∈ whole, c.isDigit = true) ∧
      (∀ c ∈ fraction, c.isDigit = true) ∧ s = numeral whole fraction ++ rest ∧
      numberExtent s = (numeral whole fraction).length := by
  obtain ⟨whole, tail, rfl, hwhole, htail⟩ := exists_run Char.isDigit s
  have hne : whole ≠ [] := by
    rintro rfl
    rw [List.nil_append, numberExtent, run_eq_zero htail] at h
    exact absurd h (Nat.lt_irrefl 0)
  rw [numberExtent_append hne hwhole htail]
  by_cases hfraction : fractionExtent tail = 0
  · refine ⟨whole, [], tail, hne, hwhole, by simp, ?_, ?_⟩
    · rw [numeral, if_pos rfl, List.append_nil]
    · rw [hfraction, numeral, if_pos rfl, List.append_nil, Nat.add_zero]
  · unfold fractionExtent at hfraction
    split at hfraction
    · next u =>
      obtain ⟨fraction, rest, rfl, hdigits, hrest⟩ := exists_run Char.isDigit u
      have hfraction_ne : fraction ≠ [] := by
        rintro rfl
        rw [List.nil_append, run_eq_zero hrest] at hfraction
        exact hfraction rfl
      refine ⟨whole, fraction, rest, hne, hwhole, hdigits, ?_, ?_⟩
      · rw [numeral, if_neg hfraction_ne, List.append_assoc, List.cons_append]
      · rw [fractionExtent_append hfraction_ne hdigits hrest, numeral, if_neg hfraction_ne,
          List.length_append, List.length_cons]
    · exact (hfraction rfl).elim

lemma exists_numeral_of_isNumberLiteral (h : isNumberLiteral s = true) :
    ∃ whole fraction : List Char, whole ≠ [] ∧ (∀ c ∈ whole, c.isDigit = true) ∧
      (∀ c ∈ fraction, c.isDigit = true) ∧ s = numeral whole fraction := by
  rw [isNumberLiteral, Bool.and_eq_true, decide_eq_true_eq, decide_eq_true_eq] at h
  obtain ⟨hne, hextent⟩ := h
  obtain ⟨whole, fraction, rest, hwhole_ne, hwhole, hfraction, rfl, hlength⟩ :=
    exists_numeral (hextent ▸ List.length_pos_iff.mpr hne)
  rw [hextent, List.length_append] at hlength
  have hrest : rest = [] := List.length_eq_zero_iff.mp (by omega)
  rw [hrest, List.append_nil]
  exact ⟨whole, fraction, hwhole_ne, hwhole, hfraction, rfl⟩

lemma numberExtent_numeral_append {whole fraction : List Char} (hne : whole ≠ [])
    (hwhole : ∀ c ∈ whole, c.isDigit = true) (hfraction : ∀ c ∈ fraction, c.isDigit = true)
    (rest : List Char) (hrest : TokenKind.number.EndsBefore rest) :
    numberExtent (numeral whole fraction ++ rest) = (numeral whole fraction).length := by
  have hdigit : ∀ c ∈ rest.head?, c.isDigit = false := fun c hc =>
    (Bool.or_eq_false_iff.mp (hrest c hc)).1
  have hpoint : ∀ c ∈ rest.head?, c ≠ '.' := fun c hc =>
    beq_eq_false_iff_ne.mp (Bool.or_eq_false_iff.mp (hrest c hc)).2
  unfold numeral
  by_cases hfraction_ne : fraction = []
  · rw [if_pos hfraction_ne, List.append_nil, numberExtent_append hne hwhole hdigit,
      fractionExtent_eq_zero hpoint, Nat.add_zero]
  · rw [if_neg hfraction_ne, List.append_assoc, List.cons_append,
      numberExtent_append hne hwhole (by simp), fractionExtent_append hfraction_ne hfraction hdigit,
      List.length_append, List.length_cons]

lemma numberExtent_literal_append (h : isNumberLiteral s = true)
    (hrest : TokenKind.number.EndsBefore rest) : numberExtent (s ++ rest) = s.length := by
  obtain ⟨whole, fraction, hne, hwhole, hfraction, rfl⟩ := exists_numeral_of_isNumberLiteral h
  exact numberExtent_numeral_append hne hwhole hfraction rest hrest

/-- No symbol begins a later one. -/
lemma symbols_pairwise : symbols.Pairwise fun a b => a.isPrefixOf b = false := by
  decide

/-- A symbol that begins another one is gone on with by one of three characters. -/
lemma symbols_continuation : ∀ a ∈ symbols, ∀ b ∈ symbols, a.isPrefixOf b = true → a ≠ b →
    (b.drop a.length).head?.any TokenKind.symbol.goesOnWith = true := by
  decide

/-- A symbol that does not begin `s` begins no text that starts with `s` and does not go on it. -/
lemma not_isPrefixOf_append {other : List Char} (h : s ∈ symbols) (hother : other ∈ symbols)
    (hnot : other.isPrefixOf s = false) (hrest : TokenKind.symbol.EndsBefore rest) :
    other.isPrefixOf (s ++ rest) = false := by
  by_contra hprefix
  rw [Bool.not_eq_false, List.isPrefixOf_iff_prefix] at hprefix
  have hnot' : ¬other <+: s := by
    intro hle
    rw [← List.isPrefixOf_iff_prefix, hnot] at hle
    cases hle
  rcases List.prefix_or_prefix_of_prefix hprefix (List.prefix_append s rest) with hle | hle
  · exact hnot' hle
  · have hne : s ≠ other := by
      rintro rfl
      exact hnot' List.prefix_rfl
    have hnext := symbols_continuation s h other hother (List.isPrefixOf_iff_prefix.mpr hle) hne
    obtain ⟨c, hc, hgoes⟩ := (Option.any_eq_true _ _).mp hnext
    obtain ⟨u, rfl⟩ := hle
    obtain ⟨t, ht⟩ := hprefix
    rw [List.append_assoc] at ht
    obtain rfl := List.append_cancel_left ht
    rw [List.drop_left] at hc
    have hhead : c ∈ (u ++ t).head? := by rw [Option.mem_def, List.head?_append, hc, Option.some_or]
    rw [hrest c hhead] at hgoes
    cases hgoes

lemma symbolExtent_append (h : s ∈ symbols) (hrest : TokenKind.symbol.EndsBefore rest) :
    symbolExtent (s ++ rest) = s.length := by
  obtain ⟨before, after, hsymbols⟩ := List.append_of_mem h
  have hbefore : ∀ other ∈ before, other ∈ symbols ∧ other.isPrefixOf s = false := by
    intro other hother
    have hpairwise := symbols_pairwise
    rw [hsymbols] at hpairwise ⊢
    exact ⟨List.mem_append_left _ hother,
      (List.pairwise_append.mp hpairwise).2.2 other hother s List.mem_cons_self⟩
  have hfind : symbols.find? (·.isPrefixOf (s ++ rest)) = some s := by
    rw [List.find?_eq_some_iff_append]
    refine ⟨by simp, before, after, hsymbols, fun other hother => ?_⟩
    obtain ⟨hmem, hnot⟩ := hbefore other hother
    rw [not_isPrefixOf_append h hmem hnot hrest, Bool.not_false]
  rw [symbolExtent, hfind]

lemma isIdentifier_take (h : 0 < identifierExtent s) :
    isIdentifier (s.take (identifierExtent s)) = true := by
  cases s with
  | nil => exact absurd h (Nat.lt_irrefl 0)
  | cons c s =>
    by_cases hc : startsIdentifier c = true
    · rw [identifierExtent, if_pos hc, Nat.add_comm, List.take_succ_cons, take_run, isIdentifier, hc,
        Bool.true_and]
      exact List.all_takeWhile
    · rw [identifierExtent, if_neg hc] at h
      exact absurd h (Nat.lt_irrefl 0)

lemma isNumberLiteral_take (h : 0 < numberExtent s) :
    isNumberLiteral (s.take (numberExtent s)) = true := by
  obtain ⟨whole, fraction, rest, hne, hwhole, hfraction, rfl, hlength⟩ := exists_numeral h
  have hend : TokenKind.number.EndsBefore [] := by simp [TokenKind.EndsBefore]
  have hextent := numberExtent_numeral_append hne hwhole hfraction [] hend
  rw [List.append_nil] at hextent
  rw [hlength, List.take_left, isNumberLiteral, hextent, Bool.and_eq_true, decide_eq_true_eq,
    decide_eq_true_eq]
  refine ⟨fun hnil => ?_, rfl⟩
  rw [hlength, hnil] at h
  exact absurd h (Nat.lt_irrefl 0)

lemma take_symbolExtent_mem (h : 0 < symbolExtent s) : s.take (symbolExtent s) ∈ symbols := by
  unfold symbolExtent at h ⊢
  cases hfind : symbols.find? (·.isPrefixOf s) with
  | none =>
    rw [hfind] at h
    exact absurd h (Nat.lt_irrefl 0)
  | some symbol =>
    have hprefix := List.find?_some hfind
    rw [List.isPrefixOf_iff_prefix] at hprefix
    dsimp only
    rw [← List.prefix_iff_eq_take.mp hprefix]
    exact List.mem_of_find?_eq_some hfind

end Extents

section Front

variable {c : Char} {s rest : List Char}

lemma at?_of_isBlank (h : Text.isBlank c = true) (s : List Char) : at? (c :: s) = some .blank := by
  simp [at?, all, extent, run, h]

lemma at?_of_startsIdentifier (h : startsIdentifier c = true) (s : List Char) :
    at? (c :: s) = some (.token .identifier) := by
  have hpos : 0 < identifierExtent (c :: s) := by
    rw [identifierExtent, if_pos h]
    omega
  simp [at?, all, extent, run, isBlank_eq_false_of_startsIdentifier h, hpos]

lemma at?_of_isDigit (h : c.isDigit = true) (s : List Char) :
    at? (c :: s) = some (.token .number) := by
  have hrun : run Char.isDigit (c :: s) = run Char.isDigit s + 1 := by simp [run, h]
  have hpos : 0 < numberExtent (c :: s) := by
    rw [numberExtent, hrun]
    dsimp only
    omega
  have hblank : run Text.isBlank (c :: s) = 0 := by simp [run, isBlank_eq_false_of_isDigit h]
  simp [at?, all, extent, hblank, identifierExtent, startsIdentifier_eq_false_of_isDigit h, hpos]

lemma at?_of_symbolExtent (hblank : Text.isBlank c = false) (hletter : startsIdentifier c = false)
    (hdigit : c.isDigit = false) (h : 0 < symbolExtent (c :: s)) :
    at? (c :: s) = some (.token .symbol) := by
  simp [at?, all, extent, run, hblank, identifierExtent, hletter, numberExtent, hdigit, h]

/-- What is cut off as a word is one. -/
lemma lexical_of_at? {kind : TokenKind} (h : at? s = some (.token kind)) :
    (Word.mk kind (String.ofList (s.take ((token kind).extent s)))).Lexical := by
  have hpos := extent_pos_of_at? h
  cases kind with
  | identifier =>
    change isIdentifier (String.toList _) = true
    rw [String.toList_ofList]
    exact isIdentifier_take hpos
  | number =>
    change isNumberLiteral (String.toList _) = true
    rw [String.toList_ofList]
    exact isNumberLiteral_take hpos
  | symbol =>
    change String.toList _ ∈ symbols
    rw [String.toList_ofList]
    exact take_symbolExtent_mem hpos

/-- A word is cut off whole. -/
lemma at?_append {w : Word} (h : w.Lexical) (hrest : w.kind.EndsBefore rest) :
    at? (w.text.toList ++ rest) = some (.token w.kind) ∧
      (LexemeClass.token w.kind).extent (w.text.toList ++ rest) = w.text.toList.length := by
  obtain ⟨kind, text⟩ := w
  cases kind with
  | identifier =>
    have hs : isIdentifier text.toList = true := h
    refine ⟨?_, identifierExtent_append hs hrest⟩
    rcases htext : text.toList with _ | ⟨c, s⟩
    · rw [htext] at hs
      cases hs
    · rw [htext, isIdentifier, Bool.and_eq_true] at hs
      exact at?_of_startsIdentifier hs.1 _
  | number =>
    have hs : isNumberLiteral text.toList = true := h
    refine ⟨?_, numberExtent_literal_append hs hrest⟩
    obtain ⟨whole, fraction, hne, hwhole, -, htext⟩ := exists_numeral_of_isNumberLiteral hs
    obtain ⟨d, whole, rfl⟩ := List.exists_cons_of_ne_nil hne
    dsimp only
    rw [htext]
    exact at?_of_isDigit (hwhole d List.mem_cons_self) _
  | symbol =>
    have hs : text.toList ∈ symbols := h
    have hextent := symbolExtent_append hs hrest
    refine ⟨?_, hextent⟩
    obtain ⟨hne, hhead⟩ := symbols_head text.toList hs
    dsimp only
    obtain ⟨c, s, htext⟩ := List.exists_cons_of_ne_nil hne
    rw [htext] at hextent hhead ⊢
    simp only [List.head?_cons, Option.all_some, Bool.and_eq_true, Bool.not_eq_true'] at hhead
    obtain ⟨⟨hblank, hletter⟩, hdigit⟩ := hhead
    apply at?_of_symbolExtent hblank hletter hdigit
    exact hextent ▸ Nat.succ_pos _

end Front

end LexemeClass

/-- A text is a word of one kind at most. -/
lemma Word.Lexical.eq_of_text {v w : Word} (hv : v.Lexical) (hw : w.Lexical)
    (htext : v.text = w.text) : v = w := by
  have hend (kind : TokenKind) : kind.EndsBefore [] := by simp [TokenKind.EndsBefore]
  have hfront := (LexemeClass.at?_append hv (hend v.kind)).1
  rw [htext, (LexemeClass.at?_append hw (hend w.kind)).1] at hfront
  have hkind : v.kind = w.kind := (LexemeClass.token.inj (Option.some.inj hfront)).symm
  obtain ⟨kind, text⟩ := v
  subst hkind htext
  rfl

/-! ### Cutting a text up -/

lemma tokenizeFrom_of_at? {s : List Char} {kind : LexemeClass} (l : Location)
    (h : LexemeClass.at? s = some kind) : tokenizeFrom l s =
      (tokenizeFrom (l.advance (s.take (kind.extent s))) (s.drop (kind.extent s))).map
        (kind.tokens (s.take (kind.extent s)) l ++ ·) := by
  have hne : s ≠ [] := by
    rintro rfl
    have hpos := LexemeClass.extent_pos_of_at? h
    rw [LexemeClass.extent_nil] at hpos
    omega
  rw [tokenizeFrom, if_neg hne]
  split
  · next hnone =>
    rw [h] at hnone
    cases hnone
  · next kind' hkind' =>
    rw [h] at hkind'
    obtain rfl := Option.some.inj hkind'
    rfl

/-- What holds of the end of a text, and passes on to a text with one more lexeme in front, holds of
every text that is cut into tokens. -/
theorem tokenizeFrom_induction {motive : Location → List Char → List Token → Prop}
    (nil : ∀ l, motive l [] [])
    (step : ∀ (l : Location) (kind : LexemeClass) (lexeme rest : List Char) (tokens : List Token),
      LexemeClass.at? (lexeme ++ rest) = some kind →
      (lexeme ++ rest).take (kind.extent (lexeme ++ rest)) = lexeme →
      motive (l.advance lexeme) rest tokens →
      motive l (lexeme ++ rest) (kind.tokens lexeme l ++ tokens))
    {l : Location} {s : List Char} {tokens : List Token} (h : tokenizeFrom l s = .ok tokens) :
    motive l s tokens := by
  induction l, s using tokenizeFrom.induct generalizing tokens with
  | case1 l =>
    rw [tokenizeFrom, if_pos rfl] at h
    obtain rfl := Except.ok.inj h
    exact nil l
  | case2 l s hne hnone =>
    rw [tokenizeFrom, if_neg hne] at h
    split at h
    · cases h
    · next kind hkind => rw [hnone] at hkind; cases hkind
  | case3 l s hne kind hkind lexeme =>
    rename_i ih
    rw [tokenizeFrom_of_at? l hkind] at h
    have hsplit : lexeme ++ s.drop (kind.extent s) = s := List.take_append_drop _ _
    cases htail : tokenizeFrom (l.advance lexeme) (s.drop (kind.extent s)) with
    | error e =>
      rw [htail] at h
      cases h
    | ok tail =>
      rw [htail] at h
      obtain rfl := Except.ok.inj h
      have hstep := step l kind lexeme (s.drop (kind.extent s)) tail
      rw [hsplit] at hstep
      exact hstep hkind rfl (ih htail)

/-- What holds of the end of a text that cannot be read, and passes on to a text with one more lexeme
in front, holds of every text at which the lexer fails. -/
theorem tokenizeFrom_error_induction {motive : Location → List Char → LexError → Prop}
    (stop : ∀ (l : Location) (c : Char) (rest : List Char), LexemeClass.at? (c :: rest) = none →
      motive l (c :: rest) ⟨l, String.ofList ((c :: rest).take LexError.snippetLength)⟩)
    (step : ∀ (l : Location) (kind : LexemeClass) (lexeme rest : List Char) (e : LexError),
      LexemeClass.at? (lexeme ++ rest) = some kind →
      (lexeme ++ rest).take (kind.extent (lexeme ++ rest)) = lexeme →
      motive (l.advance lexeme) rest e → motive l (lexeme ++ rest) e)
    {l : Location} {s : List Char} {e : LexError} (h : tokenizeFrom l s = .error e) :
    motive l s e := by
  induction l, s using tokenizeFrom.induct with
  | case1 l =>
    rw [tokenizeFrom, if_pos rfl] at h
    cases h
  | case2 l s hne hnone =>
    obtain ⟨c, rest, rfl⟩ := List.exists_cons_of_ne_nil hne
    have hstop := stop l c rest hnone
    rw [tokenizeFrom, if_neg hne] at h
    split at h
    · obtain rfl := Except.error.inj h
      exact hstop
    · next kind hkind => rw [hnone] at hkind; cases hkind
  | case3 l s hne kind hkind lexeme =>
    rename_i ih
    have hsplit : lexeme ++ s.drop (kind.extent s) = s := List.take_append_drop _ _
    have hstep := step l kind lexeme (s.drop (kind.extent s)) e
    rw [hsplit] at hstep
    rw [tokenizeFrom_of_at? l hkind] at h
    cases htail : tokenizeFrom (l.advance lexeme) (s.drop (kind.extent s)) with
    | ok tail =>
      rw [htail] at h
      cases h
    | error e' =>
      rw [htail] at h
      obtain rfl := Except.error.inj h
      exact hstep hkind rfl (ih htail)

/-- Every token has a text of its kind. -/
theorem lexical_of_tokenizeFrom {s : List Char} {l : Location} {tokens : List Token}
    (h : tokenizeFrom l s = .ok tokens) : ∀ t ∈ tokens, t.word.Lexical := by
  refine tokenizeFrom_induction (motive := fun _ _ tokens => ∀ t ∈ tokens, t.word.Lexical)
    (by simp) ?_ h
  intro l kind lexeme rest tokens hkind hcut ih
  cases kind with
  | blank => exact ih
  | token kind =>
    have hfirst := LexemeClass.lexical_of_at? hkind
    rw [hcut] at hfirst
    exact List.forall_mem_cons.mpr ⟨hfirst, ih⟩

lemma map_nil_append (result : Except LexError (List Token)) : result.map ([] ++ ·) = result := by
  cases result <;> rfl

/-- Blanks at the front are passed over all together. -/
lemma tokenizeFrom_dropWhile_isBlank (l : Location) (s : List Char) : tokenizeFrom l s =
    tokenizeFrom (l.advance (s.takeWhile Text.isBlank)) (s.dropWhile Text.isBlank) := by
  cases s with
  | nil => rfl
  | cons c s =>
    by_cases h : Text.isBlank c = true
    · have hextent : LexemeClass.blank.extent (c :: s) =
          ((c :: s).takeWhile Text.isBlank).length := rfl
      have hsplit : (c :: s).takeWhile Text.isBlank ++ (c :: s).dropWhile Text.isBlank = c :: s :=
        List.takeWhile_append_dropWhile
      rw [tokenizeFrom_of_at? l (LexemeClass.at?_of_isBlank h s), hextent, LexemeClass.tokens,
        map_nil_append]
      generalize (c :: s).takeWhile Text.isBlank = blanks at hsplit ⊢
      generalize (c :: s).dropWhile Text.isBlank = tail at hsplit ⊢
      rw [← hsplit, List.take_left, List.drop_left]
    · rw [List.takeWhile_cons_of_neg h, List.dropWhile_cons_of_neg h, Location.advance_nil]

/-- The lexer cuts `s` into these words and goes on with `rest`, wherever it starts. -/
def Lexes (s : List Char) (words : List Word) (rest : List Char) : Prop :=
  ∀ l : Location, ∃ tokens : List Token, tokens.map Token.word = words ∧
    tokenizeFrom l (s ++ rest) = (tokenizeFrom (l.advance s) rest).map (tokens ++ ·)

namespace Lexes

variable {s t rest : List Char} {words words' : List Word}

lemma nil (rest : List Char) : Lexes [] [] rest := by
  intro l
  exact ⟨[], rfl, (map_nil_append _).symm⟩

lemma append (hs : Lexes s words (t ++ rest)) (ht : Lexes t words' rest) :
    Lexes (s ++ t) (words ++ words') rest := by
  intro l
  obtain ⟨tokens, hwords, hrun⟩ := hs l
  obtain ⟨tokens', hwords', hrun'⟩ := ht (l.advance s)
  refine ⟨tokens ++ tokens', by rw [List.map_append, hwords, hwords'], ?_⟩
  rw [List.append_assoc, hrun, hrun', Location.advance_append]
  cases tokenizeFrom ((l.advance s).advance t) rest with
  | error e => rfl
  | ok last => simp only [Except.map, List.append_assoc]

/-- A word is cut off unless what follows could belong to it. -/
lemma word {w : Word} (h : w.Lexical) (hrest : w.kind.EndsBefore rest) :
    Lexes w.text.toList [w] rest := by
  intro l
  obtain ⟨hkind, hextent⟩ := LexemeClass.at?_append h hrest
  refine ⟨[⟨w.kind, w.text, l⟩], rfl, ?_⟩
  rw [tokenizeFrom_of_at? l hkind, hextent, List.take_left, List.drop_left, LexemeClass.tokens,
    String.ofList_toList]

/-- Blanks are passed over one by one as well as all together. -/
lemma blank {c : Char} (h : Text.isBlank c = true) (rest : List Char) : Lexes [c] [] rest := by
  intro l
  refine ⟨[], rfl, ?_⟩
  rw [map_nil_append, tokenizeFrom_dropWhile_isBlank, List.singleton_append,
    List.takeWhile_cons_of_pos h, List.dropWhile_cons_of_pos h, Location.advance_cons,
    ← tokenizeFrom_dropWhile_isBlank]
  rfl

lemma cons_blank {c : Char} (h : Text.isBlank c = true) (hs : Lexes s words rest) :
    Lexes (c :: s) words rest :=
  (blank h (s ++ rest)).append hs

/-- A text that is cut into words up to its end has these as its tokens. -/
lemma exists_tokenize {source : String} (h : Lexes source.toList words []) :
    ∃ tokens : List Token, tokens.map Token.word = words ∧ tokenize source = .ok tokens := by
  obtain ⟨tokens, hwords, hrun⟩ := h .start
  refine ⟨tokens, hwords, ?_⟩
  rw [List.append_nil] at hrun
  rw [tokenize, hrun, tokenizeFrom, if_pos rfl, Except.map, List.append_nil]

end Lexes

end Tariff
