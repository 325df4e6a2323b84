import Tariff.Proofs.Continuation

/-!
# Where a text cannot be read on

The lexer stops at a character that no word begins with: one outside the alphabet, which a point is as
well. What stands before it is the longest beginning of the text that can be read
(`tokenize_stops_behind_longest_readable`). A point is passed only inside a number, between digits
(`PointInNumber`).
-/

namespace Tariff

namespace LexemeClass

/-- A character that occurs in a symbol. -/
def isSymbolCharacter (c : Char) : Bool :=
  symbols.any fun symbol => symbol.contains c

/-- Blanks, letters, digits, underscores and the characters of symbols. A point is none of them. -/
def inAlphabet (c : Char) : Bool :=
  Text.isBlank c || continuesIdentifier c || isSymbolCharacter c

variable {c : Char}

lemma inAlphabet_of_isBlank (h : Text.isBlank c = true) : inAlphabet c = true := by
  simp [inAlphabet, h]

lemma inAlphabet_of_continuesIdentifier (h : continuesIdentifier c = true) : inAlphabet c = true := by
  simp [inAlphabet, h]

lemma inAlphabet_of_isDigit (h : c.isDigit = true) : inAlphabet c = true :=
  inAlphabet_of_continuesIdentifier (continuesIdentifier_of_isDigit h)

lemma inAlphabet_of_mem_symbol {symbol : List Char} (h : symbol ∈ symbols) (hc : c ∈ symbol) :
    inAlphabet c = true := by
  have hsymbol : isSymbolCharacter c = true :=
    List.any_eq_true.mpr ⟨symbol, h, List.contains_iff_mem.mpr hc⟩
  simp [inAlphabet, hsymbol]

lemma symbols_made_of_symbols :
    ∀ symbol ∈ symbols, symbol.all (fun c => symbols.contains [c]) := by
  decide

lemma singleton_mem_symbols (h : isSymbolCharacter c = true) : [c] ∈ symbols := by
  obtain ⟨symbol, hsymbol, hc⟩ := List.any_eq_true.mp h
  have hall := List.all_eq_true.mp (symbols_made_of_symbols symbol hsymbol)
  exact List.contains_iff_mem.mp (hall c (List.contains_iff_mem.mp hc))

end LexemeClass

/-- A place in two texts that are joined is in the first one or in the second one. -/
lemma split_of_append_eq_append_cons {α : Type} {a : α} {s t p q : List α}
    (h : s ++ t = p ++ a :: q) :
    (∃ mid, s = p ++ a :: mid ∧ q = mid ++ t) ∨ ∃ mid, p = s ++ mid ∧ t = mid ++ a :: q := by
  obtain ⟨mid, hp, ht⟩ | ⟨mid, hs, hq⟩ := List.append_eq_append_iff.mp h
  · exact .inr ⟨mid, hp, ht⟩
  · obtain ⟨rfl, ht⟩ | ⟨mid', rfl, hmid⟩ := List.cons_eq_append_iff.mp hq
    · exact .inr ⟨[], by rw [hs, List.append_nil, List.append_nil], ht⟩
    · exact .inl ⟨mid', hs, hmid⟩

namespace TokenKind

variable {kind : TokenKind} {word rest rest' : List Char}

/-- A word is made of the alphabet, except for the point between the digits of a number. -/
lemma Spells.inAlphabet_or_point (h : kind.Spells word) {p q : List Char} {c : Char}
    (hword : word = p ++ c :: q) : LexemeClass.inAlphabet c = true ∨
      c = '.' ∧ kind = .number ∧ p ≠ [] ∧ (∀ d ∈ p, d.isDigit = true) ∧ q ≠ [] ∧
        ∀ d ∈ q, d.isDigit = true := by
  have hmem : c ∈ word := by simp [hword]
  cases h with
  | identifier hfirst hrest =>
    left
    apply LexemeClass.inAlphabet_of_continuesIdentifier
    rcases List.mem_cons.mp hmem with rfl | hmem
    · exact LexemeClass.continuesIdentifier_of_startsIdentifier hfirst
    · exact hrest c hmem
  | whole hne hdigits => exact .inl (LexemeClass.inAlphabet_of_isDigit (hdigits c hmem))
  | @decimal whole fraction hwhole_ne hwhole hfraction_ne hfraction =>
    obtain ⟨mid, hwhole_eq, -⟩ | ⟨mid, rfl, hrest⟩ := split_of_append_eq_append_cons hword
    · exact .inl (LexemeClass.inAlphabet_of_isDigit (hwhole c (by simp [hwhole_eq])))
    · obtain ⟨rfl, hsame⟩ | ⟨mid, rfl, hfront⟩ := List.cons_eq_append_iff.mp hrest
      · obtain ⟨rfl, rfl⟩ := List.cons.inj hsame
        rw [List.append_nil]
        exact .inr ⟨rfl, rfl, hwhole_ne, hwhole, hfraction_ne, hfraction⟩
      · exact .inl (LexemeClass.inAlphabet_of_isDigit (hfraction c (by simp [hfront])))
  | symbol h => exact .inl (LexemeClass.inAlphabet_of_mem_symbol h hmem)

/-- The longest word at the front of a text remains so when the text ends earlier. -/
lemma LongestAt.shortened (h : kind.LongestAt word (word ++ rest)) (hrest : rest' <+: rest) :
    kind.LongestAt word (word ++ rest') where
  spells := h.spells
  front := List.prefix_append _ _
  longest other longer hother hfront :=
    h.longest other longer hother (hfront.trans ((List.prefix_append_right_inj word).mpr hrest))

end TokenKind

/-- Whether a lexeme is at the front can be seen from the first character. -/
lemma LexemeClass.at?_eq_none_iff {c : Char} {rest : List Char} :
    at? (c :: rest) = none ↔ inAlphabet c = false := by
  constructor
  · intro hnone
    by_contra hc
    simp only [inAlphabet, Bool.not_eq_false, Bool.or_eq_true] at hc
    obtain (hblank | hcontinues) | hsymbol := hc
    · rw [at?_of_isBlank hblank] at hnone
      cases hnone
    · rcases startsIdentifier_or_isDigit hcontinues with hletter | hdigit
      · rw [at?_of_startsIdentifier hletter] at hnone
        cases hnone
      · rw [at?_of_isDigit hdigit] at hnone
        cases hnone
    · have hspells : TokenKind.symbol.Spells [c] := .symbol (singleton_mem_symbols hsymbol)
      have hfront := (hspells.at?_and_le_extent rest).1
      rw [List.singleton_append, hnone] at hfront
      cases hfront
  · intro hc
    by_contra hsome
    obtain ⟨kind, hkind⟩ := Option.ne_none_iff_exists'.mp hsome
    have hpos := extent_pos_of_at? hkind
    cases kind with
    | blank =>
      by_cases hblank : Text.isBlank c = true
      · rw [inAlphabet_of_isBlank hblank] at hc
        cases hc
      · simp [extent, run, hblank] at hpos
    | token kind =>
      have hspells := (TokenKind.longestAt_of_at? hkind).spells
      obtain ⟨n, hn⟩ := Nat.exists_eq_succ_of_ne_zero hpos.ne'
      rw [hn, List.take_succ_cons] at hspells
      obtain halphabet | ⟨-, -, hne, -⟩ := hspells.inAlphabet_or_point (p := []) rfl
      · rw [halphabet] at hc
        cases hc
      · exact hne rfl

lemma tokenizeFrom_of_outside {c : Char} (hc : LexemeClass.inAlphabet c = false) (l : Location)
    (rest : List Char) : tokenizeFrom l (c :: rest) =
      .error ⟨l, String.ofList ((c :: rest).take LexError.snippetLength)⟩ := by
  rw [tokenizeFrom, if_neg (List.cons_ne_nil c rest)]
  split
  · rfl
  · next kind hkind =>
    rw [LexemeClass.at?_eq_none_iff.mpr hc] at hkind
    cases hkind

/-- The text before a point ends with a number that has no point yet, and digits follow the point: with
it between them they are one number. -/
def PointInNumber (l : Location) (before after : List Char) : Prop :=
  ∃ (left whole fraction : List Char) (tokens : List Token), before = left ++ whole ∧
    fraction <+: after ∧ whole ≠ [] ∧ (∀ d ∈ whole, d.isDigit = true) ∧ fraction ≠ [] ∧
    (∀ d ∈ fraction, d.isDigit = true) ∧
    tokenizeFrom l before =
      .ok (tokens ++ [⟨.number, String.ofList whole, l.advance left⟩]) ∧
    tokenizeFrom l (before ++ '.' :: fraction) =
      .ok (tokens ++ [⟨.number, String.ofList (whole ++ '.' :: fraction), l.advance left⟩])

lemma PointInNumber.extended {l : Location} {before more after : List Char}
    (h : PointInNumber l before more) (hmore : more <+: after) : PointInNumber l before after := by
  obtain ⟨left, whole, fraction, tokens, hbefore, hfront, hrest⟩ := h
  exact ⟨left, whole, fraction, tokens, hbefore, hfront.trans hmore, hrest⟩

end Tariff
