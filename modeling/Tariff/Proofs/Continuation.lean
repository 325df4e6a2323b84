import Tariff.Proofs.PrintedWords
import Tariff.Proofs.Tiling

/-!
# Texts that are continued

A blank ends every word. So a text that is continued behind a blank keeps its tokens, and what follows
is cut up as it would be alone, from the place where it starts (`tokenizeFrom_continued`).
-/

namespace Tariff

lemma isBlank_eq_false_of_continuesIdentifier {c : Char}
    (h : LexemeClass.continuesIdentifier c = true) : Text.isBlank c = false := by
  rcases LexemeClass.startsIdentifier_or_isDigit h with h | h
  · exact LexemeClass.isBlank_eq_false_of_startsIdentifier h
  · exact LexemeClass.isBlank_eq_false_of_isDigit h

lemma LexemeClass.symbols_hold_no_blank :
    ∀ symbol ∈ symbols, symbol.all (fun c => !Text.isBlank c) := by
  decide

namespace TokenKind

variable {kind : TokenKind} {word rest more : List Char} {c : Char}

lemma Spells.isBlank_eq_false (h : kind.Spells word) : ∀ d ∈ word, Text.isBlank d = false := by
  cases h with
  | identifier hfirst hrest =>
    rw [List.forall_mem_cons]
    exact ⟨LexemeClass.isBlank_eq_false_of_startsIdentifier hfirst,
      fun d hd => isBlank_eq_false_of_continuesIdentifier (hrest d hd)⟩
  | whole hne hdigits => exact fun d hd => LexemeClass.isBlank_eq_false_of_isDigit (hdigits d hd)
  | decimal hwhole_ne hwhole hfraction_ne hfraction =>
    rw [List.forall_mem_append, List.forall_mem_cons]
    exact ⟨fun d hd => LexemeClass.isBlank_eq_false_of_isDigit (hwhole d hd), by decide,
      fun d hd => LexemeClass.isBlank_eq_false_of_isDigit (hfraction d hd)⟩
  | symbol h =>
    have hblank := List.all_eq_true.mp (LexemeClass.symbols_hold_no_blank word h)
    exact fun d hd => by simpa using hblank d hd

/-- A word at the front of a text does not reach into what stands behind a blank. -/
lemma Spells.prefix_of_prefix_continued (h : kind.Spells word) (hc : Text.isBlank c = true)
    (hfront : word <+: rest ++ c :: more) : word <+: rest := by
  rcases List.prefix_or_prefix_of_prefix hfront (List.prefix_append rest (c :: more)) with hle | hle
  · exact hle
  · obtain ⟨tail, rfl⟩ := hle
    rw [List.prefix_append_right_inj] at hfront
    cases tail with
    | nil => rw [List.append_nil]
    | cons d tail =>
      obtain ⟨rfl, -⟩ := List.cons_prefix_cons.mp hfront
      have hblank := h.isBlank_eq_false d (by simp)
      rw [hc] at hblank
      cases hblank

lemma LongestAt.continued (h : kind.LongestAt word (word ++ rest)) (hc : Text.isBlank c = true)
    (more : List Char) : kind.LongestAt word (word ++ (rest ++ c :: more)) where
  spells := h.spells
  front := List.prefix_append _ _
  longest other longer hother hfront := by
    rw [← List.append_assoc] at hfront
    exact h.longest other longer hother (hother.prefix_of_prefix_continued hc hfront)

end TokenKind

/-- A lexeme is cut off as well where something else follows that leaves words the longest. -/
lemma tokenizeFrom_lexeme {kind : LexemeClass} {lexeme rest : List Char} (l : Location)
    (rest' : List Char) (hkind : LexemeClass.at? (lexeme ++ rest) = some kind)
    (hcut : (lexeme ++ rest).take (kind.extent (lexeme ++ rest)) = lexeme)
    (hstill : ∀ k : TokenKind, k.LongestAt lexeme (lexeme ++ rest) →
      k.LongestAt lexeme (lexeme ++ rest')) :
    tokenizeFrom l (lexeme ++ rest') =
      (tokenizeFrom (l.advance lexeme) rest').map (kind.tokens lexeme l ++ ·) := by
  cases kind with
  | blank =>
    rw [tokenizeFrom_append_blanks (forall_isBlank_of_cut hcut), LexemeClass.tokens, map_nil_append]
  | token kind =>
    have hlongest := TokenKind.longestAt_of_at? hkind
    rw [hcut] at hlongest
    obtain ⟨hkind', htake, hdrop⟩ := (hstill kind hlongest).at?
    rw [tokenizeFrom_of_at? l hkind', htake, hdrop]

/-- A text that has tokens keeps them when it is continued behind a blank. -/
theorem tokenizeFrom_continued {l : Location} {s : List Char} {tokens : List Token} {c : Char}
    (h : tokenizeFrom l s = .ok tokens) (hc : Text.isBlank c = true) (more : List Char) :
    tokenizeFrom l (s ++ c :: more) =
      (tokenizeFrom (l.advance (s ++ [c])) more).map (tokens ++ ·) := by
  refine tokenizeFrom_induction (motive := fun l s tokens => tokenizeFrom l (s ++ c :: more) =
    (tokenizeFrom (l.advance (s ++ [c])) more).map (tokens ++ ·)) ?_ ?_ h
  · intro l
    rw [map_nil_append]
    have hgap : ∀ d ∈ [c], Text.isBlank d = true := by simpa using hc
    exact tokenizeFrom_append_blanks hgap l more
  · intro l kind lexeme rest tokens hkind hcut ih
    have hlexeme := tokenizeFrom_lexeme l (rest ++ c :: more) hkind hcut
      fun k hk => hk.continued hc more
    rw [List.append_assoc, hlexeme, ih, List.append_assoc, Location.advance_append l lexeme]
    cases tokenizeFrom ((l.advance lexeme).advance (rest ++ [c])) more with
    | error e => rfl
    | ok last => simp only [Except.map, List.append_assoc]

/-- A line that is added to a text with tokens adds the words of the line. -/
theorem exists_tokenize_line {source line : String} {tokens : List Token} {words : List Word}
    (h : tokenize source = .ok tokens) (hline : Lexes line.toList words []) :
    ∃ added : List Token, added.map Token.word = words ∧
      tokenize (source ++ "\n" ++ line) = .ok (tokens ++ added) := by
  have hbreak : Text.isBlank '\n' = true := by decide
  have htext : (source ++ "\n" ++ line).toList = source.toList ++ '\n' :: line.toList := by
    simp
  obtain ⟨added, hwords, hrun⟩ := hline (Location.start.advance (source.toList ++ ['\n']))
  refine ⟨added, hwords, ?_⟩
  rw [List.append_nil] at hrun
  rw [tokenize, htext, tokenizeFrom_continued h hbreak, hrun, tokenizeFrom, if_pos rfl]
  simp only [Except.map, List.append_nil]

end Tariff
