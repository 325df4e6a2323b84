import Tariff.Proofs.Completeness

/-!
# Printed documents are read back

A readable document is printed as a text that the lexer and the parser turn into the same document
again, but for the places. The text is cut into the words of the document, these are derived with it,
and what is derived is parsed.
-/

namespace Tariff

/-- The text of a readable document has tokens, these are a document, and it is the one printed but for
the places of its words. -/
theorem Document.ofSource_text {d : Document} (h : d.Readable) :
    ∃ (tokens : List Token) (e : Document), tokenize d.text = .ok tokens ∧
      ofTokens tokens = .ok e ∧ ofSource d.text = .ok e ∧ e.unplaced = d.unplaced := by
  obtain ⟨tokens, htokens, hwords⟩ := tokenize_text h
  have hlex : ∀ t ∈ tokens, t.word.Lexical := lexical_of_tokenizeFrom htokens
  obtain ⟨e, hderives, hunplaced⟩ := exists_derives h hwords
  have hparse := ofTokens_of_derives hderives hlex
  refine ⟨tokens, e, htokens, hparse, ?_, hunplaced⟩
  unfold ofSource
  rw [htokens]
  change (ofTokens tokens).mapError SourceError.syntactic = .ok e
  rw [hparse]
  rfl

/-- A document whose names are words of the language where they can be. Its text has a group
`$if: end, true` and the definitions `if = !1.50 - -then < true` and
`then = if (then && else) then 2 else end end`. -/
def keywordDocument : Document :=
  let word (text : String) : Terminal := ⟨text, .start⟩
  let compared (x : Formula .factor) : Formula .comparison := .plain (.operand (.operand x))
  let single (x : Formula .atom) : Expression := .operand (compared (.factor none x))
  let notNumber : Formula .factor := .factor (some .not) (.number (word "1.50"))
  let minusName : Formula .factor := .factor (some .negate) (.name (word "then"))
  let difference : Formula (.chain .sum) :=
    .link (.operand (.operand notNumber)) .subtract (.operand minusName)
  let below : Expression :=
    .operand (.compare difference .less (compared (.factor none (.boolean true .start))))
  let both : Expression := .link (single (.name (word "then"))) .and
    (compared (.factor none (.name (word "else"))))
  let choice : Expression := single (.conditional (single (.parentheses both))
    (single (.number (word "2"))) (single (.name (word "end"))))
  ⟨[⟨word "if", [word "end", word "true"]⟩], [⟨word "if", below⟩, ⟨word "then", choice⟩]⟩

theorem Document.ofSource_keywordDocument : keywordDocument.Readable ∧
    ∃ (tokens : List Token) (e : Document), tokenize keywordDocument.text = .ok tokens ∧
      ofTokens tokens = .ok e ∧ ofSource keywordDocument.text = .ok e ∧
      e.unplaced = keywordDocument.unplaced :=
  ⟨by decide, Document.ofSource_text (by decide)⟩

end Tariff
