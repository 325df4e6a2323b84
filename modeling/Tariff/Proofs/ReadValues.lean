import Tariff.Proofs.Aliases
import Tariff.Proofs.Grouping
import Tariff.Proofs.Locality
import Tariff.Proofs.NumberReading
import Tariff.Proofs.SourcePlaces

/-!
# Values that are given as texts

`Value.ofText` reads a value from a text that stands in no document. It gives a number where the lexer has a
single number behind at most one minus. Numbers with and without a minus, truth values and names have the
same value there as they have as formulas (`Value.ofText_eq_evaluate`). A formula takes the negative of a
number that is already rounded, and `Value.ofText` rounds a number with its sign.
-/

namespace Tariff

lemma separated_nil : Separated [] := by
  intro kind c hc
  cases hc

/-- A readable definition is read back from its text alone, but for the places. -/
lemma Definition.exists_ofSource {e : Definition} (h : e.Readable) : ∃ e' : Definition,
    Document.ofSource e.text = .ok ⟨[], [e']⟩ ∧ e'.unplaced = e.unplaced := by
  obtain ⟨tokens, hwords, htokens⟩ := (Definition.lexes h separated_nil).exists_tokenize
  obtain ⟨e', hderives, hunplaced⟩ := Definition.exists_derives h tokens hwords
  have hdocument : DerivesDocument ([] ++ ([] ++ tokens)) ⟨[], [e']⟩ :=
    .document .nil (DerivesEach.nil.concat hderives)
  have hparse := Document.ofTokens_of_derives hdocument (lexical_of_tokenizeFrom htokens)
  exact ⟨e', Document.ofSource_of_ofTokens htokens hparse, hunplaced⟩

lemma Formula.value_congr_unplaced {l : Level} {f g : Formula l} (ρ : String → Value)
    (h : f.unplaced = g.unplaced) : f.value ρ = g.value ρ := by
  have hrun := evalM_congr_unplaced (fun use => (.ok (ρ use) : Except EvalError Value)) h
  rw [evalM_eq_ok fun _ _ => rfl, evalM_eq_ok fun _ _ => rfl] at hrun
  exact Except.ok.inj hrun

/-- A definition that does not mention its own name, read as a document, gives the name the value of the
formula where every name stands for itself. -/
lemma Definition.exists_evaluate {e : Definition} (h : e.Readable) (hself : e.name.text ∉ e.body.uses) :
    ∃ d, Document.ofSource e.text = .ok d ∧
      (d.evaluate e.name.text ∅).1 = .ok (e.body.value .text) := by
  obtain ⟨e', hread, hunplaced⟩ := Definition.exists_ofSource h
  obtain ⟨⟨name, place⟩, body⟩ := e
  obtain ⟨⟨name', place'⟩, body'⟩ := e'
  obtain ⟨rfl, hbody⟩ : name' = name ∧ body'.unplaced = body.unplaced := by
    simpa [unplaced, Terminal.unplaced] using hunplaced
  refine ⟨_, hread, ?_⟩
  rw [Document.evaluate, Definitions.resolve_fst_eq_recompute, Definitions.recompute_eq_ok_iff,
    ← Formula.value_congr_unplaced _ hbody]
  refine .computed .text (by simp) ?_ fun use huse => .free (by simp) ?_
  · rw [Document.definitionOf, Definitions.getElem?_ofList]
    simp
  · rw [Formula.uses_congr_unplaced hbody] at huse
    rw [Document.mem_definitionOf]
    intro hmem
    obtain rfl : use = name' := by simpa [Document.declaredTerms] using hmem
    exact hself huse

/-- The text without the minus at its front, if there is one. -/
def unsigned (s : String) : String :=
  match s.toList with
  | '-' :: rest => String.ofList rest
  | _ => s

/-- The lexer has a single number behind at most one minus. -/
def IsSignedNumber (s : String) : Prop :=
  ∃ place, tokenize (unsigned s) = .ok [⟨.number, unsigned s, place⟩]

lemma unsigned_cases (s : String) :
    unsigned s = s ∨ s.toList = '-' :: (unsigned s).toList := by
  unfold unsigned
  split
  · next rest heq => exact .inr (by rw [heq, String.toList_ofList])
  · exact .inl rfl

lemma isNumberLiteral_iff_tokenize {s : String} :
    isNumberLiteral s.toList = true ↔ ∃ place, tokenize s = .ok [⟨.number, s, place⟩] := by
  constructor
  · intro h
    obtain ⟨tokens, hwords, htokens⟩ := (Lexes.number s h (separated_nil _)).exists_tokenize
    obtain ⟨⟨kind, text, place⟩, rfl, hword⟩ := List.map_eq_singleton_iff.mp hwords
    obtain ⟨rfl, rfl⟩ := Word.mk.inj hword
    exact ⟨place, htokens⟩
  · rintro ⟨place, htokens⟩
    exact lexical_of_tokenizeFrom htokens _ (List.mem_singleton_self _)

namespace Value

variable {s term : String}

lemma ofText_eq (s : String) : ofText s = if s = "true" then .boolean true
    else if s = "false" then .boolean false
    else if isNumberLiteral (unsigned s).toList then
      match readNumber? s.toList with
      | some x => .number x
      | none => .text s
    else .text s := by
  have hliteral : (unsigned s).toList = match s.toList with
      | '-' :: rest => rest
      | rest => rest := by
    unfold unsigned
    split
    · exact String.toList_ofList
    · rfl
  rw [hliteral]
  rfl

lemma ofText_of_readNumber? {x : Float} (h : isNumberLiteral (unsigned s).toList = true)
    (hread : readNumber? s.toList = some x) : ofText s = .number x := by
  have htrue : s ≠ "true" := by
    rintro rfl
    exact absurd h (by decide)
  have hfalse : s ≠ "false" := by
    rintro rfl
    exact absurd h (by decide)
  rw [ofText_eq, if_neg htrue, if_neg hfalse, if_pos h, hread]

/-- A number literal, with a minus or without, is the text of a factor that has the same value. -/
lemma exists_factor_of_isNumberLiteral (h : isNumberLiteral (unsigned s).toList = true) :
    ∃ f : Formula .factor, f.Readable ∧ f.text = s ∧ f.uses = [] ∧
      ∃ x, f.value .text = .number x ∧ ofText s = .number x := by
  obtain ⟨x, hread, hnegated⟩ := readNumber?_of_isNumberLiteral h
  rcases unsigned_cases s with hs | hs
  · rw [hs] at hread
    refine ⟨.factor none (.number ⟨s, .start⟩), hs ▸ h, rfl, rfl, x, ?_, ofText_of_readNumber? h hread⟩
    rw [Formula.value, Formula.value, hread, Option.getD_some]
  · rw [← hs] at hnegated
    have htext : "-" ++ unsigned s = s :=
      String.toList_inj.mp (by rw [String.toList_append, hs]; rfl)
    refine ⟨.factor (some .negate) (.number ⟨unsigned s, .start⟩), h, htext, rfl, -x, ?_,
      ofText_of_readNumber? h hnegated⟩
    rw [Formula.value, Formula.value, hread, Option.getD_some]
    rfl

lemma exists_ofText_eq_number_iff :
    (∃ x, ofText s = .number x) ↔ isNumberLiteral (unsigned s).toList = true := by
  constructor
  · rintro ⟨x, hx⟩
    by_contra hno
    rw [ofText_eq, if_neg hno] at hx
    split at hx
    · cases hx
    · split at hx <;> cases hx
  · intro h
    obtain ⟨f, -, -, -, x, -, hx⟩ := exists_factor_of_isNumberLiteral h
    exact ⟨x, hx⟩

lemma ofText_booleanText (b : Bool) : ofText (booleanText b) = .boolean b := by
  cases b <;> rfl

/-- Names are read as they are. -/
lemma ofText_of_isIdentifier (h : isIdentifier s.toList = true) (hfree : s ∉ reservedWords) :
    ofText s = .text s := by
  have hliteral : ¬isNumberLiteral (unsigned s).toList = true := by
    intro hnumber
    rcases unsigned_cases s with hs | hs
    · rw [hs] at hnumber
      have hsame := Word.Lexical.eq_of_text (v := .identifier s) (w := .number s) h hnumber rfl
      cases hsame
    · rw [hs, isIdentifier, Bool.and_eq_true] at h
      exact absurd h.1 (by decide)
  rw [ofText_eq, if_neg, if_neg, if_neg hliteral]
  · rintro rfl
    exact hfree (by decide)
  · rintro rfl
    exact hfree (by decide)

/-- A factor that does not mention a term defines the term. -/
lemma exists_evaluate_of_factor {f : Formula .factor} (hterm : isIdentifier term.toList = true)
    (hf : f.Readable) (huses : term ∉ f.uses) (hvalue : f.value .text = ofText f.text) :
    ∃ d, Document.ofSource (term ++ " = " ++ f.text) = .ok d ∧
      (d.evaluate term ∅).1 = .ok (ofText f.text) := by
  rw [← hvalue]
  exact Definition.exists_evaluate (e := ⟨⟨term, .start⟩, f.toExpression⟩) ⟨hterm, hf⟩ huses

/-- A text is read as a number if it is a single number to the lexer, but for one minus. Such texts, truth
values and the names that a formula can mention are read as the value that they have as the formula of a
term. -/
theorem ofText_eq_evaluate (hterm : isIdentifier term.toList = true) (s : String) :
    ((∃ x, ofText s = .number x) ↔ IsSignedNumber s) ∧
    (IsSignedNumber s ∨ s = "true" ∨ s = "false" ∨
        (isIdentifier s.toList = true ∧ s ≠ "if" ∧ s ≠ term) →
      ∃ d, Document.ofSource (term ++ " = " ++ s) = .ok d ∧
        (d.evaluate term ∅).1 = .ok (ofText s)) := by
  refine ⟨exists_ofText_eq_number_iff.trans isNumberLiteral_iff_tokenize, fun hs => ?_⟩
  have hboolean (b : Bool) : ∃ d, Document.ofSource (term ++ " = " ++ booleanText b) = .ok d ∧
      (d.evaluate term ∅).1 = .ok (ofText (booleanText b)) :=
    exists_evaluate_of_factor (f := .factor none (.boolean b .start)) hterm trivial (by simp)
      (ofText_booleanText b).symm
  obtain hnumber | rfl | rfl | ⟨hname, hif, hne⟩ := hs
  · obtain ⟨f, hf, rfl, huses, x, hvalue, hx⟩ :=
      exists_factor_of_isNumberLiteral (isNumberLiteral_iff_tokenize.mpr hnumber)
    exact exists_evaluate_of_factor hterm hf (by simp [huses]) (hvalue.trans hx.symm)
  · exact hboolean true
  · exact hboolean false
  · by_cases hreserved : s ∈ reservedWords
    · obtain rfl | ⟨b, rfl⟩ := mem_reservedWords_iff.mp hreserved
      · exact (hif rfl).elim
      · exact hboolean b
    · exact exists_evaluate_of_factor (f := .factor none (.name ⟨s, .start⟩)) hterm
        ⟨hname, hreserved⟩ (by simpa using hne.symm) (ofText_of_isIdentifier hname hreserved).symm

/-- Zero keeps its minus on both ways. -/
theorem ofText_minus_zero : isIdentifier "t".toList = true ∧ IsSignedNumber "-0" ∧
    ofText "-0" = .number (-0.0) ∧ (-0.0 : Float) ≠ 0.0 ∧
    ∃ d, Document.ofSource "t = -0" = .ok d ∧ (d.evaluate "t" ∅).1 = .ok (.number (-0.0)) := by
  have hname : isIdentifier "t".toList = true := by decide
  have hvalue : ofText "-0" = .number (-0.0) := by decide
  obtain ⟨hnumber, hread⟩ := ofText_eq_evaluate hname "-0"
  have hsigned := hnumber.mp ⟨-0.0, hvalue⟩
  rw [hvalue] at hread
  exact ⟨hname, hsigned, hvalue, by decide, hread (.inl hsigned)⟩

end Value

end Tariff
