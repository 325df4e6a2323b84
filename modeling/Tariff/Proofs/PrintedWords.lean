import Tariff.Document.Printer
import Tariff.Proofs.Lexing

/-!
# The words of a printed document

`Formula.words` and `Document.words` are the words of the written form, in order. The lexer cuts the
text of a readable document into exactly these (`Document.tokenize_text`).
-/

namespace Tariff

namespace Word

/-- A word that is a symbol. -/
def symbol (text : String) : Word := ⟨.symbol, text⟩

/-- A word that is an identifier. -/
def identifier (text : String) : Word := ⟨.identifier, text⟩

/-- A word that is a number. -/
def number (text : String) : Word := ⟨.number, text⟩

end Word

/-- Identifiers that no formula can use as a name. -/
def reservedWords : List String := ["if", "true", "false"]

namespace Formula

/-- The words of a formula. -/
def words : {l : Level} → Formula l → List Word
  | _, .operand x => x.words
  | _, .link left op right => left.words ++ .symbol op.symbol :: right.words
  | _, .plain x => x.words
  | _, .compare left op right => left.words ++ .symbol op.symbol :: right.words
  | _, .factor none x => x.words
  | _, .factor (some op) x => .symbol op.symbol :: x.words
  | _, .number word => [.number word.text]
  | _, .boolean value _ => [.identifier (booleanText value)]
  | _, .parentheses x => .symbol "(" :: (x.words ++ [.symbol ")"])
  | _, .conditional condition yes no =>
    .identifier "if" :: (condition.words ++ .identifier "then" :: (yes.words ++
      .identifier "else" :: (no.words ++ [.identifier "end"])))
  | _, .name word => [.identifier word.text]

/-- Numbers are number literals, and names are identifiers that are not reserved. -/
def Readable : {l : Level} → Formula l → Prop
  | _, .operand x => x.Readable
  | _, .link left _ right => left.Readable ∧ right.Readable
  | _, .plain x => x.Readable
  | _, .compare left _ right => left.Readable ∧ right.Readable
  | _, .factor _ x => x.Readable
  | _, .number word => isNumberLiteral word.text.toList
  | _, .boolean _ _ => True
  | _, .parentheses x => x.Readable
  | _, .conditional condition yes no => condition.Readable ∧ yes.Readable ∧ no.Readable
  | _, .name word => isIdentifier word.text.toList ∧ word.text ∉ reservedWords

instance decidableReadable : {l : Level} → (f : Formula l) → Decidable f.Readable
  | _, .operand x => decidableReadable x
  | _, .link left _ right =>
    @instDecidableAnd _ _ (decidableReadable left) (decidableReadable right)
  | _, .plain x => decidableReadable x
  | _, .compare left _ right =>
    @instDecidableAnd _ _ (decidableReadable left) (decidableReadable right)
  | _, .factor _ x => decidableReadable x
  | _, .number word => inferInstanceAs (Decidable (isNumberLiteral word.text.toList = true))
  | _, .boolean _ _ => instDecidableTrue
  | _, .parentheses x => decidableReadable x
  | _, .conditional condition yes no => @instDecidableAnd _ _ (decidableReadable condition)
    (@instDecidableAnd _ _ (decidableReadable yes) (decidableReadable no))
  | _, .name word =>
    inferInstanceAs (Decidable (isIdentifier word.text.toList = true ∧ word.text ∉ reservedWords))

end Formula

/-- The words of names with commas between them. -/
def nameWords : List Terminal → List Word
  | [] => []
  | first :: rest => .identifier first.text ::
      rest.flatMap fun name => [.symbol ",", .identifier name.text]

/-- The words of a group. -/
def Injectable.words (i : Injectable) : List Word :=
  .symbol "$" :: .identifier i.group.text :: .symbol ":" :: nameWords i.names

/-- The words of a definition. -/
def Definition.words (d : Definition) : List Word :=
  .identifier d.name.text :: .symbol "=" :: d.body.words

/-- The words of a document. -/
def Document.words (d : Document) : List Word :=
  d.injectables.flatMap (·.words) ++ d.definitions.flatMap (·.words)

/-- A group with at least one name, all of them identifiers. -/
def Injectable.Readable (i : Injectable) : Prop :=
  isIdentifier i.group.text.toList ∧ i.names ≠ [] ∧
    ∀ name ∈ i.names, isIdentifier name.text.toList

instance (i : Injectable) : Decidable i.Readable :=
  inferInstanceAs (Decidable (_ ∧ _ ∧ _))

/-- A definition of an identifier by a readable formula. -/
def Definition.Readable (d : Definition) : Prop :=
  isIdentifier d.name.text.toList ∧ d.body.Readable

instance (d : Definition) : Decidable d.Readable :=
  inferInstanceAs (Decidable (_ ∧ _))

/-- A document that its own text can be read back as. -/
def Document.Readable (d : Document) : Prop :=
  (∀ i ∈ d.injectables, i.Readable) ∧ ∀ e ∈ d.definitions, e.Readable

instance (d : Document) : Decidable d.Readable :=
  inferInstanceAs (Decidable (_ ∧ _))

/-- The text goes on no word that stands before it. -/
def Separated (rest : List Char) : Prop :=
  ∀ kind : TokenKind, kind.EndsBefore rest

lemma separated_cons (c : Char) (h : c ∈ [' ', '\n', ')', ',', ':']) (rest : List Char) :
    Separated (c :: rest) := by
  intro kind d hd
  obtain rfl := Option.some.inj hd
  simp only [List.mem_cons, List.not_mem_nil, or_false] at h
  rcases h with rfl | rfl | rfl | rfl | rfl <;> cases kind <;> decide

lemma separated_blank (rest : List Char) : Separated (' ' :: rest) :=
  separated_cons ' ' (by decide) rest

lemma Connective.lexical_symbol {c : Chain} (op : Connective c) : (Word.symbol op.symbol).Lexical := by
  cases op <;> decide

lemma Comparison.lexical_symbol (op : Comparison) : (Word.symbol op.symbol).Lexical := by
  cases op <;> decide

lemma Unary.lexical_symbol (op : Unary) : (Word.symbol op.symbol).Lexical := by
  cases op <;> decide

lemma isBlank_space : Text.isBlank ' ' = true := by decide

lemma lexical_booleanText (b : Bool) : (Word.identifier (booleanText b)).Lexical := by
  cases b <;> decide

/-- The text begins with a character that goes on no symbol. -/
def StartsApart (s : List Char) : Prop :=
  ∃ c ∈ s.head?, TokenKind.symbol.goesOnWith c = false

namespace StartsApart

variable {s : List Char}

lemma append (h : StartsApart s) (t : List Char) : StartsApart (s ++ t) := by
  obtain ⟨c, hc, hapart⟩ := h
  refine ⟨c, ?_, hapart⟩
  rw [Option.mem_def] at hc ⊢
  rw [List.head?_append, hc, Option.some_or]

lemma endsBefore (h : StartsApart s) (rest : List Char) : TokenKind.symbol.EndsBefore (s ++ rest) := by
  intro d hd
  obtain ⟨c, hc, hapart⟩ := h.append rest
  rw [Option.mem_def] at hc hd
  rw [hc] at hd
  obtain rfl := Option.some.inj hd
  exact hapart

lemma of_toNat {c : Char} (h : c.toNat ∉ [38, 61, 124]) (s : List Char) : StartsApart (c :: s) := by
  refine ⟨c, rfl, ?_⟩
  by_contra hgoes
  simp only [TokenKind.goesOnWith, Bool.not_eq_false, Bool.or_eq_true, beq_iff_eq] at hgoes
  rcases hgoes with (rfl | rfl) | rfl <;> exact h (by decide)

lemma of_isNumberLiteral (h : isNumberLiteral s = true) : StartsApart s := by
  obtain ⟨whole, fraction, hne, hwhole, -, rfl⟩ := LexemeClass.exists_numeral_of_isNumberLiteral h
  obtain ⟨d, whole, rfl⟩ := List.exists_cons_of_ne_nil hne
  have hd := toNat_of_isDigit (hwhole d List.mem_cons_self)
  exact of_toNat (by simp only [List.mem_cons, List.not_mem_nil, or_false]; omega) _

lemma of_isIdentifier (h : isIdentifier s = true) : StartsApart s := by
  cases s with
  | nil => cases h
  | cons c s =>
    rw [isIdentifier, Bool.and_eq_true] at h
    have hc := LexemeClass.toNat_of_startsIdentifier h.1
    exact of_toNat (by simp only [List.mem_cons, List.not_mem_nil, or_false]; omega) s

end StartsApart

namespace Lexes

variable (text : String) {s rest : List Char} {words : List Word}

lemma symbol (h : (Word.symbol text).Lexical) (hrest : TokenKind.symbol.EndsBefore rest) :
    Lexes text.toList [.symbol text] rest :=
  word h hrest

lemma identifier (h : isIdentifier text.toList = true) (hrest : TokenKind.identifier.EndsBefore rest) :
    Lexes text.toList [.identifier text] rest :=
  word (w := .identifier text) h hrest

lemma number (h : isNumberLiteral text.toList = true) (hrest : TokenKind.number.EndsBefore rest) :
    Lexes text.toList [.number text] rest :=
  word (w := .number text) h hrest

/-- An identifier before something that does not go on it. -/
lemma identifier_append {c : Char} (h : isIdentifier text.toList = true)
    (hc : c ∈ [' ', '\n', ')', ',', ':']) (hs : Lexes (c :: s) words rest) :
    Lexes (text.toList ++ c :: s) (.identifier text :: words) rest :=
  (identifier text h (separated_cons c hc _ .identifier)).append hs

/-- A symbol before something that does not go on it. -/
lemma symbol_append (h : (Word.symbol text).Lexical) (hapart : StartsApart s)
    (hs : Lexes s words rest) : Lexes (text.toList ++ s) (.symbol text :: words) rest :=
  (symbol text h (hapart.endsBefore rest)).append hs

/-- A word with a blank on both sides. -/
lemma after_spaced {w : Word} (hw : w.Lexical) (hs : Lexes s words rest) :
    Lexes (' ' :: (w.text.toList ++ ' ' :: s)) (w :: words) rest := by
  have htail : Lexes (' ' :: s) words rest := hs.cons_blank isBlank_space
  exact ((Lexes.word hw (separated_blank _ w.kind)).append htail).cons_blank isBlank_space

end Lexes

namespace Formula

lemma startsApart_text {l : Level} {f : Formula l} (h : f.Readable) : StartsApart f.text.toList := by
  induction f with
  | operand x ih => exact ih h
  | link left op right ihl ihr =>
    simp only [text, String.toList_append, List.append_assoc]
    exact (ihl h.1).append _
  | plain x ih => exact ih h
  | compare left op right ihl ihr =>
    simp only [text, String.toList_append, List.append_assoc]
    exact (ihl h.1).append _
  | factor op x ih =>
    cases op with
    | none => exact ih h
    | some op =>
      have hop : StartsApart op.symbol.toList := by cases op <;> exact .of_toNat (by decide) []
      rw [text, String.toList_append]
      exact hop.append _
  | number word => exact .of_isNumberLiteral h
  | boolean value location => exact .of_isIdentifier (lexical_booleanText value)
  | parentheses x ih =>
    have hopen : StartsApart "(".toList := .of_toNat (by decide) []
    simp only [text, String.toList_append, List.append_assoc]
    exact hopen.append _
  | conditional condition yes no =>
    have hif : StartsApart "if ".toList := .of_toNat (by decide) ['f', ' ']
    simp only [text, String.toList_append, List.append_assoc]
    exact hif.append _
  | name word => exact .of_isIdentifier h.1

/-- The text of a readable formula is cut into its words. -/
lemma lexes {l : Level} {f : Formula l} (h : f.Readable) {rest : List Char} (hrest : Separated rest) :
    Lexes f.text.toList f.words rest := by
  induction f generalizing rest with
  | operand x ih => exact ih h hrest
  | link left op right ihl ihr =>
    simp only [text, String.toList_append, List.append_assoc]
    have hright := (ihr h.2 hrest).after_spaced op.lexical_symbol
    exact (ihl h.1 (separated_blank _)).append hright
  | plain x ih => exact ih h hrest
  | compare left op right ihl ihr =>
    simp only [text, String.toList_append, List.append_assoc]
    have hright := (ihr h.2 hrest).after_spaced op.lexical_symbol
    exact (ihl h.1 (separated_blank _)).append hright
  | factor op x ih =>
    cases op with
    | none => exact ih h hrest
    | some op =>
      rw [text, String.toList_append]
      exact (ih h hrest).symbol_append op.symbol op.lexical_symbol (startsApart_text (f := x) h)
  | number word => exact .number word.text h (hrest .number)
  | boolean value location => exact Lexes.word (lexical_booleanText value) (hrest .identifier)
  | parentheses x ih =>
    simp only [text, String.toList_append, List.append_assoc]
    have hclose : Lexes ")".toList [.symbol ")"] rest := .symbol ")" (by decide) (hrest .symbol)
    have hinner := (ih h (separated_cons ')' (by decide) rest)).append hclose
    exact hinner.symbol_append "(" (by decide) ((startsApart_text (f := x) h).append _)
  | conditional condition yes no ihc ihy ihn =>
    obtain ⟨hc, hy, hn⟩ := h
    have hend : Lexes " end".toList [.identifier "end"] rest :=
      (Lexes.identifier "end" (by decide) (hrest .identifier)).cons_blank isBlank_space
    have hno := (ihn hn (separated_blank _)).append hend
    have helse := hno.after_spaced (w := .identifier "else") (by decide)
    have hyes := (ihy hy (separated_blank _)).append helse
    have hthen := hyes.after_spaced (w := .identifier "then") (by decide)
    have hcondition := ((ihc hc (separated_blank _)).append hthen).cons_blank isBlank_space
    simp only [text, String.toList_append, List.append_assoc]
    exact hcondition.identifier_append "if" (by decide) (by decide)
  | name word => exact .identifier word.text h.1 (hrest .identifier)

end Formula

lemma lexes_names {first : Terminal} {others : List Terminal} {rest : List Char}
    (h : ∀ name ∈ first :: others, isIdentifier name.text.toList) (hrest : Separated rest) :
    Lexes (", ".intercalate ((first :: others).map (·.text))).toList (nameWords (first :: others))
      rest := by
  induction others generalizing first with
  | nil =>
    rw [List.map_singleton, String.intercalate_singleton]
    exact .identifier first.text (h first List.mem_cons_self) (hrest .identifier)
  | cons second others ih =>
    have htail := ih fun name hname => h name (List.mem_cons_of_mem _ hname)
    have hcomma := (Lexes.symbol "," (by decide) (separated_blank _ _)).append
      (htail.cons_blank isBlank_space)
    simp only [List.map_cons, String.intercalate_cons_cons, String.toList_append, List.append_assoc]
      at hcomma ⊢
    exact hcomma.identifier_append first.text (h first List.mem_cons_self) (by decide)

lemma Injectable.lexes {i : Injectable} (h : i.Readable) {rest : List Char} (hrest : Separated rest) :
    Lexes i.text.toList i.words rest := by
  obtain ⟨group, names⟩ := i
  obtain ⟨hgroup, hne, hnames⟩ := h
  obtain ⟨first, others, rfl⟩ := List.exists_cons_of_ne_nil hne
  have hcolon : Lexes (':' :: ' ' :: (", ".intercalate ((first :: others).map (·.text))).toList)
      (.symbol ":" :: nameWords (first :: others)) rest :=
    (Lexes.symbol ":" (by decide) (separated_blank _ _)).append
      ((lexes_names hnames hrest).cons_blank isBlank_space)
  have hline := hcolon.identifier_append group.text hgroup (by decide)
  simp only [text, String.toList_append, List.append_assoc]
  exact hline.symbol_append "$" (by decide) ((StartsApart.of_isIdentifier hgroup).append _)

lemma Definition.lexes {d : Definition} (h : d.Readable) {rest : List Char} (hrest : Separated rest) :
    Lexes d.text.toList d.words rest := by
  have hbody := (Formula.lexes h.2 hrest).after_spaced (w := .symbol "=") (by decide)
  simp only [text, String.toList_append, List.append_assoc]
  exact hbody.identifier_append d.name.text h.1 (by decide)

/-- Texts on lines of their own are cut up one after the other. -/
lemma Lexes.lines {α : Type} (text : α → String) (words : α → List Word) {items : List α}
    (h : ∀ x ∈ items, ∀ rest : List Char, Separated rest → Lexes (text x).toList (words x) rest)
    (rest : List Char) :
    Lexes ((items.map fun x => text x ++ "\n").flatMap String.toList) (items.flatMap words) rest := by
  induction items with
  | nil => exact .nil rest
  | cons x items ih =>
    have htail := ih fun y hy => h y (List.mem_cons_of_mem _ hy)
    have hend := htail.cons_blank (c := '\n') (by decide)
    simp only [List.map_cons, List.flatMap_cons, String.toList_append, List.append_assoc]
    exact (h x List.mem_cons_self _ (separated_cons '\n' (by decide) _)).append hend

/-- The text of a readable document is cut into its words. -/
theorem Document.tokenize_text {d : Document} (h : d.Readable) :
    ∃ tokens : List Token, tokenize d.text = .ok tokens ∧ tokens.map Token.word = d.words := by
  have hinjectables := Lexes.lines Injectable.text Injectable.words
    (fun i hi rest hrest => Injectable.lexes (h.1 i hi) hrest)
  have hdefinitions := Lexes.lines Definition.text Definition.words
    (fun e he rest hrest => Definition.lexes (h.2 e he) hrest) []
  have htext : d.text.toList = (d.injectables.map (·.text ++ "\n")).flatMap String.toList ++
      (d.definitions.map (·.text ++ "\n")).flatMap String.toList := by
    rw [text, String.toList_join, List.flatMap_append]
  have hlexes := (hinjectables _).append hdefinitions
  rw [← htext] at hlexes
  obtain ⟨tokens, hwords, hrun⟩ := hlexes.exists_tokenize
  exact ⟨tokens, hrun, hwords⟩

end Tariff
