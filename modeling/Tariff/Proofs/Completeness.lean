import Tariff.Document.Source
import Tariff.Proofs.Derivation
import Tariff.Proofs.ParserRuns

/-!
# Every derived document is parsed

The parser tries alternatives in order, takes as many links of a chain as there are, and gives up
for good where something has to follow. None of this loses a derivation: where a formula of a level
ends, no operator that could go on it follows (`Level.EndsBefore`), and the kind of a token of the
lexer is clear from a text that the grammar names. So tokens that are derived with a document are
parsed as this document (`Document.ofTokens_of_derives`).
-/

namespace Tariff

open Tariff.Parser

/-- The operators that go on a formula of the level. -/
def Level.continuations : Level → List String
  | .chain .logic => ["&&", "||", ">", ">=", "<", "<=", "==", "!=", "+", "-", "*", "/"]
  | .comparison => [">", ">=", "<", "<=", "==", "!=", "+", "-", "*", "/"]
  | .chain .sum => ["+", "-", "*", "/"]
  | .chain .product => ["*", "/"]
  | .factor => []
  | .atom => []

/-- The tokens do not go on a formula of the level. -/
def Level.EndsBefore (l : Level) (ts : List Token) : Prop :=
  ∀ t ∈ ts.head?, t.text ∉ l.continuations

namespace Level.EndsBefore

variable {l m : Level} {c : Chain} {t : Token} {ts : List Token}

lemma mono (hsub : m.continuations ⊆ l.continuations) (h : l.EndsBefore ts) : m.EndsBefore ts :=
  fun t ht hmem => h t ht (hsub hmem)

lemma operand (h : (Level.chain c).EndsBefore ts) : c.operand.EndsBefore ts :=
  h.mono (by cases c <;> decide)

lemma cons (h : t.text ∉ l.continuations) (ts : List Token) : l.EndsBefore (t :: ts) := by
  intro u hu
  obtain rfl := Option.some.inj hu
  exact h

lemma connective {op : Connective c} (h : t.text = op.symbol) (ts : List Token) :
    c.operand.EndsBefore (t :: ts) := by
  refine cons ?_ ts
  rw [h]
  cases op <;> decide

lemma comparison {op : Comparison} (h : t.text = op.symbol) (ts : List Token) :
    (Level.chain .sum).EndsBefore (t :: ts) := by
  refine cons ?_ ts
  rw [h]
  cases op <;> decide

end Level.EndsBefore

section Kinds

variable {t : Token} {kind : TokenKind} {text : String}

lemma text_ne_of_kind (h : t.word.Lexical) (hkind : t.kind = kind)
    (hnot : ¬(Word.mk kind text).Lexical) : t.text ≠ text := by
  rintro rfl
  subst hkind
  exact hnot h

lemma text_not_mem_of_kind (h : t.word.Lexical) (hkind : t.kind = kind) {texts : List String}
    (hnot : ∀ text ∈ texts, ¬(Word.mk kind text).Lexical) : t.text ∉ texts :=
  fun hmem => text_ne_of_kind h hkind (hnot t.text hmem) rfl

lemma kind_ne_of_text (h : t.word.Lexical) (htext : t.text = text)
    (hnot : ¬(Word.mk kind text).Lexical) : t.kind ≠ kind := by
  rintro rfl
  subst htext
  exact hnot h

end Kinds

namespace FormulaParser

variable {call : (rule : Rule) → List Token → Reply rule.Tree} {n : Nat}

/-- The parser of formulas of a level. -/
def ofLevel : (l : Level) → FormulaParser (Formula l)
  | .chain .logic => expression
  | .chain .sum => sum
  | .chain .product => product
  | .comparison => comparison
  | .factor => factor
  | .atom => atom

/-- An operator of a chain and the operand after it. -/
def link (c : Chain) : FormulaParser (Connective c × Formula c.operand) :=
  .seq (connective c) (.expect (operandDescription c) (ofLevel c.operand))

lemma ofLevel_chain (c : Chain) : ofLevel (.chain c) =
    .map (fun (first, rest) => Formula.chainOf first rest)
      (.seq (ofLevel c.operand) (.many (link c))) := by
  cases c <;> rfl

section Operators

variable {α : Type} {ts rest : List Token}

lemma accepts_sign {text : String} {value v : α} : Accepts call (sign text value) ts v rest ↔
    (∃ t : Token, ts = t :: rest ∧ t.text = text) ∧ value = v := by
  rw [sign, accepts_map]
  constructor
  · rintro ⟨a, ha, rfl⟩
    obtain ⟨t, hts, htext, -⟩ := accepts_literal.mp ha
    exact ⟨⟨t, hts, htext⟩, rfl⟩
  · rintro ⟨⟨t, hts, htext⟩, rfl⟩
    exact ⟨t.terminal, accepts_literal.mpr ⟨t, hts, htext, rfl⟩, rfl⟩

lemma declines_sign {text : String} {value : α} :
    Declines call (sign text value) ts ↔ ∀ t ∈ ts.head?, t.text ≠ text := by
  rw [sign, declines_map, declines_literal]

lemma accepts_connective {c : Chain} {op : Connective c} : Accepts call (connective c) ts op rest ↔
    ∃ t : Token, ts = t :: rest ∧ t.text = op.symbol := by
  cases op <;> simp [connective, accepts_or, accepts_sign, declines_sign, Connective.symbol]
  all_goals
    rintro t rfl ht
    simp [ht]

/-- A formula ends where its last operand does and no operator of its chain follows. -/
lemma endsBefore_chain {c : Chain} :
    (Level.chain c).EndsBefore ts ↔ c.operand.EndsBefore ts ∧ Declines call (connective c) ts := by
  cases ts with
  | nil => cases c <;> simp [Level.EndsBefore, connective, declines_or, declines_sign]
  | cons t ts =>
    cases c <;> simp [Level.EndsBefore, Level.continuations, Chain.operand, connective, declines_or,
      declines_sign, Connective.symbol] <;> tauto

lemma accepts_comparator {op : Comparison} : Accepts call comparator ts op rest ↔
    ∃ t : Token, ts = t :: rest ∧ t.text = op.symbol := by
  cases ts with
  | nil => cases op <;> simp [comparator, accepts_or, accepts_sign]
  | cons t us =>
    cases op <;> simp [comparator, accepts_or, accepts_sign, declines_sign, Comparison.symbol]
    all_goals grind

lemma endsBefore_comparison :
    Level.comparison.EndsBefore ts ↔ (Level.chain .sum).EndsBefore ts ∧ Declines call comparator ts := by
  cases ts with
  | nil => simp [Level.EndsBefore, comparator, declines_or, declines_sign]
  | cons t ts =>
    simp [Level.EndsBefore, Level.continuations, comparator, declines_or, declines_sign,
      Comparison.symbol]
    tauto

lemma accepts_unary {op : Unary} : Accepts call unary ts op rest ↔
    ∃ t : Token, ts = t :: rest ∧ t.text = op.symbol := by
  cases op <;> simp [unary, accepts_or, accepts_sign, declines_sign, Unary.symbol]
  rintro t rfl ht
  simp [ht]

lemma declines_unary : Declines call unary ts ↔ ∀ t ∈ ts.head?, t.text ∉ ["!", "-"] := by
  simp only [unary, declines_or, declines_sign, Unary.symbol, List.mem_cons, List.not_mem_nil,
    or_false, not_or]
  exact ⟨fun h t ht => ⟨h.1 t ht, h.2 t ht⟩, fun h => ⟨fun t ht => (h t ht).1, fun t ht => (h t ht).2⟩⟩

end Operators

/-- The rules that are called by name parse what is derived, as long as it is short enough. -/
structure CallsParse (call : (rule : Rule) → List Token → Reply rule.Tree) (n : Nat) : Prop where
  expression {ts : List Token} {f : Expression} (h : Derives ts f)
    (hlex : ∀ t ∈ ts, t.word.Lexical) (rest : List Token) (hend : (Level.chain .logic).EndsBefore rest)
    (hlen : (ts ++ rest).length < n) : call .expression (ts ++ rest) = ⟨.matched f, rest⟩
  comparison {ts : List Token} {f : Formula .comparison} (h : Derives ts f)
    (hlex : ∀ t ∈ ts, t.word.Lexical) (rest : List Token) (hend : Level.comparison.EndsBefore rest)
    (hlen : (ts ++ rest).length < n) : call .comparison (ts ++ rest) = ⟨.matched f, rest⟩

/-- The parser of the level reads the formula off the tokens. What it has read of a chain is the
start of whatever links follow. -/
def Reads (call : (rule : Rule) → List Token → Reply rule.Tree) (n : Nat) :
    (l : Level) → List Token → Formula l → Prop
  | .chain c, ts, f => ∀ links rest rest', c.operand.EndsBefore rest → (ts ++ rest).length ≤ n →
    Accepts call (.many (link c)) rest links rest' → Accepts call (ofLevel (.chain c)) (ts ++ rest)
      (links.foldl (fun left (op, right) => .link left op right) f) rest'
  | l, ts, f => ∀ rest, l.EndsBefore rest → (ts ++ rest).length ≤ n →
    Accepts call (ofLevel l) (ts ++ rest) f rest

lemma Reads.accepts {l : Level} {ts rest : List Token} {f : Formula l} (h : Reads call n l ts f)
    (hend : l.EndsBefore rest) (hlen : (ts ++ rest).length ≤ n) :
    Accepts call (ofLevel l) (ts ++ rest) f rest := by
  cases l with
  | chain c =>
    have hlink : Declines call (link c) rest := declines_seq.mpr (.inl (endsBefore_chain.mp hend).2)
    exact h [] rest rest hend.operand hlen (accepts_many_nil hlink)
  | comparison => exact h rest hend hlen
  | factor => exact h rest hend hlen
  | atom => exact h rest hend hlen

section Atoms

variable {t : Token} {ts rest : List Token} {f : Expression} {text : String}

lemma forall_head?_cons {P : Token → Prop} : (∀ u ∈ (t :: ts).head?, P u) ↔ P t := by
  simp

lemma accepts_keyword {description : String} (h : t.text = text) :
    Accepts call (keyword description text) (t :: rest) t.terminal rest :=
  accepts_expect.mpr (accepts_literal.mpr ⟨t, rfl, h, rfl⟩)

lemma accepts_expected {description : String} (h : call .expression ts = ⟨.matched f, rest⟩) :
    Accepts call (expected description) ts f rest :=
  accepts_expect.mpr h

lemma declines_number :
    Declines call (.map Formula.number number) ts ↔ ∀ t ∈ ts.head?, t.kind ≠ .number :=
  declines_map.trans declines_token

lemma accepts_boolean {value : Bool} (h : t.text = booleanText value) :
    Accepts call boolean (t :: rest) (.boolean value t.location) rest := by
  have haccept : Accepts call (.literal (booleanText value)) (t :: rest) t.terminal rest :=
    accepts_literal.mpr ⟨t, rfl, h, rfl⟩
  cases value with
  | true => exact .or (accepts_map.mpr ⟨t.terminal, haccept, rfl⟩)
  | false =>
    have hdecline : Declines call (.literal "true" : FormulaParser Terminal) (t :: rest) := by
      rw [declines_literal, forall_head?_cons, h]
      decide
    exact (declines_map.mpr hdecline).or (accepts_map.mpr ⟨t.terminal, haccept, rfl⟩)

lemma declines_boolean :
    Declines call boolean ts ↔ ∀ t ∈ ts.head?, t.text ∉ ["true", "false"] := by
  unfold boolean
  rw [declines_or, declines_map, declines_map, declines_literal, declines_literal]
  cases ts <;> simp

/-- All that follows the first word of the parentheses is expected. -/
lemma declines_parentheses : Declines call parentheses ts ↔ ∀ t ∈ ts.head?, t.text ≠ "(" :=
  declines_map.trans (declines_skip_expect.trans (declines_skipLeft_expect.trans declines_literal))

/-- All that follows the first word of a conditional is expected. -/
lemma declines_conditional : Declines call conditional ts ↔ ∀ t ∈ ts.head?, t.text ≠ "if" :=
  declines_map.trans <| declines_skip_expect.trans <| declines_seq_expect.trans <|
    declines_skip_expect.trans <| declines_seq_expect.trans <| declines_skip_expect.trans <|
    declines_skipLeft_expect.trans declines_literal

lemma accepts_parentheses {u : Token} (hopening : t.text = "(")
    (hx : call .expression ts = ⟨.matched f, u :: rest⟩) (hclosing : u.text = ")") :
    Accepts call parentheses (t :: ts) (.parentheses f) rest := by
  refine accepts_map.mpr ⟨f, ?_, rfl⟩
  refine accepts_skip.mpr ⟨u.terminal, u :: rest, ?_, accepts_keyword hclosing⟩
  exact accepts_skipLeft.mpr ⟨t.terminal, ts, accepts_literal.mpr ⟨t, rfl, hopening, rfl⟩,
    accepts_expected hx⟩

/-- A conditional up to the word after its condition. -/
def conditionPart : FormulaParser Expression :=
  ((Parser.literal "if").skipLeft (expected "a condition")).skip (keyword "\"then\"" "then")

/-- A conditional up to the word between its branches. -/
def yesPart : FormulaParser (Expression × Expression) :=
  (Parser.seq conditionPart (expected "an expression after \"then\"")).skip
    (keyword "\"else\"" "else")

lemma conditional_eq : conditional = .map (fun ((condition, yes), no) => .conditional condition yes no)
    ((Parser.seq yesPart (expected "an expression after \"else\"")).skip
      (keyword "\"end\"" "end")) := rfl

lemma accepts_conditionPart (hif : t.text = "if") {u : Token}
    (hcondition : call .expression ts = ⟨.matched f, u :: rest⟩) (hthen : u.text = "then") :
    Accepts call conditionPart (t :: ts) f rest := by
  refine accepts_skip.mpr ⟨u.terminal, u :: rest, ?_, accepts_keyword hthen⟩
  exact accepts_skipLeft.mpr ⟨t.terminal, ts, accepts_literal.mpr ⟨t, rfl, hif, rfl⟩,
    accepts_expected hcondition⟩

lemma accepts_yesPart {us : List Token} {yes : Expression} {u : Token}
    (hcondition : Accepts call conditionPart ts f us)
    (hyes : call .expression us = ⟨.matched yes, u :: rest⟩) (helse : u.text = "else") :
    Accepts call yesPart ts (f, yes) rest :=
  accepts_skip.mpr ⟨u.terminal, u :: rest, accepts_seq.mpr ⟨us, hcondition, accepts_expected hyes⟩,
    accepts_keyword helse⟩

lemma accepts_conditional {us : List Token} {yes no : Expression} {u : Token}
    (hyes : Accepts call yesPart ts (f, yes) us)
    (hno : call .expression us = ⟨.matched no, u :: rest⟩) (hend : u.text = "end") :
    Accepts call conditional ts (.conditional f yes no) rest := by
  rw [conditional_eq]
  refine accepts_map.mpr ⟨((f, yes), no), ?_, rfl⟩
  exact accepts_skip.mpr ⟨u.terminal, u :: rest, accepts_seq.mpr ⟨us, hyes, accepts_expected hno⟩,
    accepts_keyword hend⟩

lemma accepts_atom_number (hkind : t.kind = .number) :
    Accepts call atom (t :: rest) (.number t.terminal) rest :=
  .or (accepts_map.mpr ⟨t.terminal, accepts_token.mpr ⟨t, rfl, hkind, rfl⟩, rfl⟩)

lemma accepts_atom_boolean (hlex : t.word.Lexical) {value : Bool}
    (htext : t.text = booleanText value) :
    Accepts call atom (t :: rest) (.boolean value t.location) rest := by
  have hkind : t.kind ≠ .number := kind_ne_of_text hlex htext (by cases value <;> decide)
  have hnumber : Declines call (.map Formula.number number) (t :: rest) :=
    declines_number.mpr (forall_head?_cons.mpr hkind)
  exact hnumber.or (.or (accepts_boolean htext))

/-- An atom that is neither a number nor a truth value. -/
lemma accepts_atom {x : Formula .atom} (hkind : t.kind ≠ .number) (htext : t.text ∉ ["true", "false"])
    (h : Accepts call (parentheses <|> conditional <|> .map .name identifier) (t :: ts) x rest) :
    Accepts call atom (t :: ts) x rest := by
  have hnumber : Declines call (.map Formula.number number) (t :: ts) :=
    declines_number.mpr (forall_head?_cons.mpr hkind)
  have hboolean : Declines call boolean (t :: ts) := declines_boolean.mpr (forall_head?_cons.mpr htext)
  exact hnumber.or (hboolean.or h)

lemma accepts_atom_parentheses {x : Formula .atom} (hlex : t.word.Lexical) (htext : t.text = "(")
    (h : Accepts call parentheses (t :: ts) x rest) : Accepts call atom (t :: ts) x rest :=
  accepts_atom (kind_ne_of_text hlex htext (by decide)) (by rw [htext]; decide) (.or h)

lemma accepts_atom_conditional {x : Formula .atom} (hlex : t.word.Lexical) (htext : t.text = "if")
    (h : Accepts call conditional (t :: ts) x rest) : Accepts call atom (t :: ts) x rest := by
  have hparentheses : Declines call parentheses (t :: ts) :=
    declines_parentheses.mpr (forall_head?_cons.mpr (by rw [htext]; decide))
  exact accepts_atom (kind_ne_of_text hlex htext (by decide)) (by rw [htext]; decide)
    (hparentheses.or (.or h))

lemma accepts_atom_name (hlex : t.word.Lexical) (hkind : t.kind = .identifier)
    (hfree : t.text ∉ reservedWords) : Accepts call atom (t :: rest) (.name t.terminal) rest := by
  have hparentheses : Declines call parentheses (t :: rest) :=
    declines_parentheses.mpr (forall_head?_cons.mpr (text_ne_of_kind hlex hkind (by decide)))
  have hconditional : Declines call conditional (t :: rest) :=
    declines_conditional.mpr (forall_head?_cons.mpr fun htext => hfree (by rw [htext]; decide))
  have hname : Accepts call (.map Formula.name identifier) (t :: rest) (.name t.terminal) rest :=
    accepts_map.mpr ⟨t.terminal, accepts_token.mpr ⟨t, rfl, hkind, rfl⟩, rfl⟩
  exact accepts_atom (by rw [hkind]; decide) (fun hmem => hfree (List.mem_cons_of_mem _ hmem))
    (hparentheses.or (hconditional.or hname))

/-- No atom starts with an operator. -/
lemma declines_unary_of_derives {x : Formula .atom} (h : Derives ts x)
    (hlex : ∀ t ∈ ts, t.word.Lexical) (rest : List Token) : Declines call unary (ts ++ rest) := by
  rw [declines_unary]
  cases h with
  | number hkind =>
    have ht := hlex _ List.mem_cons_self
    exact forall_head?_cons.mpr (text_not_mem_of_kind ht hkind (by decide))
  | boolean htext => exact forall_head?_cons.mpr (by rw [htext, booleanText]; split <;> decide)
  | parentheses hopening => exact forall_head?_cons.mpr (by rw [hopening]; decide)
  | conditional hif => exact forall_head?_cons.mpr (by rw [hif]; decide)
  | name hkind =>
    have ht := hlex _ List.mem_cons_self
    exact forall_head?_cons.mpr (text_not_mem_of_kind ht hkind (by decide))

end Atoms

section Reading

variable {ts rest : List Token} {t : Token}

lemma accepts_link {c : Chain} {op : Connective c} {x : Formula c.operand} (hop : t.text = op.symbol)
    (hx : Accepts call (ofLevel c.operand) ts x rest) : Accepts call (link c) (t :: ts) (op, x) rest :=
  accepts_seq.mpr ⟨ts, accepts_connective.mpr ⟨t, rfl, hop⟩, accepts_expect.mpr hx⟩

lemma accepts_plain {x : Formula (.chain .sum)} (hx : Accepts call sum ts x rest)
    (hend : Level.comparison.EndsBefore rest) : Accepts call comparison ts (.plain x) rest := by
  refine accepts_map.mpr ⟨(x, none), accepts_seq.mpr ⟨rest, hx, ?_⟩, rfl⟩
  refine accepts_optional_none.mpr ⟨?_, rfl⟩
  exact declines_seq.mpr (.inl (endsBefore_comparison.mp hend).2)

lemma accepts_compare {us : List Token} {x : Formula (.chain .sum)} {op : Comparison}
    {y : Formula .comparison} (hx : Accepts call sum ts x (t :: us)) (hop : t.text = op.symbol)
    (hy : call .comparison us = ⟨.matched y, rest⟩) :
    Accepts call comparison ts (.compare x op y) rest := by
  refine accepts_map.mpr ⟨(x, some (op, y)), accepts_seq.mpr ⟨t :: us, hx, ?_⟩, rfl⟩
  have hright : Accepts call (rule .comparison) us y rest := hy
  exact accepts_optional_some.mpr (accepts_seq.mpr ⟨us, accepts_comparator.mpr ⟨t, rfl, hop⟩,
    accepts_expect.mpr hright⟩)

lemma accepts_bare {x : Formula .atom} (hnone : Declines call unary ts)
    (hx : Accepts call atom ts x rest) : Accepts call factor ts (.factor none x) rest :=
  accepts_map.mpr ⟨(none, x), accepts_seq.mpr ⟨ts, accepts_optional_none.mpr ⟨hnone, rfl⟩, hx⟩, rfl⟩

lemma accepts_factor {op : Unary} {x : Formula .atom} (hop : t.text = op.symbol)
    (hx : Accepts call atom ts x rest) : Accepts call factor (t :: ts) (.factor (some op) x) rest :=
  accepts_map.mpr ⟨(some op, x), accepts_seq.mpr ⟨ts,
    accepts_optional_some.mpr (accepts_unary.mpr ⟨t, rfl, hop⟩), hx⟩, rfl⟩

lemma endsBefore_atom (ts : List Token) : Level.atom.EndsBefore ts := by
  simp [Level.EndsBefore, Level.continuations]

/-- Tokens derived with a formula are read as it. -/
theorem reads_of_derives (hcall : CallsParse call n) {l : Level} {f : Formula l} (h : Derives ts f)
    (hlex : ∀ t ∈ ts, t.word.Lexical) : Reads call n l ts f := by
  induction h with
  | operand hx ih =>
    intro links rest rest' hend hlen hlinks
    have hfirst := (ih hlex).accepts hend hlen
    rw [ofLevel_chain, accepts_map]
    exact ⟨(_, links), accepts_seq.mpr ⟨rest, hfirst, hlinks⟩, rfl⟩
  | @link c ts us t left op right hleft hop hright ihl ihr =>
    intro links rest rest' hend hlen hlinks
    rw [List.forall_mem_append, List.forall_mem_cons] at hlex
    obtain ⟨hts, -, hus⟩ := hlex
    rw [List.append_assoc, List.cons_append] at hlen ⊢
    simp only [List.length_append, List.length_cons] at hlen
    have hoperand := (ihr hus).accepts hend (by rw [List.length_append]; omega)
    have hmany := accepts_many_cons (accepts_link hop hoperand)
      (by rw [List.length_cons, List.length_append]; omega) hlinks
    exact ihl hts ((op, right) :: links) (t :: (us ++ rest)) rest' (.connective hop _)
      (by simp only [List.length_append, List.length_cons]; omega) hmany
  | plain hx ih =>
    intro rest hend hlen
    exact accepts_plain ((ih hlex).accepts (hend.mono (by decide)) hlen) hend
  | @compare ts us t left op right hleft hop hright ihl ihr =>
    intro rest hend hlen
    rw [List.forall_mem_append, List.forall_mem_cons] at hlex
    obtain ⟨hts, -, hus⟩ := hlex
    rw [List.append_assoc, List.cons_append] at hlen ⊢
    have hvalue := (ihl hts).accepts (.comparison hop _) hlen
    simp only [List.length_append, List.length_cons] at hlen
    have hcompared := hcall.comparison hright hus rest hend (by rw [List.length_append]; omega)
    exact accepts_compare hvalue hop hcompared
  | @bare ts x hx ih =>
    intro rest hend hlen
    have hbase := (ih hlex).accepts (endsBefore_atom rest) hlen
    exact accepts_bare (declines_unary_of_derives hx hlex rest) hbase
  | @unary t ts op x hop hx ih =>
    intro rest hend hlen
    rw [List.forall_mem_cons] at hlex
    rw [List.cons_append, List.length_cons] at hlen
    have hbase := (ih hlex.2).accepts (endsBefore_atom rest) (by omega)
    exact accepts_factor hop hbase
  | number hkind =>
    intro rest hend hlen
    exact accepts_atom_number hkind
  | boolean htext =>
    intro rest hend hlen
    exact accepts_atom_boolean (hlex _ List.mem_cons_self) htext
  | @parentheses opening closing ts x hopening hx hclosing ih =>
    intro rest hend hlen
    rw [List.forall_mem_cons, List.forall_mem_append] at hlex
    rw [List.cons_append, List.append_assoc, List.cons_append, List.nil_append] at hlen ⊢
    rw [List.length_cons] at hlen
    have hinner := hcall.expression hx hlex.2.1 (closing :: rest)
      (.cons (by rw [hclosing]; decide) rest) (by omega)
    exact accepts_atom_parentheses hlex.1 hopening (accepts_parentheses hopening hinner hclosing)
  | @conditional tif tthen telse tend ts us vs condition yes no hif hcondition hthen hyes helse hno
      hend ihc ihy ihn =>
    intro rest hrest hlen
    simp only [List.forall_mem_cons, List.forall_mem_append] at hlex
    obtain ⟨htif, hts, -, hus, -, hvs, -⟩ := hlex
    simp only [List.cons_append, List.append_assoc, List.nil_append, List.length_cons,
      List.length_append] at hlen ⊢
    have hcondition := hcall.expression hcondition hts
      (tthen :: (us ++ telse :: (vs ++ tend :: rest))) (.cons (by rw [hthen]; decide) _)
      (by simp only [List.length_append, List.length_cons]; omega)
    have hyes := hcall.expression hyes hus (telse :: (vs ++ tend :: rest))
      (.cons (by rw [helse]; decide) _) (by simp only [List.length_append, List.length_cons]; omega)
    have hno := hcall.expression hno hvs (tend :: rest)
      (.cons (by rw [hend]; decide) _) (by simp only [List.length_append, List.length_cons]; omega)
    exact accepts_atom_conditional htif hif (accepts_conditional
      (accepts_yesPart (accepts_conditionPart hif hcondition hthen) hyes helse) hno hend)
  | name hkind hfree =>
    intro rest hend hlen
    exact accepts_atom_name (hlex _ List.mem_cons_self) hkind hfree

end Reading

lemma CallsParse.guard (h : CallsParse call n) : CallsParse
    (fun rule ts => if ts.length < n then call rule ts else ⟨.noMatch, ts⟩) n := by
  constructor
  · intro ts f hf hlex rest hend hlen
    rw [if_pos hlen]
    exact h.expression hf hlex rest hend hlen
  · intro ts f hf hlex rest hend hlen
    rw [if_pos hlen]
    exact h.comparison hf hlex rest hend hlen

lemma CallsParse.mono {m : Nat} (h : CallsParse call n) (hle : m ≤ n) : CallsParse call m :=
  ⟨fun hf hlex rest hend hlen => h.expression hf hlex rest hend (by omega),
    fun hf hlex rest hend hlen => h.comparison hf hlex rest hend (by omega)⟩

/-- Each rule parses what is derived from it. A rule is called on fewer tokens than it has itself, so
this is an induction on their number. -/
theorem callsParse_run (n : Nat) : CallsParse formulaGrammar.run n := by
  induction n with
  | zero =>
    exact ⟨fun _ _ _ _ hlen => absurd hlen (Nat.not_lt_zero _),
      fun _ _ _ _ hlen => absurd hlen (Nat.not_lt_zero _)⟩
  | succ n ih =>
    constructor
    · intro ts f hf hlex rest hend hlen
      have hcall := (ih.mono (Nat.le_of_lt_succ hlen)).guard
      rw [Grammar.run]
      exact (reads_of_derives hcall hf hlex).accepts hend (Nat.le_refl _)
    · intro ts f hf hlex rest hend hlen
      have hcall := (ih.mono (Nat.le_of_lt_succ hlen)).guard
      rw [Grammar.run]
      exact (reads_of_derives hcall hf hlex).accepts hend (Nat.le_refl _)

/-- The first tokens pass the tests one by one. -/
def Front (tests : List (Token → Prop)) (ts : List Token) : Prop :=
  ∃ us, us <+: ts ∧ List.Forall₂ (fun test t => test t) tests us

/-- A comma and a name. -/
def nextFront : List (Token → Prop) :=
  [(·.text = ","), (·.kind = .identifier)]

/-- A group up to its first name. -/
def groupFront : List (Token → Prop) :=
  [(·.text = "$"), (·.kind = .identifier), (·.text = ":"), (·.kind = .identifier)]

/-- A definition up to its formula. -/
def headingFront : List (Token → Prop) :=
  [(·.kind = .identifier), (·.text = "=")]

section Fronts

variable {test : Token → Prop} {tests : List (Token → Prop)} {t : Token} {ts us : List Token}

lemma Front.extended (h : Front tests ts) (hlonger : ts <+: us) : Front tests us := by
  obtain ⟨vs, hvs, htests⟩ := h
  exact ⟨vs, hvs.trans hlonger, htests⟩

@[simp] lemma front_nil (ts : List Token) : Front [] ts :=
  ⟨[], List.nil_prefix, .nil⟩

@[simp] lemma not_front_cons_nil : ¬Front (test :: tests) [] := by
  rintro ⟨us, hus, htests⟩
  rw [List.prefix_nil.mp hus] at htests
  cases htests

@[simp] lemma front_cons : Front (test :: tests) (t :: ts) ↔ test t ∧ Front tests ts := by
  constructor
  · rintro ⟨us, hus, htests⟩
    cases htests with
    | cons htest htests =>
      obtain ⟨rfl, htail⟩ := List.cons_prefix_cons.mp hus
      exact ⟨htest, _, htail, htests⟩
  · rintro ⟨htest, us, hus, htests⟩
    exact ⟨t :: us, List.cons_prefix_cons.mpr ⟨rfl, hus⟩, .cons htest htests⟩

lemma declines_next : Declines call ((Parser.literal ",").skipLeft identifier) ts ↔
    ¬Front nextFront ts := by
  rw [declines_skipLeft, declines_literal]
  simp only [identifier, declines_token, accepts_literal, nextFront]
  rcases ts with _ | ⟨t, _ | ⟨u, ts⟩⟩ <;> simp <;> grind

lemma declines_definition : Declines call definition ts ↔ ¬Front headingFront ts := by
  unfold definition
  rw [declines_map, declines_seq_expect, declines_skip]
  simp only [identifier, declines_token, declines_literal, accepts_token, headingFront]
  rcases ts with _ | ⟨t, _ | ⟨u, ts⟩⟩ <;> simp <;> grind

lemma declines_injectable : Declines call injectable ts ↔ ¬Front groupFront ts := by
  unfold injectable
  rw [declines_map, declines_seq]
  simp only [not_declines_many, and_false, exists_false, or_false, declines_seq, declines_skip,
    declines_skipLeft, accepts_skip, accepts_skipLeft, identifier, declines_token,
    declines_literal, accepts_token, accepts_literal, groupFront]
  rcases ts with _ | ⟨t, _ | ⟨u, _ | ⟨v, _ | ⟨w, ts⟩⟩⟩⟩ <;> simp <;> grind

end Fronts

/-! ### Documents -/

section Documents

variable {ts us rest : List Token} {t : Token} {injectables : List Injectable}
  {definitions : List Definition}

/-- Pieces that are derived one after the other are the first rounds of a repetition. -/
lemma run_many_append {α : Type} {p : FormulaParser α} {derives : List Token → α → Prop} {xs : List α}
    (ends : List Token → Prop)
    (hitem : ∀ ts x rest, derives ts x → (∀ t ∈ ts, t.word.Lexical) → ends rest →
      Accepts call p (ts ++ rest) x rest)
    (hfront : ∀ ts x rest, derives ts x → (∀ t ∈ ts, t.word.Lexical) → ts ≠ [] ∧ ends (ts ++ rest))
    (h : DerivesEach derives ts xs) (hlex : ∀ t ∈ ts, t.word.Lexical) (hend : xs ≠ [] → ends rest) :
    (Parser.many p).run call (ts ++ rest) = ((Parser.many p).run call rest).map (xs ++ ·) := by
  induction h with
  | nil => rw [List.nil_append, Reply.map_nil_append]
  | @cons ts us x xs hx hxs ih =>
    rw [List.forall_mem_append] at hlex
    have hrest : ends rest := hend (List.cons_ne_nil x xs)
    have hends : ends (us ++ rest) := by
      cases hxs with
      | nil => exact hrest
      | cons hy hys =>
        rw [List.append_assoc]
        exact (hfront _ _ _ hy fun t ht => hlex.2 t (List.mem_append_left _ ht)).2
    have hpos := List.length_pos_iff.mpr (hfront ts x rest hx hlex.1).1
    have hlt : (us ++ rest).length < (ts ++ (us ++ rest)).length := by
      simp only [List.length_append]
      omega
    rw [List.append_assoc, run_many, Reply.many_cons (hitem ts x _ hx hlex.1 hends) hlt, ← run_many,
      ih hlex.2 fun _ => hrest, Reply.map_map]
    rfl

lemma accepts_many {α : Type} {p : FormulaParser α} {derives : List Token → α → Prop} {xs : List α}
    (ends : List Token → Prop)
    (hitem : ∀ ts x rest, derives ts x → (∀ t ∈ ts, t.word.Lexical) → ends rest →
      Accepts call p (ts ++ rest) x rest)
    (hfront : ∀ ts x rest, derives ts x → (∀ t ∈ ts, t.word.Lexical) → ts ≠ [] ∧ ends (ts ++ rest))
    (h : DerivesEach derives ts xs) (hlex : ∀ t ∈ ts, t.word.Lexical) (hend : xs ≠ [] → ends rest)
    (hstop : Declines call p rest) : Accepts call (.many p) (ts ++ rest) xs rest := by
  have hnone : Accepts call (.many p) rest [] rest := accepts_many_nil hstop
  rw [Accepts, run_many_append ends hitem hfront h hlex hend, hnone, Reply.map, List.append_nil]

lemma accepts_names {names : List Terminal} (h : DerivesEach DerivesNext ts names)
    (hlex : ∀ t ∈ ts, t.word.Lexical) (hend : ¬Front nextFront rest) :
    Accepts call (.many ((Parser.literal ",").skipLeft identifier)) (ts ++ rest) names rest := by
  refine accepts_many (fun _ => True) ?_ ?_ h hlex (fun _ => trivial) (declines_next.mpr hend)
  · rintro _ _ rest ⟨hcomma, hname⟩ - -
    exact accepts_skipLeft.mpr ⟨_, _, accepts_literal.mpr ⟨_, rfl, hcomma, rfl⟩,
      accepts_token.mpr ⟨_, rfl, hname, rfl⟩⟩
  · rintro _ _ rest ⟨-, -⟩ -
    exact ⟨List.cons_ne_nil _ _, trivial⟩

lemma accepts_injectable {i : Injectable} (h : DerivesInjectable ts i)
    (hlex : ∀ t ∈ ts, t.word.Lexical) (hend : ¬Front nextFront rest) :
    Accepts call injectable (ts ++ rest) i rest := by
  cases h with
  | @group dollar group colon first ts others hdollar hgroup hcolon hfirst hothers =>
    simp only [List.forall_mem_cons] at hlex
    have hnames : Accepts call _ (ts ++ rest) others rest := accepts_names hothers hlex.2.2.2.2 hend
    refine accepts_map.mpr ⟨((group.terminal, first.terminal), others),
      accepts_seq.mpr ⟨ts ++ rest, accepts_seq.mpr ⟨first :: (ts ++ rest), ?_,
        accepts_token.mpr ⟨first, rfl, hfirst, rfl⟩⟩, hnames⟩, rfl⟩
    refine accepts_skip.mpr ⟨colon.terminal, colon :: first :: (ts ++ rest), ?_,
      accepts_literal.mpr ⟨colon, rfl, hcolon, rfl⟩⟩
    exact accepts_skipLeft.mpr ⟨dollar.terminal, group :: colon :: first :: (ts ++ rest),
      accepts_literal.mpr ⟨dollar, rfl, hdollar, rfl⟩, accepts_token.mpr ⟨group, rfl, hgroup, rfl⟩⟩

/-- A group starts with a dollar, which no comma is. -/
lemma front_injectable {i : Injectable} (h : DerivesInjectable ts i) (rest : List Token) :
    ts ≠ [] ∧ ¬Front nextFront (ts ++ rest) := by
  cases h with
  | group hdollar => exact ⟨List.cons_ne_nil _ _, by simp [nextFront, hdollar]⟩

lemma accepts_heading {name : Terminal} : Accepts call (identifier.skip (.literal "=")) ts name rest ↔
    ∃ t sign : Token, ts = t :: sign :: rest ∧ t.kind = .identifier ∧ sign.text = "=" ∧
      t.terminal = name := by
  simp only [accepts_skip, identifier, accepts_token, accepts_literal]
  grind

lemma accepts_definition {d : Definition} (h : DerivesDefinition ts d)
    (hlex : ∀ t ∈ ts, t.word.Lexical) (hend : (Level.chain .logic).EndsBefore rest) :
    Accepts formulaGrammar.run definition (ts ++ rest) d rest := by
  cases h with
  | @definition name sign ts body hname hsign hbody =>
    simp only [List.forall_mem_cons] at hlex
    have hreads := reads_of_derives (callsParse_run (ts ++ rest).length) hbody hlex.2.2
    have hexpression := hreads.accepts hend (Nat.le_refl _)
    have hheading : Accepts formulaGrammar.run _ (name :: sign :: (ts ++ rest)) name.terminal _ :=
      accepts_heading.mpr ⟨name, sign, rfl, hname, hsign, rfl⟩
    exact accepts_map.mpr ⟨(name.terminal, body), accepts_seq.mpr ⟨ts ++ rest, hheading,
      accepts_expect.mpr hexpression⟩, rfl⟩

/-- A definition starts with an identifier, which is none of the symbols. -/
lemma front_definition {d : Definition} (h : DerivesDefinition ts d)
    (hlex : ∀ t ∈ ts, t.word.Lexical) {texts : List String}
    (hnot : ∀ text ∈ texts, ¬(Word.identifier text).Lexical) (rest : List Token) :
    ts ≠ [] ∧ ∀ t ∈ (ts ++ rest).head?, t.text ∉ texts := by
  cases h with
  | definition hname hsign hbody =>
    have hfront := hlex _ List.mem_cons_self
    exact ⟨List.cons_ne_nil _ _, forall_head?_cons.mpr (text_not_mem_of_kind hfront hname hnot)⟩

/-- What starts with neither a comma nor a dollar goes on no group. -/
lemma not_front_of_head? (h : ∀ t ∈ ts.head?, t.text ∉ [",", "$"]) :
    ¬Front nextFront ts ∧ ¬Front groupFront ts := by
  cases ts with
  | nil => simp [nextFront, groupFront]
  | cons t ts =>
    rw [forall_head?_cons, List.mem_pair, not_or] at h
    simp [nextFront, groupFront, h]

lemma front_definitions (h : DerivesEach DerivesDefinition ts definitions)
    (hlex : ∀ t ∈ ts, t.word.Lexical) (hrest : ∀ t ∈ rest.head?, t.text ∉ [",", "$"]) :
    ¬Front nextFront (ts ++ rest) ∧ ¬Front groupFront (ts ++ rest) := by
  cases h with
  | nil => exact not_front_of_head? hrest
  | cons hx hxs =>
    rw [List.forall_mem_append] at hlex
    rw [List.append_assoc]
    exact not_front_of_head? (front_definition hx hlex.1 (by decide) _).2

/-- What follows the groups and the definitions of a document does not go on it. -/
structure DocumentEnds (injectables : List Injectable) (definitions : List Definition)
    (us rest : List Token) : Prop where
  names : injectables ≠ [] → ¬Front nextFront (us ++ rest)
  groups : ¬Front groupFront (us ++ rest)
  body : definitions ≠ [] → (Level.chain .logic).EndsBefore rest
  headings : ¬Front headingFront rest

lemma accepts_injectables (h : DerivesEach DerivesInjectable ts injectables)
    (hlex : ∀ t ∈ ts, t.word.Lexical) (hnames : injectables ≠ [] → ¬Front nextFront rest)
    (hgroups : ¬Front groupFront rest) :
    Accepts call (.many injectable) (ts ++ rest) injectables rest :=
  accepts_many (¬Front nextFront ·) (fun _ _ _ hi hts hrest => accepts_injectable hi hts hrest)
    (fun _ _ rest hi _ => front_injectable hi rest) h hlex hnames (declines_injectable.mpr hgroups)

lemma run_definitions_append (h : DerivesEach DerivesDefinition ts definitions)
    (hlex : ∀ t ∈ ts, t.word.Lexical)
    (hend : definitions ≠ [] → (Level.chain .logic).EndsBefore rest) :
    (Parser.many definition).run formulaGrammar.run (ts ++ rest) =
      ((Parser.many definition).run formulaGrammar.run rest).map (definitions ++ ·) :=
  run_many_append (Level.chain .logic).EndsBefore
    (fun _ _ _ hd hts hrest => accepts_definition hd hts hrest)
    (fun _ _ rest hd hts => front_definition hd hts (by decide) rest) h hlex hend

lemma accepts_definitions (h : DerivesEach DerivesDefinition ts definitions)
    (hlex : ∀ t ∈ ts, t.word.Lexical)
    (hend : definitions ≠ [] → (Level.chain .logic).EndsBefore rest)
    (hheadings : ¬Front headingFront rest) :
    Accepts formulaGrammar.run (.many definition) (ts ++ rest) definitions rest := by
  have hnone : Accepts formulaGrammar.run (.many definition) rest [] rest :=
    accepts_many_nil (declines_definition.mpr hheadings)
  rw [Accepts, run_definitions_append h hlex hend, hnone, Reply.map, List.append_nil]

/-- A document is read off the tokens that are derived with it, if what follows does not go on it. -/
theorem accepts_document (hinjectables : DerivesEach DerivesInjectable ts injectables)
    (hdefinitions : DerivesEach DerivesDefinition us definitions)
    (hlex : ∀ t ∈ ts ++ us, t.word.Lexical) (hends : DocumentEnds injectables definitions us rest) :
    Accepts formulaGrammar.run document (ts ++ (us ++ rest)) ⟨injectables, definitions⟩ rest := by
  rw [List.forall_mem_append] at hlex
  exact accepts_map.mpr ⟨(_, _), accepts_seq.mpr ⟨_,
    accepts_injectables hinjectables hlex.1 hends.names hends.groups,
    accepts_definitions hdefinitions hlex.2 hends.body hends.headings⟩, rfl⟩

/-- Every document ends where the tokens do. -/
lemma documentEnds_nil (hdefinitions : DerivesEach DerivesDefinition us definitions)
    (hlex : ∀ t ∈ us, t.word.Lexical) : DocumentEnds injectables definitions us [] where
  names _ := (front_definitions hdefinitions hlex (by simp)).1
  groups := (front_definitions hdefinitions hlex (by simp)).2
  body _ := by simp [Level.EndsBefore]
  headings := by simp [headingFront]

end Documents

end FormulaParser

/-- The tokens of a document are parsed as this document. -/
theorem Document.ofTokens_of_derives {ts : List Token} {d : Document} (h : DerivesDocument ts d)
    (hlex : ∀ t ∈ ts, t.word.Lexical) : Document.ofTokens ts = .ok d := by
  obtain ⟨hinjectables, hdefinitions⟩ := h
  have hrun := FormulaParser.accepts_document hinjectables hdefinitions hlex
    (FormulaParser.documentEnds_nil hdefinitions (List.forall_mem_append.mp hlex).2)
  rw [List.append_nil] at hrun
  rw [ofTokens, show FormulaParser.document.reply _ = _ from hrun]

end Tariff
