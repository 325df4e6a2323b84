import Tariff.Document
import Tariff.Parsing.Parser

/-!
# The grammar of formula documents

    document   := { injectable } { definition }
    injectable := "$" id ":" id { "," id }
    definition := id "=" expression!
    expression := comparison { ("&&" | "||") comparison! }
    comparison := sum [ (">" | ">=" | "<" | "<=" | "==" | "!=") comparison! ]
    sum        := product { ("+" | "-") product! }
    product    := factor { ("*" | "/") factor! }
    factor     := [ "!" | "-" ] atom
    atom       := number | "true" | "false" | "(" expression! ")"! | conditional | id
    conditional := "if" expression! "then"! expression! "else"! expression! "end"!

A `!` marks what has to follow: once the rule has come so far, anything else is an error. Two rules
call themselves, so they alone are named in `Rule`.
-/

namespace Tariff

/-- The rules that are called by name. -/
inductive Rule where
  | expression
  | comparison
deriving DecidableEq, Repr

def Rule.Tree : Rule → Type
  | .expression => Expression
  | .comparison => Formula .comparison

/-- A parser over the rules of formula documents. -/
abbrev FormulaParser := Parser Rule.Tree

namespace FormulaParser

def identifier : FormulaParser Terminal := .token .identifier

def number : FormulaParser Terminal := .token .number

/-- A fixed text that stands for a value. -/
def sign {α : Type} (text : String) (value : α) : FormulaParser α :=
  .map (fun _ => value) (.literal text)

def boolean : FormulaParser (Formula .atom) :=
  .map (fun t => .boolean true t.location) (.literal "true") <|>
    .map (fun t => .boolean false t.location) (.literal "false")

def unary : FormulaParser Unary :=
  sign Unary.not.symbol .not <|> sign Unary.negate.symbol .negate

def connective : (c : Chain) → FormulaParser (Connective c)
  | .logic => sign Connective.and.symbol .and <|> sign Connective.or.symbol .or
  | .sum => sign Connective.add.symbol .add <|> sign Connective.subtract.symbol .subtract
  | .product => sign Connective.multiply.symbol .multiply <|> sign Connective.divide.symbol .divide

def comparator : FormulaParser Comparison :=
  sign Comparison.greater.symbol .greater <|>
    sign Comparison.greaterOrEqual.symbol .greaterOrEqual <|>
    sign Comparison.less.symbol .less <|>
    sign Comparison.lessOrEqual.symbol .lessOrEqual <|>
    sign Comparison.equal.symbol .equal <|>
    sign Comparison.notEqual.symbol .notEqual

def rule (r : Rule) : FormulaParser r.Tree := .call r

/-- A formula that has to follow. -/
def expected (description : String) : FormulaParser Expression :=
  .expect description (rule .expression)

/-- A word that has to follow. -/
def keyword (description text : String) : FormulaParser Terminal :=
  .expect description (.literal text)

def parentheses : FormulaParser (Formula .atom) :=
  .map .parentheses <|
    ((Parser.literal "(").skipLeft (expected "a value between the parentheses")).skip
      (keyword "literal \")\"" ")")

def conditional : FormulaParser (Formula .atom) :=
  .map (fun ((condition, yes), no) => .conditional condition yes no) <|
    (Parser.seq
      ((Parser.seq
        (((Parser.literal "if").skipLeft (expected "a condition")).skip
          (keyword "\"then\"" "then"))
        (expected "an expression after \"then\"")).skip
          (keyword "\"else\"" "else"))
      (expected "an expression after \"else\"")).skip
        (keyword "\"end\"" "end")

def atom : FormulaParser (Formula .atom) :=
  .map .number number <|> boolean <|> parentheses <|> conditional <|> .map .name identifier

def factor : FormulaParser (Formula .factor) :=
  .map (fun (op, base) => .factor op base) (.seq (.optional unary) atom)

/-- What has to follow an operator of a chain. -/
def operandDescription : Chain → String
  | .logic => "a predicate after the logic operator"
  | .sum => "a sumator after the operator"
  | .product => "a factor after the operator"

/-- A chain of operands. -/
def chain (c : Chain) (operand : FormulaParser (Formula c.operand)) :
    FormulaParser (Formula (.chain c)) :=
  .map (fun (first, rest) => Formula.chainOf first rest) <|
    .seq operand (.many (.seq (connective c) (.expect (operandDescription c) operand)))

def product : FormulaParser (Formula (.chain .product)) := chain .product factor

def sum : FormulaParser (Formula (.chain .sum)) := chain .sum product

/-- A sum, compared with what follows if a comparison does. -/
def comparison : FormulaParser (Formula .comparison) :=
  .map (fun
      | (value, none) => .plain value
      | (value, some (op, right)) => .compare value op right) <|
    .seq sum (.optional
      (.seq comparator (.expect "a predicate after the comparison operator" (rule .comparison))))

def expression : FormulaParser Expression := chain .logic comparison

def injectable : FormulaParser Injectable :=
  .map (fun ((group, first), rest) => ⟨group, first :: rest⟩) <|
    Parser.seq
      (Parser.seq (((Parser.literal "$").skipLeft identifier).skip (.literal ":")) identifier)
      (.many ((Parser.literal ",").skipLeft identifier))

def definition : FormulaParser Definition :=
  .map (fun (name, body) => ⟨name, body⟩) <|
    .seq (identifier.skip (.literal "="))
      (.expect "an expression after the \"=\" symbol" expression)

def document : FormulaParser Document :=
  .map (fun (injectables, definitions) => ⟨injectables, definitions⟩) <|
    .seq (.many injectable) (.many definition)

end FormulaParser

/-- The parser of each rule that is called by name. -/
def formulaGrammar : Grammar Rule.Tree
  | .expression => FormulaParser.expression
  | .comparison => FormulaParser.comparison

/-- What a parser over the grammar of documents does to the tokens ahead. -/
def FormulaParser.reply {α : Type} (p : FormulaParser α) (tokens : List Token) : Reply α :=
  p.run formulaGrammar.run tokens

/-- What a parser over the grammar of documents does from where a cursor stands. -/
def FormulaParser.runAt {α : Type} (p : FormulaParser α) (c : Cursor) : Outcome α × Cursor :=
  Parser.runAt formulaGrammar p c

/-- Reads a document that takes up every token. -/
def Document.ofTokens (tokens : List Token) : Except ParseError Document :=
  match FormulaParser.document.reply tokens with
  | ⟨.fatal e, _⟩ => .error e
  | ⟨.noMatch, rest⟩ => .error (.expected "a program" rest.head?)
  | ⟨.matched d, []⟩ => .ok d
  | ⟨.matched _, t :: _⟩ => .error (.trailingInput t)

end Tariff
