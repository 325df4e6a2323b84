import Tariff.Parsing.Cursor

/-!
# Parsers as data

A `Parser` is a term built from a few combinators over a set of named rules, and `Parser.run` is
what it does to the tokens ahead. A run ends in one of three ways (`Outcome`): it matched, it did
not match, which lets an alternative try, or it failed for good. The `Reply` to a run also says
which tokens are left where the cursor stands, whatever the outcome.

A `Grammar` gives each rule its parser. `Grammar.run` ends on every input, because a rule that is
called inside a rule only runs where the cursor has moved on.
-/

namespace Tariff

/-- Why a parse is given up for good. -/
inductive ParseError where
  /-- What had to follow did not, with the token found in its place. -/
  | expected (description : String) (found : Option Token)
  | trailingInput (found : Token)
deriving DecidableEq, Repr

namespace ParseError

def message : ParseError → String
  | .expected description (some t) =>
    "Expected " ++ description ++ ". '" ++ t.text ++ "' found instead. At " ++ t.location.text ++ "."
  | .expected description none =>
    "Expected " ++ description ++ ". 'End of input' found instead. At end of input."
  | .trailingInput t =>
    "Unexpected token " ++ t.kind.text ++ " (" ++ t.text ++ "). Expected end of input. At " ++
      t.location.text ++ "."

end ParseError

/-- How a run of a parser ends. -/
inductive Outcome (α : Type) where
  | matched (value : α)
  /-- The tokens are not of this form; something else may be tried. -/
  | noMatch
  /-- The parse is given up, whatever else could be tried. -/
  | fatal (error : ParseError)
deriving DecidableEq, Repr

/-- The outcome of a run and the tokens left where the cursor stands after it. -/
structure Reply (α : Type) where
  outcome : Outcome α
  rest : List Token
deriving DecidableEq, Repr

namespace Reply

def map {α β : Type} (f : α → β) : Reply α → Reply β
  | ⟨.matched a, rest⟩ => ⟨.matched (f a), rest⟩
  | ⟨.noMatch, rest⟩ => ⟨.noMatch, rest⟩
  | ⟨.fatal e, rest⟩ => ⟨.fatal e, rest⟩

/-- Goes on from a match at the tokens it left. -/
def andThen {α β : Type} (r : Reply α) (next : α → List Token → Reply β) : Reply β :=
  match r with
  | ⟨.matched a, rest⟩ => next a rest
  | ⟨.noMatch, rest⟩ => ⟨.noMatch, rest⟩
  | ⟨.fatal e, rest⟩ => ⟨.fatal e, rest⟩

def orElse {α : Type} (r : Reply α) (other : Unit → Reply α) : Reply α :=
  match r with
  | ⟨.noMatch, _⟩ => other ()
  | r => r

/-- The reply with the cursor set back if nothing matched. -/
def rewindTo {α : Type} (tokens : List Token) (r : Reply α) : Reply α :=
  r.orElse fun _ => ⟨.noMatch, tokens⟩

def terminalIf (test : Token → Bool) : List Token → Reply Terminal
  | [] => ⟨.noMatch, []⟩
  | t :: rest => if test t then ⟨.matched t.terminal, rest⟩ else ⟨.noMatch, t :: rest⟩

/-- Runs a step again and again until it does not match. A round that takes up no token is the
last one. -/
def many {α : Type} (step : List Token → Reply α) (tokens : List Token) : Reply (List α) :=
  match step tokens with
  | ⟨.noMatch, _⟩ => ⟨.matched [], tokens⟩
  | ⟨.fatal e, rest⟩ => ⟨.fatal e, rest⟩
  | ⟨.matched a, rest⟩ =>
    if rest.length < tokens.length then (many step rest).map (a :: ·) else ⟨.matched [a], rest⟩
termination_by tokens.length

end Reply

/-- A parser that gives a value of type `α`, over rules whose results are `Tree rule`. -/
inductive Parser {Rule : Type} (Tree : Rule → Type) : Type → Type 1 where
  /-- One token with a certain text, whatever its kind. -/
  | literal (text : String) : Parser Tree Terminal
  | token (kind : TokenKind) : Parser Tree Terminal
  | seq {α β : Type} (first : Parser Tree α) (second : Parser Tree β) : Parser Tree (α × β)
  | or {α : Type} (first second : Parser Tree α) : Parser Tree α
  | many {α : Type} (item : Parser Tree α) : Parser Tree (List α)
  | optional {α : Type} (item : Parser Tree α) : Parser Tree (Option α)
  | map {α β : Type} (f : α → β) (source : Parser Tree α) : Parser Tree β
  /-- What has to follow: no match is fatal, and named by the description. -/
  | expect {α : Type} (description : String) (inner : Parser Tree α) : Parser Tree α
  | call (rule : Rule) : Parser Tree (Tree rule)

namespace Parser

variable {Rule : Type} {Tree : Rule → Type} {α β : Type}

/-- One after the other, keeping the first value. -/
def skip (first : Parser Tree α) (second : Parser Tree β) : Parser Tree α :=
  .map Prod.fst (.seq first second)

/-- One after the other, keeping the second value. -/
def skipLeft (first : Parser Tree α) (second : Parser Tree β) : Parser Tree β :=
  .map Prod.snd (.seq first second)

instance : OrElse (Parser Tree α) := ⟨fun first second => .or first (second ())⟩

/-- What a parser does to the tokens ahead, given what the rules do. -/
def run (call : (rule : Rule) → List Token → Reply (Tree rule)) {α : Type} :
    Parser Tree α → List Token → Reply α
  | .literal text, tokens => Reply.terminalIf (·.text == text) tokens
  | .token kind, tokens => Reply.terminalIf (·.kind == kind) tokens
  | .seq first second, tokens =>
    ((first.run call tokens).andThen fun a rest =>
      (second.run call rest).map fun b => (a, b)).rewindTo tokens
  | .or first second, tokens => (first.run call tokens).orElse fun _ => second.run call tokens
  | .many item, tokens => Reply.many (item.run call) tokens
  | .optional item, tokens =>
    ((item.run call tokens).map some).orElse fun _ => ⟨.matched none, tokens⟩
  | .map f source, tokens => (source.run call tokens).map f
  | .expect description inner, tokens =>
    match inner.run call tokens with
    | ⟨.noMatch, rest⟩ => ⟨.fatal (.expected description rest.head?), rest⟩
    | reply => reply
  | .call rule, tokens => call rule tokens

end Parser

abbrev Grammar {Rule : Type} (Tree : Rule → Type) := (rule : Rule) → Parser Tree (Tree rule)

namespace Grammar

variable {Rule : Type} {Tree : Rule → Type}

/-- What a rule does to the tokens ahead. A rule called inside its parser before any token is
taken up does not match. -/
def run (grammar : Grammar Tree) (rule : Rule) (tokens : List Token) : Reply (Tree rule) :=
  (grammar rule).run (fun inner rest =>
    if rest.length < tokens.length then grammar.run inner rest else ⟨.noMatch, rest⟩) tokens
termination_by tokens.length

end Grammar

/-- What a parser over a grammar does from where a cursor stands: its outcome, and the cursor after it. -/
def Parser.runAt {Rule : Type} {Tree : Rule → Type} {α : Type} (grammar : Grammar Tree)
    (p : Parser Tree α) (c : Cursor) : Outcome α × Cursor :=
  let reply := p.run grammar.run c.rest
  (reply.outcome, c.restore (c.position + (c.rest.length - reply.rest.length)))

end Tariff
