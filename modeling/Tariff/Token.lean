import Tariff.Text.Location

/-!
# Tokens

The words of a formula document. A `Token` has a kind, its text and the place where it starts;
a `Terminal` is a token that a grammar rule has taken up, for which the kind no longer matters.
-/

namespace Tariff

/-- The kinds of token. The words of the language such as `if` are identifiers. -/
inductive TokenKind where
  | identifier
  | number
  | symbol
deriving DecidableEq, Repr

def TokenKind.text : TokenKind → String
  | .identifier => "id"
  | .number => "num"
  | .symbol => "symbol"

/-- A word of a document and where it starts. -/
structure Token where
  kind : TokenKind
  text : String
  location : Location
deriving DecidableEq, Repr

/-- The text of a token and where it starts. -/
structure Terminal where
  text : String
  location : Location
deriving DecidableEq, Repr

namespace Token

def terminal (t : Token) : Terminal :=
  ⟨t.text, t.location⟩

def describe (t : Token) : String :=
  t.kind.text ++ " '" ++ t.text ++ "'"

end Token

end Tariff
