import Tariff.Text.Blank
import Tariff.Token

/-!
# From text to tokens

A text is cut into lexemes from the left. Each `LexemeClass` has an `extent`, the length of the
longest text of that class at the front, and the first class with a positive extent takes its
lexeme. Blanks are passed over, every other lexeme becomes a token.
-/

namespace Tariff

inductive LexemeClass where
  | blank
  | token (kind : TokenKind)
deriving DecidableEq, Repr

namespace LexemeClass

/-- Letters of ASCII and the underscore start an identifier. -/
def startsIdentifier (c : Char) : Bool :=
  c.isAlpha || c == '_'

/-- Digits may follow in an identifier. -/
def continuesIdentifier (c : Char) : Bool :=
  c.isAlphanum || c == '_'

/-- The symbols, each before its own beginnings, so that the first that fits is the longest. -/
def symbols : List (List Char) :=
  [['=', '='], ['='], ['<', '='], ['<'], ['>', '='], ['>'], ['!', '='], ['!'], ['&', '&'], ['&'],
    ['|', '|'], ['|'], [','], ['$'], ['+'], ['-'], ['*'], ['/'], ['('], [')'], [':']]

def run (p : Char → Bool) (s : List Char) : Nat :=
  (s.takeWhile p).length

def identifierExtent : List Char → Nat
  | [] => 0
  | c :: s => if startsIdentifier c then 1 + run continuesIdentifier s else 0

/-- The length of a point and the digits after it, when there are any. -/
def fractionExtent : List Char → Nat
  | '.' :: s => match run Char.isDigit s with
    | 0 => 0
    | n + 1 => n + 2
  | _ => 0

/-- The length of the number at the front: digits, and a fraction if a digit follows the point. -/
def numberExtent (s : List Char) : Nat :=
  match run Char.isDigit s with
  | 0 => 0
  | n + 1 => n + 1 + fractionExtent (s.drop (n + 1))

def symbolExtent (s : List Char) : Nat :=
  match symbols.find? (·.isPrefixOf s) with
  | some symbol => symbol.length
  | none => 0

/-- The length of the longest lexeme of the class at the front, zero if there is none. -/
def extent : LexemeClass → List Char → Nat
  | .blank, s => run Text.isBlank s
  | .token .identifier, s => identifierExtent s
  | .token .number, s => numberExtent s
  | .token .symbol, s => symbolExtent s

def all : List LexemeClass :=
  [.blank, .token .identifier, .token .number, .token .symbol]

def at? (s : List Char) : Option LexemeClass :=
  all.find? fun kind => 0 < kind.extent s

theorem extent_pos_of_at? {s : List Char} {kind : LexemeClass} (h : at? s = some kind) :
    0 < kind.extent s := by
  simpa using List.find?_some h

theorem extent_nil (kind : LexemeClass) : kind.extent [] = 0 := by
  rcases kind with _ | (_ | _ | _) <;> rfl

/-- Taking a lexeme off shortens the text. -/
theorem length_drop_extent_lt {s : List Char} {kind : LexemeClass} (h : at? s = some kind) :
    (s.drop (kind.extent s)).length < s.length := by
  have hpos := extent_pos_of_at? h
  cases s with
  | nil => simp [extent_nil] at hpos
  | cons c s => simp only [List.length_drop, List.length_cons]; omega

/-- The tokens that a lexeme gives, none for a blank. -/
def tokens (kind : LexemeClass) (lexeme : List Char) (location : Location) : List Token :=
  match kind with
  | .blank => []
  | .token kind => [⟨kind, String.ofList lexeme, location⟩]

end LexemeClass

/-- A character that starts no lexeme. -/
structure LexError where
  location : Location
  /-- The beginning of the text that could not be read. -/
  snippet : String
deriving DecidableEq, Repr

namespace LexError

def snippetLength : Nat := 32

def message (e : LexError) : String :=
  "Cannot split input, in '" ++ e.snippet ++ "...', at " ++ e.location.text

end LexError

/-- The tokens of a text that starts at a place. -/
def tokenizeFrom (location : Location) (s : List Char) : Except LexError (List Token) :=
  if s = [] then .ok []
  else
    match _h : LexemeClass.at? s with
    | none => .error ⟨location, String.ofList (s.take LexError.snippetLength)⟩
    | some kind =>
      let lexeme := s.take (kind.extent s)
      (tokenizeFrom (location.advance lexeme) (s.drop (kind.extent s))).map
        (kind.tokens lexeme location ++ ·)
termination_by s.length
decreasing_by exact LexemeClass.length_drop_extent_lt _h

def tokenize (source : String) : Except LexError (List Token) :=
  tokenizeFrom .start source.toList

/-- Whether a text is one number and nothing else. -/
def isNumberLiteral (s : List Char) : Bool :=
  s ≠ [] && LexemeClass.numberExtent s = s.length

end Tariff
