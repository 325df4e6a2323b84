import Tariff.Document.Printer
import Tariff.Number.Format
import Tariff.Text.Blank
import Tariff.Token.Lexer

/-!
# Values and operators

A `Value` is a number, a truth value or a text. Every operator takes every value: `toNumber` and
`truthy` say what a value counts for where a number or a truth value is needed, `looseEq` and
`looseCompare` compare values of different kinds by their numbers.
-/

namespace Tariff

inductive Value where
  | number (x : Float)
  | boolean (b : Bool)
  | text (s : String)
deriving DecidableEq

namespace Value

/-- What a value counts for in arithmetic: true is one, blank text is zero, and text that is no
number is no number. -/
def toNumber : Value → Float
  | .number x => x
  | .boolean b => if b then 1.0 else 0.0
  | .text s => match Text.trimBlanks s.toList with
    | [] => 0.0
    | word => (readNumber? word).getD notANumber

def truthy : Value → Bool
  | .number x => !(x == 0.0) && !x.isNaN
  | .boolean b => b
  | .text s => s ≠ ""

/-- Values of one kind are equal as they are, others by their numbers. -/
def looseEq : Value → Value → Bool
  | .number x, .number y => x == y
  | .boolean a, .boolean b => a == b
  | .text s, .text t => s == t
  | v, w => v.toNumber == w.toNumber

/-- The order of two doubles, unless one is no number. -/
def compareNumbers (x y : Float) : Option Ordering :=
  if x < y then some .lt
  else if x == y then some .eq
  else if y < x then some .gt
  else none

/-- Two texts are ordered by their characters, other values by their numbers. -/
def looseCompare : Value → Value → Option Ordering
  | .text s, .text t => some (compare s t)
  | v, w => compareNumbers v.toNumber w.toNumber

/-- Numbers are shown without exponent, whole ones without a point. -/
def shownFormat : NumberFormat where
  tie := .up
  positional := fun _ => true
  wholeFraction := []

def shownNumber (x : Float) : String :=
  if x.isNaN then "NaN"
  else if x.isInf then (if hasMinus x then "-inf" else "inf")
  else (shownFormat.numeral x).text

def shown : Value → String
  | .number x => shownNumber x
  | .boolean b => booleanText b
  | .text s => s

/-- Reads a value from a text: a truth value, a number literal with at most one minus before it,
and any other text as it is. -/
def ofText (s : String) : Value :=
  let literal := match s.toList with
    | '-' :: rest => rest
    | rest => rest
  if s = "true" then .boolean true
  else if s = "false" then .boolean false
  else if isNumberLiteral literal then
    match readNumber? s.toList with
    | some x => .number x
    | none => .text s
  else .text s

end Value

def Unary.apply : Unary → Value → Value
  | .negate, v => .number (-v.toNumber)
  | .not, v => .boolean (!v.truthy)

/-- What a connective gives. Both operands have their value by then. -/
def Connective.apply {c : Chain} : Connective c → Value → Value → Value
  | .and, v, w => .boolean (v.truthy && w.truthy)
  | .or, v, w => .boolean (v.truthy || w.truthy)
  | .add, v, w => .number (v.toNumber + w.toNumber)
  | .subtract, v, w => .number (v.toNumber - w.toNumber)
  | .multiply, v, w => .number (v.toNumber * w.toNumber)
  | .divide, v, w => .number (v.toNumber / w.toNumber)

def Comparison.holds (op : Comparison) (v w : Value) : Bool :=
  match op with
  | .greater => v.looseCompare w == some .gt
  | .greaterOrEqual => v.looseCompare w == some .gt || v.looseCompare w == some .eq
  | .less => v.looseCompare w == some .lt
  | .lessOrEqual => v.looseCompare w == some .lt || v.looseCompare w == some .eq
  | .equal => v.looseEq w
  | .notEqual => !v.looseEq w

def Comparison.apply (op : Comparison) (v w : Value) : Value :=
  .boolean (op.holds v w)

end Tariff
