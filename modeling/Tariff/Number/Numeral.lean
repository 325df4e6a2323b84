/-!
# Written numbers

A `Numeral` is a number as it is written in decimal: sign, whole digits, the digits after a point,
and an exponent. `Numeral.nearest` is the double nearest to what it denotes. `Numeral.ofText?`
reads the form that stands for a number in a text value, and `readNumber?` adds to it the words for
infinity and for no number.
-/

namespace Tariff

/-- The double nearest to `m * 10 ^ e`, of two the one with an even significand. Numbers beyond the
largest double become infinite. -/
def nearestDouble (m : Nat) (e : Int) : Float :=
  .ofModel (.ofScientific m e)

inductive Sign where
  | plus
  | minus
deriving DecidableEq, Repr

namespace Sign

def text : Sign → String
  | .plus => "+"
  | .minus => "-"

/-- The sign at the front, if there is one, and what follows. -/
def read : List Char → Option Sign × List Char
  | '+' :: s => (some .plus, s)
  | '-' :: s => (some .minus, s)
  | s => (none, s)

def apply (sign : Option Sign) (x : Float) : Float :=
  if sign = some .minus then -x else x

end Sign

structure Exponent where
  sign : Option Sign
  digits : List Char
deriving DecidableEq, Repr

/-- A number as it is written. No digit after the point means that no point is written. -/
structure Numeral where
  sign : Option Sign
  whole : List Char
  fraction : List Char
  exponent : Option Exponent
deriving DecidableEq, Repr

def digitsValue (digits : List Char) : Nat :=
  digits.foldl (fun value c => 10 * value + (c.toNat - '0'.toNat)) 0

def digitsOf (n : Nat) : List Char :=
  Nat.toDigits 10 n

namespace Exponent

def value (e : Exponent) : Int :=
  if e.sign = some .minus then -(digitsValue e.digits : Int) else digitsValue e.digits

def text (e : Exponent) : String :=
  "e" ++ (e.sign.map Sign.text).getD "" ++ String.ofList e.digits

/-- The exponent of a power of ten, with its sign. -/
def ofInt (e : Int) : Exponent :=
  ⟨some (if e < 0 then .minus else .plus), digitsOf e.natAbs⟩

/-- Reads what is left of a numeral as its exponent. Nothing left is no exponent. -/
def ofText? : List Char → Option (Option Exponent)
  | [] => some none
  | c :: s =>
    if c = 'e' ∨ c = 'E' then
      let (sign, digits) := Sign.read s
      if digits ≠ [] ∧ digits.all Char.isDigit then some (some ⟨sign, digits⟩) else none
    else none

end Exponent

namespace Numeral

def scale (n : Numeral) : Int :=
  ((n.exponent.map Exponent.value).getD 0) - n.fraction.length

def nearest (n : Numeral) : Float :=
  Sign.apply n.sign (nearestDouble (digitsValue (n.whole ++ n.fraction)) n.scale)

def text (n : Numeral) : String :=
  (n.sign.map Sign.text).getD "" ++ String.ofList n.whole ++
    (if n.fraction = [] then "" else "." ++ String.ofList n.fraction) ++
    (n.exponent.map Exponent.text).getD ""

/-- The digits after a point at the front, and what follows them. -/
def readFraction : List Char → List Char × List Char
  | '.' :: s => (s.takeWhile Char.isDigit, s.dropWhile Char.isDigit)
  | s => ([], s)

/-- Reads a whole text as a numeral. The digits before the point or those after it may be missing,
but not both. -/
def ofText? (s : List Char) : Option Numeral :=
  let (sign, s) := Sign.read s
  let whole := s.takeWhile Char.isDigit
  let (fraction, s) := readFraction (s.dropWhile Char.isDigit)
  if whole = [] ∧ fraction = [] then none
  else (Exponent.ofText? s).map fun exponent => ⟨sign, whole, fraction, exponent⟩

end Numeral

/-- The words that stand for infinity. -/
def infinityWords : List (List Char) :=
  ["inf".toList, "infinity".toList]

def infinity : Float := 1.0 / 0.0

def notANumber : Float := 0.0 / 0.0

/-- Reads a whole text as a double: a word for infinity or for no number in any case, or a
numeral. -/
def readNumber? (s : List Char) : Option Float :=
  let (sign, word) := Sign.read s
  let word := word.map Char.toLower
  if word ∈ infinityWords then some (Sign.apply sign infinity)
  else if word = "nan".toList then some notANumber
  else (Numeral.ofText? s).map Numeral.nearest

end Tariff
