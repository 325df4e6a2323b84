import Tariff.Number.Shortest

/-!
# Doubles as numerals

A `NumberFormat` holds the decisions that a written form of doubles takes on its own, and
`NumberFormat.numeral` lays out the shortest digits accordingly.
-/

namespace Tariff

/-- The decisions of a written form of finite doubles. -/
structure NumberFormat where
  /-- Which of two equally near decimals is written. -/
  tie : Tie
  /-- Whether a number whose first digit has this power of ten is written without exponent. -/
  positional : Int → Bool
  /-- The digits after the point of a whole number that is written without exponent. -/
  wholeFraction : List Char

def hasMinus (x : Float) : Bool :=
  Nat.pow 2 63 ≤ x.toBits.toNat

namespace NumberFormat

def zeros (n : Nat) : List Char :=
  List.replicate n '0'

/-- The layout of digits, the last of which has a power of ten. -/
def layout (format : NumberFormat) (sign : Option Sign) (digits : List Char) (power : Int) :
    Numeral :=
  let point := digits.length + power
  if format.positional (point - 1) then
    if point ≤ 0 then ⟨sign, ['0'], zeros point.natAbs ++ digits, none⟩
    else if 0 ≤ power then ⟨sign, digits ++ zeros power.natAbs, format.wholeFraction, none⟩
    else ⟨sign, digits.take point.natAbs, digits.drop point.natAbs, none⟩
  else ⟨sign, digits.take 1, digits.drop 1, some (.ofInt (point - 1))⟩

def numeral (format : NumberFormat) (x : Float) : Numeral :=
  let d := Decimal.shortest format.tie x.abs
  format.layout (if hasMinus x then some .minus else none) (digitsOf d.digits) d.exponent

end NumberFormat

end Tariff
