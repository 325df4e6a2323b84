import Tariff.Number.Format

/-!
# JSON documents

A `Json` is the syntax tree of a JSON text. It keeps numbers as they are written and repeated names
of members, since what to make of either is for those to decide who read a value from the tree. A
string may name a surrogate that is not part of a pair; it is well formed but has no text.
-/

namespace Tariff

inductive Json where
  | null
  | boolean (b : Bool)
  | number (n : Numeral)
  | string (s : Option String)
  | array (items : List Json)
  | object (members : List (Option String × Json))

namespace Json

/-- How numbers are written: with a fraction always, with an exponent when they are very large or
very small. -/
def numberFormat : NumberFormat where
  tie := .toEven
  positional := fun power => decide (-5 ≤ power) && decide (power ≤ 15)
  wholeFraction := ['0']

/-- The tree of a double. Infinite doubles and what is no number are written as null. -/
def ofFloat (x : Float) : Json :=
  if x.isFinite then .number (numberFormat.numeral x) else .null

def ofNat (n : Nat) : Json :=
  .number ⟨none, digitsOf n, [], none⟩

def ofString (s : String) : Json :=
  .string (some s)

def ofMembers (members : List (String × Json)) : Json :=
  .object (members.map fun (name, value) => (some name, value))

/-- A number scaled by a power of ten. Powers beyond the largest double are divided out step by
step; a result that is not finite is none. -/
def scaled (x : Float) (power : Int) : Option Float :=
  if 0 ≤ power then
    if power ≤ 308 then
      let y := x * nearestDouble 1 power
      if y.isInf then none else some y
    else if x == 0.0 then some x
    else none
  else if -308 ≤ power then some (x / nearestDouble 1 power.natAbs)
  else if x == 0.0 then some x
  else scaled (x / 1e308) (power + 308)
termination_by power.natAbs

/-- Takes up digits while the number they make stays below `2 ^ 64`, and gives the number with the
digits that are left. -/
def takeDigits (value : Nat) : List Char → Nat × List Char
  | [] => (value, [])
  | c :: digits =>
    let next := 10 * value + (c.toNat - '0'.toNat)
    if next < Nat.pow 2 64 then takeDigits next digits else (value, c :: digits)

/-- The double that a written number is read as, unless it is too large. Of the digits as many
count as fit into 64 bits; the number they make is rounded and then scaled. -/
def readDouble (n : Numeral) : Option Float :=
  let (whole, unused) := takeDigits 0 n.whole
  let (significand, unusedFraction) := takeDigits whole n.fraction
  let power : Int := (n.exponent.map Exponent.value).getD 0 + unused.length -
    (n.fraction.length - unusedFraction.length)
  (scaled (nearestDouble significand 0) power).map (Sign.apply n.sign)

mutual

/-- Whether every string has a text, every number is in range, and nothing is nested more than some
levels deep. -/
def sound (depth : Nat) : Json → Bool
  | .null => true
  | .boolean _ => true
  | .number n => (readDouble n).isSome
  | .string s => s.isSome
  | .array items => 0 < depth && soundItems (depth - 1) items
  | .object members => 0 < depth && soundMembers (depth - 1) members

def soundItems (depth : Nat) : List Json → Bool
  | [] => true
  | item :: rest => item.sound depth && soundItems depth rest

def soundMembers (depth : Nat) : List (Option String × Json) → Bool
  | [] => true
  | (name, value) :: rest => name.isSome && value.sound depth && soundMembers depth rest

end

def depthLimit : Nat := 127

end Json

end Tariff
