import Tariff.Number.Numeral

/-!
# The shortest digits of a double

Of all decimals that read back as a double, `Decimal.shortest` takes one with the fewest digits,
and of those the nearest. It starts from the exact decimal value, cuts it after one digit, after
two, and so on, and stops at the first cut where the decimal below or the one above reads back. The
exact value itself is the last one tried.
-/

namespace Tariff

/-- The number `digits * 10 ^ exponent`. -/
structure Decimal where
  digits : Nat
  exponent : Int
deriving DecidableEq, Repr

/-- Which of two decimals is taken when both are equally near. -/
inductive Tie where
  | up
  | toEven
deriving DecidableEq, Repr

namespace Decimal

def toFloat (d : Decimal) : Float :=
  nearestDouble d.digits d.exponent

/-- The exact value of a finite double, without its sign. -/
def ofFloat (x : Float) : Decimal :=
  let bits := x.toBits.toNat
  let biased : Nat := bits / Nat.pow 2 52 % Nat.pow 2 11
  let low : Nat := bits % Nat.pow 2 52
  let significand : Nat := if biased = 0 then low else Nat.pow 2 52 + low
  let power : Int := if biased = 0 then -1074 else (biased : Int) - 1075
  if 0 ≤ power then ⟨significand * Nat.pow 2 power.toNat, 0⟩
  else ⟨significand * Nat.pow 5 power.natAbs, power⟩

/-- The decimals that end `cut` digits before the last one of `d`, next to it: the nearer first. -/
def neighbours (tie : Tie) (d : Decimal) (cut : Nat) : List Decimal :=
  let unit := Nat.pow 10 cut
  let below := d.digits / unit
  let low : Decimal := ⟨below, d.exponent + cut⟩
  let high : Decimal := ⟨below + 1, d.exponent + cut⟩
  match compare (2 * (d.digits % unit)) unit with
  | .lt => [low, high]
  | .gt => [high, low]
  | .eq => match tie with
    | .up => [high, low]
    | .toEven => if below % 2 = 0 then [low, high] else [high, low]

def withoutZeros (d : Decimal) : Decimal :=
  if d.digits = 0 then ⟨0, 0⟩
  else if d.digits % 10 = 0 then withoutZeros ⟨d.digits / 10, d.exponent + 1⟩
  else d
termination_by d.digits
decreasing_by omega

/-- The shortest decimal that reads back as a double that is finite and has no sign. -/
def shortest (tie : Tie) (x : Float) : Decimal :=
  let exact := ofFloat x
  let length := (digitsOf exact.digits).length
  ((List.range length).findSome? fun i =>
    ((exact.neighbours tie (length - (i + 1))).map withoutZeros).find? (·.toFloat = x)).getD
      exact.withoutZeros

end Decimal

end Tariff
