import Shortcode.Decimal

/-!
# Double precision

A number with a point is held to 53 binary digits, down to the least
positive number, `2 ^ (-1074)`, and up to below `2 ^ 1024`; what is
greater is infinite, and there is one value that is no number. All
finite numbers are multiples of the least positive one, so a finite
number is how many times that one it is, a natural number of *units*,
and its arithmetic is exact.

`Double.nearest` is the number that a decimal number is held as.
-/

namespace Shortcode

/-- A number of double precision. -/
inductive Double where
  /-- The number `units * 2 ^ (-1074)`, or its opposite. Zero has a sign
  too. -/
  | finite (negative : Bool) (units : Nat)
  | infinite (negative : Bool)
  | undefined
deriving DecidableEq, Repr, Inhabited

/-- A quotient, rounded to the nearest natural number; of two that are
equally near the even one is taken. -/
def roundDiv (num den : Nat) : Nat :=
  let below := num / den
  let rest := num % den
  if 2 * rest < den || (2 * rest == den && below % 2 == 0) then below
  else below + 1

namespace Double

-- powers are written `Nat.pow`, which is the same whatever is imported
/-- The number one, in units. -/
def one : Nat := Nat.pow 2 1074

/-- The least number that is not finite any more, in units. -/
def bound : Nat := one * Nat.pow 2 1024

/-- How far apart, in units, the numbers of a size are. -/
def gap (units : Nat) : Nat := Nat.pow 2 (units.log2 - 52)

/-- The number nearest to a quotient of units. -/
def ofUnits (negative : Bool) (num den : Nat) : Double :=
  let step := gap (num / den)
  let units := roundDiv num (den * step) * step
  if units < bound then .finite negative units else .infinite negative

/-- The number nearest to a decimal number. Of a decimal number that is
very small or very great the size alone decides. -/
def nearest (d : Decimal) : Double :=
  let size := (Nat.toDigits 10 d.digits).length + d.power
  if d.digits = 0 || size < -330 then .finite d.negative 0
  else if 310 < size then .infinite d.negative
  else if d.power < 0 then
    ofUnits d.negative (d.digits * one) (Nat.pow 10 d.power.natAbs)
  else ofUnits d.negative (d.digits * Nat.pow 10 d.power.natAbs * one) 1

/-- The number nearest to an integer. -/
def ofInt (n : Int) : Double :=
  nearest ⟨decide (n < 0), n.natAbs, 0⟩

/-- The number is above zero. -/
def isPositive : Double → Bool
  | .finite negative units => !negative && units != 0
  | .infinite negative => !negative
  | .undefined => false

/-- The integer that a number is. -/
def whole? : Double → Option Int
  | .finite negative units =>
    if units % one = 0 then some (Text.signed negative (units / one)) else none
  | _ => none

/-- The least natural number that is not below a number. -/
def ceil? : Double → Option Nat
  | .finite false units => some ((units + one - 1) / one)
  | .finite true _ | .infinite true => some 0
  | .infinite false | .undefined => none

end Double

end Shortcode
