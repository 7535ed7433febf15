import Shortcode.Double

/-!
# The shortest text of a number

A number of double precision is written with as few digits as it takes
to tell it from every other one: one more digit at a time is tried, and
of the two decimal numbers with so many digits that stand next to the
number, the nearer one first, the first that is held as this number is
taken. Such a text loses nothing, since it is one that is held as the
number it was made from.
-/

namespace Shortcode.Double

/-- The decimal number that a finite number is: `2 ^ (-1074)` is
`5 ^ 1074 * 10 ^ (-1074)`. -/
def exact (negative : Bool) (units : Nat) : Decimal :=
  ⟨negative, units * Nat.pow 5 1074, -1074⟩

/-- The two decimal numbers next to a number that have fewer digits, so
many of which are dropped; the nearer one comes first. -/
def neighbours (d : Decimal) (dropped : Nat) : List Decimal :=
  let below := d.digits / Nat.pow 10 dropped
  let near := roundDiv d.digits (Nat.pow 10 dropped)
  let far := if near = below then below + 1 else below
  [near, far].map fun digits => ⟨d.negative, digits, d.power + dropped⟩

/-- The shortest decimal number that is held as a finite number. -/
def shortest? (negative : Bool) (units : Nat) : Option Decimal :=
  let d := exact negative units
  let size := (Nat.toDigits 10 d.digits).length
  (List.range size).findSome? fun n =>
    (neighbours d (size - 1 - n)).find? fun candidate =>
      nearest candidate = .finite negative units

/-- The number as a text. -/
def text : Double → Text
  | .finite negative units =>
    ((shortest? negative units).getD (exact negative units)).text
  | .infinite false => "inf".toList
  | .infinite true => "-inf".toList
  | .undefined => "nan".toList

end Shortcode.Double
