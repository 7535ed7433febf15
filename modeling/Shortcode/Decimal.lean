import Shortcode.Text.Number

/-!
# Decimal numbers

A number as it is written: a sign, digits, and a power of ten.
`Decimal.read?` takes the digits of ASCII, with a point in front of,
between or behind them and an exponent behind all of it; `Decimal.text`
writes the number with a point.
-/

namespace Shortcode

/-- The number `digits * 10 ^ power`, or its opposite. Zero has a sign
too. -/
structure Decimal where
  negative : Bool := false
  digits : Nat
  power : Int := 0
deriving DecidableEq, Repr, Inhabited

namespace Decimal

/-- The exponent behind a number: nothing, or a mark and an integer. -/
def exponent? : Text → Option Int
  | [] => some 0
  | mark :: rest =>
    let (negative, digits) := Text.splitSign rest
    if (mark = 'e' || mark = 'E') && !digits.isEmpty &&
        digits.all Char.isDigit then
      some (Text.signed negative (Text.numberOf (digits.filterMap asciiDigit?)))
    else none

/-- The digits behind a point, and what follows them. -/
def splitPart : Text → Text × Text
  | '.' :: rest => (rest.takeWhile Char.isDigit, rest.dropWhile Char.isDigit)
  | t => ([], t)

/-- The number that a text is. -/
def read? (t : Text) : Option Decimal :=
  let (negative, t) := Text.splitSign t
  let whole := t.takeWhile Char.isDigit
  let (part, rest) := splitPart (t.dropWhile Char.isDigit)
  if whole.isEmpty && part.isEmpty then none
  else
    (exponent? rest).map fun power =>
      ⟨negative, Text.numberOf ((whole ++ part).filterMap asciiDigit?),
        power - part.length⟩

/-- An exponent with its sign and two digits at least. -/
def exponentText (power : Int) : Text :=
  let shown := Nat.toDigits 10 power.natAbs
  'e' :: (if power < 0 then '-' else '+') ::
    List.replicate (2 - shown.length) '0' ++ shown

/-- Digits with the point behind so many of them. From `10 ^ (-4)` up to
below `10 ^ 16` the number is written with zeros where digits are
missing, and at least one digit stands behind the point; outside, one
digit stands in front of the point, which is left out where nothing
follows it, and an exponent behind. -/
def layout (digits : Text) (point : Int) : Text :=
  if point ≤ -4 || 16 < point then
    let tail := digits.drop 1
    digits.take 1 ++ (if tail.isEmpty then [] else '.' :: tail) ++
      exponentText (point - 1)
  else
    let shown := List.replicate (1 - point).toNat '0' ++ digits
    let place := max point.toNat 1
    let shown := shown ++ List.replicate (place + 1 - shown.length) '0'
    shown.take place ++ '.' :: shown.drop place

/-- The number with a point. Zeros at the end of the digits are left
out, so that equal numbers have the same text. -/
def text (d : Decimal) : Text :=
  let all := Nat.toDigits 10 d.digits
  let digits := (all.reverse.dropWhile (· == '0')).reverse
  let point : Int := if digits.isEmpty then 1 else all.length + d.power
  (if d.negative then ['-'] else []) ++ layout digits point

end Decimal

end Shortcode
