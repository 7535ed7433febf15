import Shortcode.Text.Blank
import Shortcode.Text.Digit

/-!
# Integers in texts

How an integer is read: white space around it is ignored, a sign may
stand in front, and single underscores may stand between its digits,
which may be those of any script. The time it takes to read digits grows
with the square of their number, so there is a limit to it.
-/

namespace Shortcode.Text

/-- Why a text is not read as an integer. -/
inductive Unreadable where
  /-- The text is no integer. -/
  | malformed
  /-- The text has too many digits. -/
  | tooLong (digits : Nat)
deriving DecidableEq, Repr, Inhabited

/-- How many digits of an integer are read. -/
def digitLimit : Nat := 4300

/-- The values of digits that single underscores may separate; the
truth value tells whether a digit stands in front. -/
def digitsOf? : Bool → Text → Option (List Nat)
  | after, [] => if after then some [] else none
  | after, c :: rest =>
    match decimalDigit? c with
    | some n => (digitsOf? true rest).map (n :: ·)
    | none => if c = '_' && after then digitsOf? false rest else none

/-- The number that digits stand for. -/
def numberOf (digits : List Nat) : Nat :=
  digits.foldl (fun n d => 10 * n + d) 0

/-- Whether a minus sign stands in front of a text, and what follows the
sign, if there is one. -/
def splitSign : Text → Bool × Text
  | '-' :: rest => (true, rest)
  | '+' :: rest => (false, rest)
  | t => (false, t)

/-- The integer with a sign and a size. -/
def signed (negative : Bool) (n : Nat) : Int :=
  if negative then -n else n

/-- The integer a text stands for. The digits are counted before what
follows them is looked at. -/
def readInt (t : Text) : Except Unreadable Int :=
  let (negative, t) := splitSign t.trimSpace
  let isPart := fun c => (decimalDigit? c).isSome || c = '_'
  match digitsOf? false (t.takeWhile isPart) with
  | none => .error .malformed
  | some digits =>
    if digitLimit < digits.length then .error (.tooLong digits.length)
    else if (t.dropWhile isPart).isEmpty then
      .ok (signed negative (numberOf digits))
    else .error .malformed

end Shortcode.Text
