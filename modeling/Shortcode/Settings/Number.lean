import Shortcode.Double

/-!
# Numbers in settings

A setting may give a number as a text, in the digits of ASCII. White
space around it is ignored, and a plus sign may stand in front.

An integer may have zeros in front, also in front of a minus sign, and a
point with nothing but zeros behind it. Any other number may have a
point and an exponent, or be infinite or no number at all. In both,
single underscores may stand between other characters; a number that is
not an integer then has no white space around it.
-/

namespace Shortcode.Settings

/-- The text without its underscores, if each of them stands between two
other characters. -/
def ungrouped? (t : Text) : Option Text :=
  if t.head? = some '_' || t.getLast? = some '_' || Text.has ['_', '_'] t then
    none
  else some (t.filter (· != '_'))

/-- The character is a digit that an integer may start with. -/
def isLeading (c : Char) : Bool :=
  c.isDigit && c != '0'

/-- An integer without the zeros in front of it, which underscores may
separate. Where nothing or a point follows them, the last of them
stays. -/
def dropZeros? (t : Text) : Option Text :=
  let isFiller := fun c => c = '0' || c = '_'
  let filler := if t.head? = some '0' then t.takeWhile isFiller else []
  let rest := t.drop filler.length
  match rest with
  | [] => filler.getLast?.map ([·])
  | c :: _ =>
    if c = '-' || isLeading c then some rest
    else if c = '.' then filler.getLast?.map (· :: rest)
    else none

/-- An integer without a point behind which there are zeros, one at
least. -/
def dropFraction (t : Text) : Text :=
  match Text.cut? ['.'] t with
  | some (before, behind) =>
    if !behind.isEmpty && behind.all (· == '0') then before else t
  | none => t

/-- The integer that consists of digits, no zero in front of others, and
perhaps a minus sign. -/
def plainInt (t : Text) : Except Text.Unreadable Int :=
  let negative := t.head? = some '-'
  let digits := if negative then t.drop 1 else t
  if digits.all Char.isDigit && (digits = ['0'] || digits.head?.any isLeading)
  then
    if Text.digitLimit < t.length then .error (.tooLong digits.length)
    else
      .ok (Text.signed negative
        (Text.numberOf (digits.filterMap asciiDigit?)))
  else .error .malformed

/-- An integer without a plus sign in front, which no minus sign may
follow. -/
def dropPlus? : Text → Option Text
  | '+' :: '-' :: _ => none
  | '+' :: rest => some rest
  | t => some t

/-- The integer a text stands for. -/
def integerOfText (t : Text) : Except Text.Unreadable Int :=
  match (dropPlus? t.trimSpace).bind dropZeros? with
  | none => .error .malformed
  | some t =>
    match ungrouped? (dropFraction t) with
    | none => .error .malformed
    | some t => plainInt t

/-- The number that a text is: a decimal number, or a word, with a sign
or without. -/
def doubleOf? (t : Text) : Option Double :=
  match Decimal.read? t with
  | some d => some (Double.nearest d)
  | none =>
    let (negative, word) := Text.splitSign (t.map Char.toLower)
    if word = "inf".toList || word = "infinity".toList then
      some (.infinite negative)
    else if word = "nan".toList then some .undefined
    else none

/-- The number a text stands for. -/
def doubleOfText? (t : Text) : Option Double :=
  (doubleOf? t.trimSpace).or ((ungrouped? t).bind doubleOf?)

end Shortcode.Settings
