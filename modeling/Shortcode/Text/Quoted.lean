import Shortcode.Text.Printable

/-!
# Quoted texts

Messages show texts in quotes. The quote is `'`, unless the text holds
that one and not `"`; a backslash and the quote in use are written
behind a backslash, so are the line feed, the carriage return and the
tabulator, and every other character that is not printable is written
by its number, in two, four or eight hexadecimal digits.
-/

namespace Shortcode.Text

/-- The hexadecimal digits of a number, padded with zeros to a width. -/
def hex (width n : Nat) : Text :=
  let digits := Nat.toDigits 16 n
  List.replicate (width - digits.length) '0' ++ digits

/-- A character that is not printable, by its number. -/
def numbered (c : Char) : Text :=
  let n := c.toNat
  if n < 0x100 then '\\' :: 'x' :: hex 2 n
  else if n < 0x10000 then '\\' :: 'u' :: hex 4 n
  else '\\' :: 'U' :: hex 8 n

/-- One character inside quotes. -/
def quotedChar (quote c : Char) : Text :=
  if c = '\\' || c = quote then ['\\', c]
  else if c = '\n' then ['\\', 'n']
  else if c = '\r' then ['\\', 'r']
  else if c = '\t' then ['\\', 't']
  else if isPrintable c then [c]
  else numbered c

/-- The quote a text is shown in. -/
def quoteFor (t : Text) : Char :=
  if t.contains '\'' && !t.contains '"' then '"' else '\''

/-- The text in quotes. -/
def quoted (t : Text) : Text :=
  quoteFor t :: t.flatMap (quotedChar (quoteFor t)) ++ [quoteFor t]

/-- Texts in quotes, between brackets and separated by commas. -/
def quotedList (ts : List Text) : Text :=
  '[' :: join ", ".toList (ts.map quoted) ++ [']']

end Shortcode.Text
