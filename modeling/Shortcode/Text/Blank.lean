import Shortcode.Text.Basic

/-!
# White space

The characters that separate arguments and are trimmed from the inside
of a tag: the white space of Unicode together with the four separators
of ASCII (`U+001C` to `U+001F`). The invisible characters without width
(`U+200B`, `U+2060`, `U+FEFF`) and `U+180E` are not blank.

Around a number only the white space of Unicode may stand: `isSpace`
leaves the four separators out.

`isBlank_of_isWhitespace` ties the table to the white space of the core
library, which knows four of these characters.
-/

namespace Shortcode

/-- The ranges of blank characters, as code points. -/
def blankRanges : List (Nat × Nat) :=
  [(0x09, 0x0D), (0x1C, 0x20), (0x85, 0x85), (0xA0, 0xA0), (0x1680, 0x1680),
    (0x2000, 0x200A), (0x2028, 0x2029), (0x202F, 0x202F), (0x205F, 0x205F),
    (0x3000, 0x3000)]

/-- The character is white space. -/
def isBlank (c : Char) : Bool :=
  blankRanges.any fun (low, high) => low ≤ c.toNat && c.toNat ≤ high

/-- The character is one of the four separators of ASCII. -/
def isSeparator (c : Char) : Bool :=
  0x1C ≤ c.toNat && c.toNat ≤ 0x1F

/-- The character is white space of Unicode. -/
def isSpace (c : Char) : Bool :=
  isBlank c && !isSeparator c

/-- Whatever the core library takes for white space is blank. -/
theorem isBlank_of_isWhitespace {c : Char} (h : c.isWhitespace = true) :
    isBlank c = true := by
  simp only [Char.isWhitespace, Bool.or_eq_true, decide_eq_true_eq] at h
  rcases h with ((rfl | rfl) | rfl) | rfl <;> decide

namespace Text

/-- The text without the white space at its front. -/
def trimLeft (t : Text) : Text :=
  t.dropWhile isBlank

/-- The text without the white space at its end. -/
def trimRight (t : Text) : Text :=
  (t.reverse.dropWhile isBlank).reverse

/-- The text without the white space at both ends. -/
def trim (t : Text) : Text :=
  t.trimLeft.trimRight

/-- The text without the white space of Unicode at both ends. -/
def trimSpace (t : Text) : Text :=
  ((t.dropWhile isSpace).reverse.dropWhile isSpace).reverse

end Text

end Shortcode
