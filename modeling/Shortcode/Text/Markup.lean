import Shortcode.Text.Basic

/-!
# Text inside markup

A title or a blurb that is put into a page must not be read as markup
there. `Text.escape` replaces the five characters that markup gives a
meaning to by their references; every other character stays.
-/

namespace Shortcode.Text

/-- The reference that stands for a character of the page, or the
character itself. -/
def escapeChar : Char → Text
  | '&' => "&amp;".toList
  | '<' => "&lt;".toList
  | '>' => "&gt;".toList
  | '"' => "&quot;".toList
  | '\'' => "&#x27;".toList
  | c => [c]

/-- The text with every character that markup gives a meaning to
replaced by its reference. -/
def escape (t : Text) : Text :=
  t.flatMap escapeChar

end Shortcode.Text
