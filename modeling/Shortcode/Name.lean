import Shortcode.Text.Basic

/-!
# Names and keys

A shortcode's name starts with a letter, a digit or an underscore of
ASCII and goes on with those and hyphens; an argument's key may hold
points, colons and hyphens behind its first character. Both are read as
far as they go: `splitName` and `splitKey` give the longest name or key
at the front of a text and what follows it, and an empty one where
there is none.
-/

namespace Shortcode

/-- A character that names and keys start with. -/
def isNameStart (c : Char) : Bool :=
  c.isAlphanum || c == '_'

/-- A character that a name goes on with. -/
def isNameRest (c : Char) : Bool :=
  isNameStart c || c == '-'

/-- A character that a key goes on with. -/
def isKeyRest (c : Char) : Bool :=
  isNameStart c || c == '.' || c == ':' || c == '-'

/-- The longest word at the front of a text, and the rest: a first
character from one class, the following ones from another. -/
def splitWord (goesOn : Char → Bool) : Text → Text × Text
  | [] => ([], [])
  | c :: rest =>
    if isNameStart c then
      (c :: rest.takeWhile goesOn, rest.dropWhile goesOn)
    else
      ([], c :: rest)

/-- The name at the front of a text, and the rest. -/
def splitName : Text → Text × Text := splitWord isNameRest

/-- The key at the front of a text, and the rest. -/
def splitKey : Text → Text × Text := splitWord isKeyRest

/-- The whole text is a name. -/
def isName (t : Text) : Bool :=
  !t.isEmpty && (splitName t).2.isEmpty

/-- Nothing is lost when a word is split off. -/
theorem splitWord_append (goesOn : Char → Bool) (t : Text) :
    (splitWord goesOn t).1 ++ (splitWord goesOn t).2 = t := by
  cases t with
  | nil => rfl
  | cons c rest =>
    by_cases h : isNameStart c = true <;>
      simp [splitWord, h, List.takeWhile_append_dropWhile]

/-- A word and the rest have together the length of the text. -/
theorem length_splitWord (goesOn : Char → Bool) (t : Text) :
    (splitWord goesOn t).1.length + (splitWord goesOn t).2.length =
      t.length := by
  have := congrArg List.length (splitWord_append goesOn t)
  simpa using this

end Shortcode
