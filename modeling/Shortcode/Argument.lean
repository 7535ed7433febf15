import Shortcode.Text.Quoted

/-!
# Arguments

The arguments of one shortcode, in the order they are written in. A key
may occur several times, and an occurrence has a value or is a bare
flag. The last occurrence of a key decides: `get` and `flag` read it
alone, `getAll` gives all of them.
-/

namespace Shortcode

/-- One written argument: a key with a value, or a bare flag. -/
structure Argument where
  key : Text
  /-- The value; a bare flag has none. -/
  value : Option Text
deriving DecidableEq, Repr, Inhabited

/-- The arguments of a shortcode, in the order they are written in. -/
abbrev Arguments := List Argument

namespace Argument

/-- An optional text as messages show it. -/
def shownValue : Option Text → Text
  | none => "None".toList
  | some v => v.quoted

/-- An argument as messages show it. -/
def shown (a : Argument) : Text :=
  "Argument(key=".toList ++ a.key.quoted ++ ", value=".toList ++
    shownValue a.value ++ [')']

end Argument

namespace Arguments

/-- The values of all occurrences of a key, in order. -/
def getAll (args : Arguments) (key : Text) : List (Option Text) :=
  args.filterMap fun a => if a.key = key then some a.value else none

/-- The key occurs. -/
def has (args : Arguments) (key : Text) : Bool :=
  args.any fun a => a.key = key

/-- The value of the last occurrence of a key, `default` where the key
does not occur. The last occurrence decides even when it is a bare
flag. -/
def get (args : Arguments) (key : Text) (default : Option Text := none) :
    Option Text :=
  match args.reverse.find? fun a => a.key = key with
  | some a => a.value
  | none => default

/-- The words that switch a flag on, in lower case. -/
def switchedOn : List Text :=
  ["on".toList, "1".toList, "true".toList, "yes".toList]

/-- The last occurrence of the key is bare, or has a word for "on" as
its value, in any case. No character outside ASCII has a letter of
these words as its lower case, so the case map of ASCII is enough. -/
def flag (args : Arguments) (key : Text) : Bool :=
  args.has key &&
    match args.get key with
    | none => true
    | some v => switchedOn.contains (v.map Char.toLower)

/-- The keys of all occurrences, in order. -/
def keys (args : Arguments) : List Text :=
  args.map Argument.key

/-- Each key once, in the order of first occurrence, with the value of
its last occurrence. -/
def toMap (args : Arguments) : List (Text × Option Text) :=
  args.foldl
    (fun m a =>
      if m.any fun e => e.1 = a.key then
        m.map fun e => if e.1 = a.key then (e.1, a.value) else e
      else
        m ++ [(a.key, a.value)])
    []

/-- The argument at a position; negative positions count from the
end. -/
def item? (args : Arguments) (index : Int) : Option Argument :=
  if 0 ≤ index then args[index.toNat]?
  else if -index ≤ args.length then args[(args.length + index).toNat]?
  else none

/-- The arguments as messages show them. -/
def shown (args : Arguments) : Text :=
  "Arguments([".toList ++ Text.join ", ".toList (args.map Argument.shown) ++
    "])".toList

end Arguments

end Shortcode
