import Shortcode.Double.Shortest
import Shortcode.Text.Quoted

/-!
# Values

What a host hands over without the engine looking into it: the entries
of a document's metadata, and names and handlers of the wrong type. A
value is null, a truth value, an integer, a number of double precision,
a text, a list or a record.

`Value.text` shows a value in a message; texts in it are quoted.
-/

namespace Shortcode

/-- A value of the host. -/
inductive Value where
  | null
  | truth (holds : Bool)
  | integer (n : Int)
  | double (x : Double)
  | text (t : Text)
  | list (items : List Value)
  | record (fields : List (Text × Value))
deriving Inhabited

namespace Value

mutual

/-- The value as messages show it. -/
def shown : Value → Text
  | .null => "None".toList
  | .truth true => "True".toList
  | .truth false => "False".toList
  | .integer n => Text.ofInt n
  | .double x => x.text
  | .text t => t.quoted
  | .list items => '[' :: shownItems items ++ [']']
  | .record fields => '\x7b' :: shownFields fields ++ ['\x7d']

/-- The items of a list, separated by commas. -/
def shownItems : List Value → Text
  | [] => []
  | [v] => shown v
  | v :: rest => shown v ++ ", ".toList ++ shownItems rest

/-- The fields of a record, separated by commas. -/
def shownFields : List (Text × Value) → Text
  | [] => []
  | [(k, v)] => k.quoted ++ ": ".toList ++ shown v
  | (k, v) :: rest =>
    k.quoted ++ ": ".toList ++ shown v ++ ", ".toList ++ shownFields rest

end

/-- The name of a value's type, as messages give it. -/
def typeName : Value → String
  | .null => "NoneType"
  | .truth _ => "bool"
  | .integer _ => "int"
  | .double _ => "float"
  | .text _ => "str"
  | .list _ => "list"
  | .record _ => "dict"

end Value

end Shortcode
