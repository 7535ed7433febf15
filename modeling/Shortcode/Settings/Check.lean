import Shortcode.Settings
import Shortcode.Settings.Number
import Shortcode.Value

/-!
# Checking settings

Settings are made from values that a host names and from an environment
of named texts; what the host names wins, also over an entry of the
environment that could not be used. Names are compared without regard to
case. Each field takes the types of values that stand for what it holds:
an integer may be written as a text, as a truth value or with a point
and no fraction.

All fields are looked at, and every field that cannot be used is told,
in the order of the fields. The delimiters are compared with each other
only when every field could be used.
-/

namespace Shortcode.Settings

/-- Why the value of a field cannot be used. -/
inductive Problem where
  | notText
  | notInteger
  | notIntegerText
  | fractional
  | notFinite
  | tooLong
  | notNumber
  | notNumberText
  | below (least : Nat)
  | notPositive
  | notPolicy
deriving DecidableEq, Repr, Inhabited

namespace Problem

/-- The name of a problem. -/
def label : Problem → String
  | .notText => "string_type"
  | .notInteger => "int_type"
  | .notIntegerText => "int_parsing"
  | .fractional => "int_from_float"
  | .notFinite => "finite_number"
  | .tooLong => "int_parsing_size"
  | .notNumber => "float_type"
  | .notNumberText => "float_parsing"
  | .below _ => "greater_than_equal"
  | .notPositive => "greater_than"
  | .notPolicy => "literal_error"

/-- What a problem says. -/
def message : Problem → Text
  | .notText => "Input should be a valid string".toList
  | .notInteger => "Input should be a valid integer".toList
  | .notIntegerText =>
    ("Input should be a valid integer, unable to parse string " ++
      "as an integer").toList
  | .fractional =>
    ("Input should be a valid integer, got a number with a " ++
      "fractional part").toList
  | .notFinite => "Input should be a finite number".toList
  | .tooLong =>
    ("Unable to parse input string as an integer, exceeded " ++
      "maximum size").toList
  | .notNumber => "Input should be a valid number".toList
  | .notNumberText =>
    "Input should be a valid number, unable to parse string as a number".toList
  | .below least =>
    "Input should be greater than or equal to ".toList ++ Text.ofInt least
  | .notPositive => "Input should be greater than 0".toList
  | .notPolicy => "Input should be 'abort' or 'skip'".toList

end Problem

/-- What is wrong with two delimiters. -/
inductive DelimiterProblem where
  | empty (field : Field)
  | reserved (field : Field) (found : Text)
  | equal
deriving DecidableEq, Repr, Inhabited

/-- What a problem with delimiters says. -/
def DelimiterProblem.message : DelimiterProblem → Text
  | .empty field => field.label.toList ++ " must not be empty".toList
  | .reserved field found =>
    field.label.toList ++ " contains reserved characters: ".toList ++
      Text.quotedList (found.map ([·]))
  | .equal => "open_delimiter and close_delimiter must differ".toList

/-- Why settings cannot be made. -/
inductive Refusal where
  | fields (problems : List (Field × Problem))
  | delimiters (problem : DelimiterProblem)
deriving Inhabited

/-- A field that holds a text. -/
def textOf : Value → Except Problem Text
  | .text t => .ok t
  | _ => .error .notText

/-- An integer, of a number with a point: the number is finite and has no
fraction, and the integer fits into 64 bits. -/
def integerOfDouble : Double → Except Problem Int
  | .finite negative units =>
    match (Double.finite negative units).whole? with
    | none => .error .fractional
    | some n => if n.natAbs < Nat.pow 2 63 then .ok n else .error .tooLong
  | .infinite _ | .undefined => .error .notFinite

/-- An integer, of a value that stands for one. -/
def integerOf : Value → Except Problem Int
  | .integer n => .ok n
  | .double x => integerOfDouble x
  | .truth b => .ok (if b then 1 else 0)
  | .text t =>
    match integerOfText t with
    | .ok n => .ok n
    | .error .malformed => .error .notIntegerText
    | .error (.tooLong _) => .error .tooLong
  | _ => .error .notInteger

/-- A field that holds an integer that is not below a least one. -/
def countOf (least : Nat) (v : Value) : Except Problem Nat :=
  match integerOf v with
  | .error p => .error p
  | .ok n => if n < least then .error (.below least) else .ok n.toNat

/-- A number of double precision, of a value that stands for one: an
integer does unless it is as great as an infinite number. -/
def doubleOf : Value → Except Problem Double
  | .integer n =>
    match Double.ofInt n with
    | .infinite _ => .error .notNumber
    | x => .ok x
  | .double x => .ok x
  | .truth b => .ok (.ofInt (if b then 1 else 0))
  | .text t =>
    match doubleOfText? t with
    | some x => .ok x
    | none => .error .notNumberText
  | _ => .error .notNumber

/-- A field that holds a positive number, or nothing. -/
def limitOf : Value → Except Problem (Option Double)
  | .null => .ok none
  | v =>
    match doubleOf v with
    | .error p => .error p
    | .ok x => if x.isPositive then .ok (some x) else .error .notPositive

/-- A field that holds a policy. -/
def policyOf : Value → Except Problem Policy
  | .text t =>
    if t = Policy.abort.label then .ok .abort
    else if t = Policy.skip.label then .ok .skip
    else .error .notPolicy
  | _ => .error .notPolicy

/-- Put the value of a field into settings. -/
def assign (s : Settings) (field : Field) (v : Value) :
    Except Problem Settings :=
  match field with
  | .openDelimiter =>
    (textOf v).map fun t =>
      { s with delimiters := { s.delimiters with opening := t } }
  | .closeDelimiter =>
    (textOf v).map fun t =>
      { s with delimiters := { s.delimiters with closing := t } }
  | .maxDepth => (countOf 1 v).map fun n => { s with maxDepth := n }
  | .maxConcurrency => (countOf 0 v).map fun n => { s with maxConcurrency := n }
  | .handlerTimeout => (limitOf v).map fun t => { s with handlerTimeout := t }
  | .maxParallelDocuments =>
    (countOf 1 v).map fun n => { s with maxParallelDocuments := n }
  | .onError => (policyOf v).map fun p => { s with onError := p }

/-- The name an entry of the environment has for a field, in lower
case. -/
def entryName (field : Field) : Text :=
  "shortcode_".toList ++ field.label.toList

/-- The last of the entries with a name that is given in lower case;
their own names are compared without regard to case. -/
def lastNamed? {α : Type} (entries : List (Text × α)) (name : Text) :
    Option α :=
  (entries.reverse.find? fun e => e.1.map Char.toLower = name).map Prod.snd

/-- The value given for a field: by the host, else by the
environment. -/
def given (named : List (Text × Value)) (environment : List (Text × Text))
    (field : Field) : Option Value :=
  (lastNamed? named field.label.toList).or
    ((lastNamed? environment (entryName field)).map .text)

/-- The reserved characters of a delimiter, each once, in order. -/
def reservedIn (t : Text) : Text :=
  reservedCharacters.filter t.contains

/-- What is wrong with one delimiter. -/
def delimiterProblem? (field : Field) (t : Text) : Option DelimiterProblem :=
  if t.isEmpty then some (.empty field)
  else if (reservedIn t).isEmpty then none
  else some (.reserved field (reservedIn t))

/-- What is wrong with a pair of delimiters; the opening one is looked
at first. -/
def delimitersProblem? (d : Delimiters) : Option DelimiterProblem :=
  match delimiterProblem? .openDelimiter d.opening with
  | some p => some p
  | none =>
    match delimiterProblem? .closeDelimiter d.closing with
    | some p => some p
    | none => if d.opening = d.closing then some .equal else none

/-- Fill fields one after the other, and collect those that cannot be
used. -/
def fill (value : Field → Option Value) :
    List Field → Settings → Settings × List (Field × Problem)
  | [], s => (s, [])
  | field :: rest, s =>
    match value field with
    | none => fill value rest s
    | some v =>
      match assign s field v with
      | .ok s => fill value rest s
      | .error p =>
        let (s, problems) := fill value rest s
        (s, (field, p) :: problems)

/-- Settings from what a host names and what the environment holds. -/
def make (named : List (Text × Value))
    (environment : List (Text × Text) := []) : Except Refusal Settings :=
  match fill (given named environment) Field.all {} with
  | (s, []) =>
    match delimitersProblem? s.delimiters with
    | none => .ok s
    | some p => .error (.delimiters p)
  | (_, problems) => .error (.fields problems)

end Shortcode.Settings
