import Shortcode.Handler
import Shortcode.Text.Number

/-!
# Scripts

A script is a handler given as data: a list of steps, each of which adds
an item to the output, asks something of the expansion, or fails; and a
form that says what becomes of the items. `Script.program` is what a
script does.
-/

namespace Shortcode

/-- What a step adds to the output. -/
inductive Yield where
  | text (t : Text)
  | body (fallback : Option Text)
  | argument (key : Text) (fallback : Option Text)
  | arguments
  | argumentAll (key separator : Text)
  | flag (key : Text)
  /-- Where the invocation stands. -/
  | place
  /-- An entry of the document's metadata. -/
  | entry (key : Text) (fallback : Value)
  | setting (field : Field)
  | value (v : Value)
deriving Inhabited

/-- The text a step has expanded. -/
inductive Source where
  | text (t : Option Text)
  | body
  | argument (key : Text)
deriving Inhabited

/-- What a step does with the failure of an expansion. -/
inductive Catch where
  /-- Nothing: the script fails with it. -/
  | pass
  /-- Add a note of it to the output. -/
  | note
  /-- Fail with a report of it. -/
  | rewrap
  /-- Keep it, to be raised later. -/
  | keep
deriving DecidableEq, Repr, Inhabited

/-- A step of a script. Where a text is added, `rescan` tells to add a
fragment instead of the plain text. -/
inductive Step where
  | yield (what : Yield) (rescan : Option Bool)
  | cancelled (rescan : Option Bool)
  | countdown (key before behind : Text)
  | cancel
  | raise (f : Failure)
  | interrupt (message : Text)
  | sleep (time : Nat)
  | expand (source : Source) (onError : Catch) (rescan : Option Bool)
  | reraise
deriving Inhabited

/-- What becomes of the items a script has added. -/
inductive Form where
  | items (container : Container)
  | joined
  | fragment
  | nested
  | constant (typeName : String)
deriving Inhabited

/-- A handler given as data. -/
structure Script where
  steps : List Step
  concurrent : Bool := false
  form : Form := .items .list
  /-- Whether a single fragment is expanded again. -/
  rescan : Bool := false
deriving Inhabited

namespace Script

/-- A text as an item. -/
def itemOf (rescan : Option Bool) (t : Text) : Item :=
  match rescan with
  | none => .text t
  | some r => .fragment ⟨some t, r⟩

/-- A value as an item; null may stand for a missing text. -/
def itemOfValue (rescan : Option Bool) : Value → Item
  | .text t => itemOf rescan t
  | .null =>
    match rescan with
    | none => .foreign Value.null.typeName
    | some r => .fragment ⟨none, r⟩
  | v => .foreign v.typeName

/-- A text that may be missing, as a value. -/
def optional : Option Text → Value
  | none => .null
  | some t => .text t

/-- A truth value as a text. -/
def truth (b : Bool) : Text :=
  (if b then "true" else "false").toList

/-- Where an invocation stands: its name, its position, its span, the
position of its body, and the depth. -/
def placeOf (v : View) : Text :=
  let inv := v.invocation
  let body :=
    match inv.bodyOffset with
    | some n => Text.ofInt n
    | none => ['-']
  inv.name ++ '@' :: Text.ofInt inv.offset ++ '[' :: Text.ofInt inv.start ++
    ',' :: Text.ofInt inv.stop ++ "] body@".toList ++ body ++
    " depth=".toList ++ Text.ofInt v.depth

/-- What a step adds, for an invocation. -/
def valueOf (v : View) : Yield → Value
  | .text t => .text t
  | .body fallback => optional (v.invocation.body.or fallback)
  | .argument key fallback => optional (v.invocation.arguments.get key fallback)
  | .arguments => .text v.invocation.arguments.shown
  | .argumentAll key separator =>
    .text (Text.join separator
      ((v.invocation.arguments.getAll key).map fun a => a.getD ['~']))
  | .flag key => .text (truth (v.invocation.arguments.flag key))
  | .place => .text (placeOf v)
  | .entry key fallback => (v.metadata.get? key).getD fallback
  | .setting field => .text (v.settings.shown field)
  | .value x => x

/-- The text a step has expanded, for an invocation. -/
def sourceOf (v : View) : Source → Option Text
  | .text t => t
  | .body => v.invocation.body
  | .argument key => v.invocation.arguments.get key

/-- A note of a failure. -/
def noteOf (f : Failure) : Text :=
  '[' :: f.label.toList ++ ": ".toList ++ f.describe ++ [']']

/-- Why a text gives no number to count down from; of a long text the
front is shown. -/
def unreadable (t : Text) : Text.Unreadable → Text
  | .malformed =>
    "invalid literal for int() with base 10: ".toList ++ t.quoted.take 200
  | .tooLong digits =>
    "Exceeds the limit (".toList ++ Text.ofInt Text.digitLimit ++
      " digits) for integer string conversion: value has ".toList ++
      Text.ofInt digits ++ (" digits; use sys.set_int_max_str_digits() " ++
        "to increase the limit").toList

/-- What a countdown adds: the next invocation to be expanded, or the
end. -/
def countdownItem (key before behind : Text) (v : View) :
    Except Failure Item :=
  match v.invocation.arguments.get key with
  | none =>
    .error (.fault .type ("int() argument must be a string, a bytes-like " ++
      "object or a real number, not 'NoneType'").toList)
  | some t =>
    match t.readInt with
    | .error cause => .error (.fault .value (unreadable t cause))
    | .ok n =>
      if n ≤ 0 then .ok (.text "done".toList)
      else .ok (.fragment
        ⟨some (before ++ Text.ofInt (n - 1) ++ behind), true⟩)

/-- The text of an item, or the name of the type of something else. -/
def textOfItem : Item → Except String Text
  | .text t => .ok t
  | .fragment ⟨some t, _⟩ => .ok t
  | .fragment ⟨none, _⟩ => .error Value.null.typeName
  | .foreign typeName => .error typeName

/-- The texts of items in a row, starting at a position. -/
def joined (position : Nat) : List Item → Except Failure Text
  | [] => .ok []
  | item :: rest =>
    match textOfItem item with
    | .error typeName =>
      .error (.fault .type ("sequence item ".toList ++ Text.ofInt position ++
        ": expected str instance, ".toList ++ typeName.toList ++
        " found".toList))
    | .ok t => (joined (position + 1) rest).map (t ++ ·)

/-- Items as the keys of a mapping: each text once, in the order of
first occurrence. -/
def asKeys (items : List Item) : List Item :=
  items.foldl
    (fun keys item =>
      let key :=
        match textOfItem item with
        | .ok t => .text t
        | .error typeName => .foreign typeName
      if keys.contains key then keys else keys ++ [key])
    []

/-- What a script returns. -/
def output (s : Script) (items : List Item) : Except Failure Output :=
  match s.form with
  | .items .mapping => .ok (.items .mapping (asKeys items))
  | .items container => .ok (.items container items)
  | .joined => (joined 0 items).map .text
  | .fragment => (joined 0 items).map fun t => .fragment ⟨some t, s.rescan⟩
  | .nested => .ok (.items .list [.foreign Container.list.typeName])
  | .constant typeName => .ok (.other typeName)

/-- What is left of a script after some steps, given the items added so
far and the failure that was kept. -/
def continued (s : Script) (v : View) :
    List Step → List Item → Option Failure → Program
  | [], items, _ =>
    match s.output items with
    | .ok o => .finish o
    | .error f => .fail f
  | .yield what rescan :: rest, items, kept =>
    s.continued v rest (items ++ [itemOfValue rescan (valueOf v what)]) kept
  | .cancelled rescan :: rest, items, kept =>
    .askCancelled fun b =>
      s.continued v rest (items ++ [itemOf rescan (truth b)]) kept
  | .countdown key before behind :: rest, items, kept =>
    match countdownItem key before behind v with
    | .error f => .fail f
    | .ok item => s.continued v rest (items ++ [item]) kept
  | .cancel :: rest, items, kept => .cancel (s.continued v rest items kept)
  | .raise f :: _, _, _ => .fail f
  | .interrupt message :: _, _, _ => .interrupt message
  | .sleep time :: rest, items, kept =>
    .sleep time (s.continued v rest items kept)
  | .expand source onError rescan :: rest, items, kept =>
    .expand (sourceOf v source) fun answer =>
      match answer with
      | .ok t => s.continued v rest (items ++ [itemOf rescan t]) kept
      | .error f =>
        if f.isError then
          match onError with
          | .pass => .fail f
          | .note =>
            s.continued v rest (items ++ [itemOf rescan (noteOf f)]) kept
          | .rewrap =>
            .fail (.fault .value ("rewrapped: ".toList ++ f.describe))
          | .keep => s.continued v rest items (some f)
        else .fail f
  | .reraise :: rest, items, kept =>
    match kept with
    | some f => .fail f
    | none => s.continued v rest items none

/-- What a script does with an invocation. -/
def program (s : Script) (v : View) : Program :=
  s.continued v s.steps [] none

end Script

end Shortcode
