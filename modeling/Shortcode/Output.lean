import Shortcode.Error

/-!
# What handlers return

A handler returns a text, a fragment, or several of them in one of
several containers; a fragment may ask to be expanded again. Everything
else is refused with the name of its type, also a container that holds
anything but texts and fragments. `Output.fragments` is that rule.
-/

namespace Shortcode

/-- A part of what a handler produces. -/
structure Fragment where
  /-- The text; a handler may pass on that it has none. -/
  text : Option Text
  /-- The text is expanded before it is put into the output. -/
  rescan : Bool := false
deriving DecidableEq, Repr, Inhabited

/-- What a container holds. -/
inductive Item where
  | text (t : Text)
  | fragment (f : Fragment)
  /-- A value of another type. -/
  | foreign (typeName : String)
deriving DecidableEq, Repr, Inhabited

/-- A container whose items are looked at one after the other. -/
inductive Container where
  | list
  | tuple
  | generator
  | iterator
  | mapping
deriving DecidableEq, Repr, Inhabited

/-- The name of a container's type. -/
def Container.typeName : Container → String
  | .list => "list"
  | .tuple => "tuple"
  | .generator => "generator"
  | .iterator => "list_iterator"
  | .mapping => "dict"

/-- What a handler returns. -/
inductive Output where
  | text (t : Text)
  | fragment (f : Fragment)
  | items (container : Container) (held : List Item)
  /-- A value of another type. -/
  | other (typeName : String)
deriving DecidableEq, Repr, Inhabited

namespace Output

/-- The fragment an item stands for. -/
def fragmentOf? : Item → Option Fragment
  | .text t => some ⟨some t, false⟩
  | .fragment f => some f
  | .foreign _ => none

/-- The failure of a handler that returns something of a type that
cannot be used. -/
def unsupported (typeName : String) : Failure :=
  .fault .type
    ("unsupported handler result type: ".toList ++ typeName.toList)

/-- The fragments an output consists of. -/
def fragments : Output → Except Failure (List Fragment)
  | .text t => .ok [⟨some t, false⟩]
  | .fragment f => .ok [f]
  | .items container held =>
    match held.mapM fragmentOf? with
    | some fs => .ok fs
    | none => .error (unsupported container.typeName)
  | .other typeName => .error (unsupported typeName)

end Output

end Shortcode
