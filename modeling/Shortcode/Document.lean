import Shortcode.Error

/-!
# Documents

A document has a source, a content and metadata. It is handed to
handlers for reading only: a document that was made does not change,
whatever is done to the values it was made from, and an attempt to
change it fails.
-/

namespace Shortcode

/-- The entries of a document's metadata, in order; a key occurs once. -/
abbrev Metadata := List (Text × Value)

namespace Metadata

/-- The value of a key. -/
def get? (m : Metadata) (key : Text) : Option Value :=
  (m.find? fun e => e.1 = key).map Prod.snd

/-- The value of a key that has to be there. -/
def index (m : Metadata) (key : Text) : Except Failure Value :=
  match m.get? key with
  | some v => .ok v
  | none => .error (.fault .key key)

end Metadata

/-- A document. -/
structure Document where
  source : Text
  content : Text
  metadata : Metadata := []
deriving Inhabited

namespace Document

/-- An attempt to change a document. -/
inductive Change where
  | setEntry
  | deleteEntry
  | setField (field : Text)

/-- A document does not take changes; each kind of attempt fails in its
own way. -/
def refuse : Change → Failure
  | .setEntry =>
    .fault .type
      "'mappingproxy' object does not support item assignment".toList
  | .deleteEntry =>
    .fault .type "'mappingproxy' object does not support item deletion".toList
  | .setField field =>
    .fault .frozenField ("cannot assign to field ".toList ++ field.quoted)

end Document

end Shortcode
