import Shortcode.Argument
import Shortcode.Error

/-!
# Segments

A text that was read is a list of segments: literal text, and the
invocations of shortcodes that stand at its top level. An invocation
knows its span in the text and the text's own position in the document
(its *origin*), so that a position in the document can be told for it
and for everything that is expanded out of it.

A block's body stays a text: what is in it is read when it is expanded.
-/

namespace Shortcode

/-- The body of a block, and the position at which it starts. -/
structure Body where
  text : Text
  start : Nat
deriving DecidableEq, Repr, Inhabited

/-- One use of a shortcode at the top level of a text. -/
structure Invocation where
  name : Text
  arguments : Arguments
  /-- The body of a block; a self-closing use has none. -/
  block : Option Body
  /-- The span in the text it was read from. -/
  start : Nat
  stop : Nat
  /-- The position of that text in the document. -/
  origin : Int
deriving DecidableEq, Repr, Inhabited

namespace Invocation

/-- The body's text, of a block. -/
def body (inv : Invocation) : Option Text :=
  inv.block.map Body.text

/-- The position of the invocation in the document. -/
def offset (inv : Invocation) : Int :=
  inv.origin + inv.start

/-- The position of the body in the document, of a block. -/
def bodyOffset (inv : Invocation) : Option Int :=
  inv.block.map fun b => inv.origin + b.start

/-- The position in the document to report for a text that an invocation
gave rise to: its body is where it stands, anything else is where the
invocation is. -/
def originOf (inv : Invocation) (text : Text) : Int :=
  match inv.block with
  | some b => if text = b.text then inv.origin + b.start else inv.offset
  | none => inv.offset

end Invocation

/-- A part of a text that was read. -/
inductive Segment where
  | literal (text : Text) (start : Nat)
  | invocation (inv : Invocation)
deriving DecidableEq, Repr, Inhabited

namespace Segment

/-- The span of a segment in the text it was read from. -/
def span : Segment → Nat × Nat
  | .literal text start => (start, start + text.length)
  | .invocation inv => (inv.start, inv.stop)

/-- The invocation that a segment is. -/
def invocation? : Segment → Option Invocation
  | .literal .. => none
  | .invocation inv => some inv

/-- The invocations among segments, in order. -/
def invocations (segments : List Segment) : List Invocation :=
  segments.filterMap invocation?

end Segment

end Shortcode
