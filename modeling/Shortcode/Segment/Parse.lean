import Shortcode.Argument.Parse
import Shortcode.Segment
import Shortcode.Tag

/-!
# Reading a text

A text is cut into literal pieces and tags, and the tags are matched
like brackets: a closing tag ends the innermost open block and has to
name it. Only what stands at the top level becomes an invocation. The
tags inside a block are matched, their arguments are not looked at, and
the block's body is the text they are written in.

Pieces are taken from left to right, so the first fault of a text is the
one that is told.
-/

namespace Shortcode

/-- The block that is open at the top level, while its body is read. -/
structure OpenBlock where
  name : Text
  arguments : Arguments
  start : Nat
  bodyStart : Nat
  /-- What was read of the body. -/
  body : Text
  /-- The blocks open inside it, the innermost first: their names and
  where they start. -/
  inner : List (Text × Nat)
deriving DecidableEq, Repr, Inhabited

namespace OpenBlock

/-- The innermost block that is open: its name and where it starts. -/
def innermost (b : OpenBlock) : Text × Nat :=
  b.inner.headD (b.name, b.start)

/-- A piece of the body was read. -/
def extend (b : OpenBlock) (piece : Text) : OpenBlock :=
  { b with body := b.body ++ piece }

/-- The block closes; its closing tag ends at a position. -/
def close (b : OpenBlock) (origin : Int) (stop : Nat) : Invocation :=
  ⟨b.name, b.arguments, some ⟨b.body, b.bodyStart⟩, b.start, stop, origin⟩

end OpenBlock

namespace Segment

/-- What is left to say at the end of the pieces: the fault that ended
them, the block that is still open, or nothing. -/
def atEnd (origin : Int) (fault : Option TagFault) (block : Option OpenBlock)
    (position : Nat) : Except Error (List Segment) :=
  match fault, block with
  | some f, _ =>
    .error ⟨f.cause, f.name, some (origin + (position + f.position : Nat))⟩
  | none, some b =>
    .error ⟨.unterminatedBlock, some b.innermost.1,
      some (origin + b.innermost.2)⟩
  | none, none => .ok []

/-- Put pieces together, from a position of the text on, inside the
block that is open. -/
def assemble (origin : Int) (fault : Option TagFault) :
    Option OpenBlock → Nat → List Lexeme → Except Error (List Segment)
  | block, position, [] => atEnd origin fault block position
  | none, position, .literal text :: rest =>
    (assemble origin fault none (position + text.length) rest).map
      (.literal text position :: ·)
  | some b, position, .literal text :: rest =>
    assemble origin fault (some (b.extend text)) (position + text.length) rest
  | none, position, .tag t :: rest =>
    let next := position + t.source.length
    match t.form with
    | .closing =>
      .error ⟨.strayClosingTag, some t.name, some (origin + position)⟩
    | .selfClosing =>
      match Arguments.parse t.argumentText (some t.name)
          (origin + (position + t.argumentsAt : Nat)) with
      | .error e => .error e
      | .ok args =>
        (assemble origin fault none next rest).map
          (.invocation ⟨t.name, args, none, position, next, origin⟩ :: ·)
    | .opening =>
      match Arguments.parse t.argumentText (some t.name)
          (origin + (position + t.argumentsAt : Nat)) with
      | .error e => .error e
      | .ok args =>
        assemble origin fault (some ⟨t.name, args, position, next, [], []⟩)
          next rest
  | some b, position, .tag t :: rest =>
    let next := position + t.source.length
    match t.form with
    | .selfClosing =>
      assemble origin fault (some (b.extend t.source)) next rest
    | .opening =>
      let b := { b with inner := (t.name, position) :: b.inner }
      assemble origin fault (some (b.extend t.source)) next rest
    | .closing =>
      if t.name = b.innermost.1 then
        match b.inner with
        | [] =>
          (assemble origin fault none next rest).map
            (.invocation (b.close origin next) :: ·)
        | _ :: inner =>
          let b := { b with inner := inner }
          assemble origin fault (some (b.extend t.source)) next rest
      else
        .error ⟨.mismatchedClosingTag b.innermost.1, some t.name,
          some (origin + position)⟩

/-- The segments of a text. The text stands at a position of the
document, its origin; spans are positions of the text itself. -/
def parse (d : Delimiters) (text : Text) (origin : Int := 0) :
    Except Error (List Segment) :=
  let s := Lexeme.scan d text
  assemble origin s.fault none 0 s.lexemes

end Segment

end Shortcode
