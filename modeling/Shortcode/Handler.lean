import Shortcode.Document
import Shortcode.Output
import Shortcode.Segment
import Shortcode.Settings

/-!
# Handlers

A handler looks at one invocation and produces an output. What it does
on the way is a `Program`: it may sleep, have a text expanded, ask
whether the expansion was cancelled, or cancel it. A program is a tree:
after a request stands what the handler does with the answer, so every
run of a handler is finite, whatever the answers are.

A handler that is not concurrent does not wait for anything: it neither
sleeps nor has texts expanded, and no time limit is set for it.
-/

namespace Shortcode

/-- What a handler sees of the expansion it belongs to. -/
structure View where
  invocation : Invocation
  depth : Nat
  settings : Settings
  metadata : Metadata
deriving Inhabited

/-- What a handler does. -/
inductive Program where
  /-- Return an output. -/
  | finish (output : Output)
  /-- Fail. -/
  | fail (failure : Failure)
  /-- Stop as if the handler had been cancelled. -/
  | interrupt (message : Text)
  /-- Do nothing for some time. -/
  | sleep (time : Nat) (next : Program)
  /-- Have a text expanded, and go on with its expansion or with the
  failure of it. -/
  | expand (text : Option Text) (next : Except Failure Text → Program)
  /-- Cancel the expansion the handler belongs to, and go on. -/
  | cancel (next : Program)
  /-- Ask whether the expansion was cancelled. -/
  | askCancelled (next : Bool → Program)
deriving Inhabited

/-- A handler. -/
structure Handler where
  /-- How messages show it. -/
  shown : Text
  /-- The handler can wait. -/
  concurrent : Bool
  /-- What it does with an invocation. -/
  program : View → Program
deriving Inhabited

end Shortcode
