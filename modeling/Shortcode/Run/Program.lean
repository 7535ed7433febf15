import Shortcode.Handler
import Shortcode.Run

/-!
# Running a program

`Program.run` follows what a handler does. Its requests to have a text
expanded are answered by the run of an expansion, which takes time and
may call other handlers; sleeping takes the time that was asked for; and
everything else happens at the moment at which it is done.

A run knows when the cancellation of its expansion was asked for, as far
as that is known where it runs: by the host, by a handler that ran
before, or by itself.
-/

namespace Shortcode

/-- Something that expands a text, from a moment on, given when the
cancellation of the expansion was asked for, if it was. -/
abbrev Expander := Option Text → Moment → Option Moment → Run Text

namespace Program

/-- The run of a program. `cancellable` tells whether the expansion can
be cancelled at all. -/
def run (cancellable : Bool) (expander : Expander) :
    Program → Moment → Option Moment → Run Output
  | .finish output, now, _ => .now now (.returned output)
  | .fail failure, now, _ => .now now (.failed failure)
  | .interrupt message, now, _ => .now now (.interrupted message)
  | .sleep time next, now, cancels =>
    (next.run cancellable expander (now.later time) cancels).behind
      (now.later time)
  | .expand text next, now, cancels =>
    let r := expander text now cancels
    let known := Moment.earliest? cancels r.cancels
    match r.outcome with
    | .returned t =>
      r.after ((next (.ok t)).run cancellable expander r.finish known)
    | .failed f =>
      r.after ((next (.error f)).run cancellable expander r.finish known)
    | .interrupted m => r.withOutcome (.interrupted m)
  | .cancel next, now, cancels =>
    if cancellable then
      (Run.asking now).after
        (next.run cancellable expander now
          (Moment.earliest? cancels (some now)))
    else next.run cancellable expander now cancels
  | .askCancelled next, now, cancels =>
    (next (Moment.reached cancels now)).run cancellable expander now cancels

end Program

end Shortcode
