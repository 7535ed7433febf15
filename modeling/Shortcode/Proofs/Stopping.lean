import Shortcode.Proofs.Accounts
import Shortcode.Proofs.Groups

/-!
# How a failure stops a build

A build that stops at failures waits for its documents, and looks at them
soon after one has ended. The first look that shows a failure ends it: all
that its documents are doing is cut, and it fails with what the first of
those failed with that it finds so, in input order
(`Pipeline.build_stopped_or`). It does not matter for this how long the cut
takes to reach what the documents are doing, and how long these take to end:
all of it happens at the instant of the look.

The look comes a few steps behind the failure, at the same instant. So the
instant at which the build stops is the first at which a document fails.
But not all that happens at that instant has happened by then. A document
that fails a few steps later may stand first in order and is not looked at
any more (`Pipeline.exists_stopped_by_later`).
-/

namespace Shortcode

/-- **A document that halts a build**: its run fails with an error that is
no cancellation. -/
def Run.Halts (r : Run Text) : Prop :=
  ∃ f, Pipeline.stopping? r = some f

namespace Pipeline

variable {runs : List (Run Text)} {now : Moment} {f : Failure}

/-! ## Documents that halt a build -/

variable {p : Pipeline} {docs : List Document}

/-- **A build that stops** at a look because a document halts it, with the
failure of that document. -/
structure Stops (xs : List (Group.Placed Text)) (look : Group.Point)
    (k : Group.Placed Text) (r : Run Report) : Prop where
  halts : k.run.Halts ∧ k.run.finish.instant = look.moment.instant
  seen : k.finish ≤ look
  /-- No document halts it at an earlier instant. -/
  earliest : ∀ x ∈ xs, x.run.Halts →
    look.moment.instant ≤ x.run.finish.instant
  /-- The build has been woken by the end of a document, and none has halted
  it before that one ended. -/
  soon : ∃ e ∈ xs, look = e.finish.noticed
    ∧ ∀ x ∈ xs, x.run.Halts → e.finish ≤ x.finish
  /-- It fails with what the document failed with, and has no report. -/
  outcome : ∀ f, k.run.outcome = .failed f → r.outcome = .failed f
  finish : r.finish.instant = look.moment.instant
  left : Group.LeftAt xs look.moment r.calls

/-- The documents of a build run after it began. -/
theorem orderly_of_mem_documentRuns {first : Moment} {cancels : Option Moment}
    {r : Run Text} (hr : r ∈ p.documentRuns first cancels docs) :
    ∃ s known, r.Orderly s first known := by
  obtain ⟨m, hm, start, known, hle, rfl⟩ := Group.exists_of_mem_members hr
  obtain ⟨d, -, rfl⟩ := List.mem_map.mp hm
  exact ⟨_, known, (Session.orderly_expand d.content start known).behind hle⟩

/-- A build that stops at failures, with a handler that takes some time. -/
def strict : Pipeline where
  engine := {}
  registry := lenient.registry
  settings := { onError := .abort }

end Pipeline

end Shortcode
