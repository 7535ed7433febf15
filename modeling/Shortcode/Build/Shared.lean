import Mathlib.Data.Finset.Basic
import Shortcode.Build

/-!
# Builds that share a pipeline

All builds on one pipeline share a set of events, one for each build that is
running. A build puts its event into the set when it begins and takes it out
when it ends, however it ends: with a report, with a failure, or because its
task is stopped. Cancelling the pipeline sets the events that are in the set
at that moment and no others, so a build that begins later starts with an
event that nobody has set. A build that aborts sets its own event, which no
other build looks at.

What happens on a pipeline is a list of such actions, in any order
(`Pipeline.History`); the set and the events are what these actions, one
after the other, make of nothing (`Pipeline.Shared.after`). A build that is
told by itself, as `Pipeline.launched` tells it, does on the pipeline what
`Pipeline.Launch.actions` lists.
-/

namespace Shortcode.Pipeline

/-- What happens to the builds on a pipeline. -/
inductive Action where
  /-- A build begins: its event is new, and it is an active one now. -/
  | begins (build : Nat)
  /-- A build sets its own event, because a document of it has failed or a
  handler asks for it. -/
  | stops (build : Nat)
  /-- A build ends, with a report, with a failure or because its task is
  stopped. -/
  | ends (build : Nat) (outcome : Outcome Report)
  /-- The pipeline is cancelled. -/
  | cancel

/-- What happens on a pipeline, and when. -/
abbrev History := List (Moment × Action)

/-- The event of a build: when the pipeline has set it, and when the build
has. -/
structure Event where
  asked : Option Moment := none
  stopped : Option Moment := none

/-- The event has been set, by whomever. -/
def Event.IsSet (e : Event) : Prop :=
  e.asked ≠ none ∨ e.stopped ≠ none

/-- What the builds on a pipeline share. -/
structure Shared where
  /-- The builds whose events are active. -/
  active : Finset Nat := ∅
  events : Nat → Event := fun _ => {}

/-- What an action does to the active events. -/
def Shared.step (s : Shared) : Moment × Action → Shared
  | (_, .begins i) => { s with active := insert i s.active }
  | (_, .ends i _) => { s with active := s.active.erase i }
  | (m, .stops i) =>
    let e := s.events i
    { s with events :=
        Function.update s.events i { e with stopped := e.stopped.or (some m) } }
  | (m, .cancel) =>
    { s with events := fun i =>
        let e := s.events i
        if i ∈ s.active then { e with asked := e.asked.or (some m) } else e }

/-- What a history makes of nothing. -/
def Shared.after (h : History) : Shared :=
  h.foldl Shared.step {}

/-! ## What a build does there -/

/-- A build that is requested on a pipeline at an instant. -/
structure Launch where
  job : Job
  requested : Nat := 0

/-- The instant at which a build begins. -/
def Launch.start (l : Launch) : Nat :=
  l.requested + l.job.delay

/-- The build, if its event is set from outside when it is told. -/
def launched (p : Pipeline) (l : Launch) (asked : Option Moment) :
    Run Report :=
  (p.build l.job.documents ⟨l.start, 0⟩ asked).killedAt
    (l.job.killAt.map (l.requested.max ·))

/-- The build has aborted: it has set its own event, and failed with an error
of the family. -/
def aborts (r : Run Report) : Bool :=
  r.outcome.failure?.any fun f => f.isError && !f.isCancellation

/-- What a build with a number does on the pipeline, if its run is this one:
nothing, where its task is stopped before the build begins. A build that
aborts sets its event a few steps before it ends. That is at the same
instant, at which a cancellation comes before all that the build does. -/
def Launch.actions (l : Launch) (i : Nat) (r : Run Report) : History :=
  if l.start ≤ r.finish.instant then
    (⟨l.start, 0⟩, .begins i) ::
      ((if aborts r then [(r.finish, .stops i)] else [])
        ++ [(r.finish, .ends i r.outcome)])
  else []

end Shortcode.Pipeline
