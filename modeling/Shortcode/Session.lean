import Shortcode.Registry
import Shortcode.Run.Program

/-!
# Calling handlers

`Session.call` puts the run of a handler into its place: it is recorded
as a call, it is cut when it takes longer than a handler may, its output
is turned into fragments, and its failure is reported as the failure of
the handler. A failure that came out of a nested expansion was reported
there and passes unchanged, and so does a cancellation.
-/

namespace Shortcode

/-- What stays the same during an expansion. -/
structure Session where
  settings : Settings
  registry : Registry
  /-- What handlers can look up in the document. -/
  metadata : Metadata := []
  /-- The expansion can be cancelled. -/
  cancellable : Bool := false
deriving Inhabited

namespace Session

/-- How a call ends, by the outcome of the handler's run. Only a handler
that can wait is cancelled. -/
def endingOf {α : Type} (concurrent : Bool) : Outcome α → Ending
  | .returned _ => .completed
  | .failed _ => .failed
  | .interrupted _ => if concurrent then .cancelled else .failed

/-- What the failure of a handler is reported as. -/
def report (inv : Invocation) (f : Failure) : Failure :=
  if f.hasEscaped || f.isCancellation then f
  else .handlerFailed inv.name inv.offset f

/-- The run of a handler that is entered at a moment, as a call. `cleared`
is when it was last looked whether the expansion had been cancelled, and
`started` is when the invocation's turn came. -/
def enter (s : Session) (h : Handler) (inv : Invocation) (depth : Nat)
    (expander : Expander) (cleared started entered : Moment)
    (cancels : Option Moment) : Run (List Fragment) :=
  let program := h.program ⟨inv, depth, s.settings, s.metadata⟩
  let r := program.run s.cancellable expander entered cancels
  let self : Call :=
    ⟨inv, depth, cleared, started, entered, Moment.reached cancels entered,
      r.finish, endingOf h.concurrent r.outcome⟩
  (r.withOutcome
    ((r.outcome.bind Output.fragments).mapFailure (report inv))).inside self

/-- How long a handler may take. One that cannot wait cannot be stopped
either. -/
def limit? (s : Session) (h : Handler) : Option Nat :=
  if h.concurrent then s.settings.timeLimit else none

/-- When a handler is entered whose turn has come: under a time limit that
is done by a task of its own. -/
def entry (s : Session) (h : Handler) (now : Moment) : Moment :=
  if (s.limit? h).isSome then now.next else now

/-- The run of a handler on an invocation whose turn has come. Under a time
limit it is cut when it has not ended in time. A call inside another one
that was entered at the same instant has its time up together with it, and
then the outer call is the one that is late. -/
def call (s : Session) (h : Handler) (inv : Invocation) (depth : Nat)
    (expander : Expander) (cleared now : Moment) (cancels : Option Moment) :
    Run (List Fragment) :=
  let r := s.enter h inv depth expander cleared now (s.entry h now) cancels
  match s.limit? h with
  | none => r
  | some time =>
    r.waitedFor now time (.failed (report inv (.fault .timeout [])))

section

variable {s : Session} {h : Handler} {inv : Invocation} {depth time : Nat}
  {expander : Expander} {cleared now : Moment} {cancels : Option Moment}

theorem limit?_eq_some_iff : s.limit? h = some time
    ↔ h.concurrent = true ∧ s.settings.timeLimit = some time := by
  unfold limit?
  split
  · next hc => simp [hc]
  · next hc => simp [hc]

theorem limit?_of_not_concurrent (h' : h.concurrent = false) :
    s.limit? h = none :=
  if_neg (by simp [h'])

theorem limit?_of_timeLimit_eq_none (h' : s.settings.timeLimit = none) :
    s.limit? h = none := by
  unfold limit?
  rw [h']
  split <;> rfl

theorem entry_of_none (h' : s.limit? h = none) : s.entry h now = now :=
  if_neg (by simp [h'])

theorem entry_of_some (h' : s.limit? h = some time) :
    s.entry h now = now.next :=
  if_pos (by simp [h'])

theorem le_entry (s : Session) (h : Handler) (now : Moment) :
    now ≤ s.entry h now := by
  unfold entry
  split
  · exact now.le_next
  · exact now.le_refl

theorem entry_le_next (s : Session) (h : Handler) (now : Moment) :
    s.entry h now ≤ now.next := by
  unfold entry
  split
  · exact now.next.le_refl
  · exact now.le_next

/-- A handler that has no limit is run as it is. -/
theorem call_of_none (h' : s.limit? h = none) :
    s.call h inv depth expander cleared now cancels
      = s.enter h inv depth expander cleared now now cancels := by
  unfold call
  rw [h', entry_of_none h']

/-- A handler that has a limit is waited for. -/
theorem call_of_some (h' : s.limit? h = some time) :
    s.call h inv depth expander cleared now cancels
      = (s.enter h inv depth expander cleared now now.next cancels).waitedFor
          now time (.failed (report inv (.fault .timeout []))) := by
  unfold call
  rw [h', entry_of_some h']

end

/-- Run the handler of an invocation. -/
def invoke (s : Session) (inv : Invocation) (depth : Nat)
    (expander : Expander) (cleared now : Moment) (cancels : Option Moment) :
    Run (List Fragment) :=
  match s.registry.resolve? inv.name with
  | none =>
    .now now (.failed (.error
      ⟨.unknownShortcode, some inv.name, some inv.offset⟩))
  | some h => s.call h inv depth expander cleared now cancels

end Session

end Shortcode
