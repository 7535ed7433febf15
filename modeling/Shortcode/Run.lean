import Shortcode.Course

/-!
# Runs

A run is what happens when something is done: the course it takes if nobody
interferes, how it ends then, and the courses it takes when it is cut. The
latter fit together, so a run carries the proof of it: whatever runs are made
of others, of what is left of a cut the same can be said.

The rest of the module makes runs of others: one follows another, with or
without regard to how that ended, a result or a failure is replaced, a task
waits for a run that may take some time only.
-/

namespace Shortcode

/-- How something ends: with a result, with a failure, or as if its task
had been cancelled. -/
inductive Outcome (α : Type) where
  | returned (result : α)
  | failed (failure : Failure)
  | interrupted (message : Text)
deriving Inhabited

/-- What happens when something is done. -/
structure Run (α : Type) where
  finish : Moment
  outcome : Outcome α
  calls : List Call := []
  /-- When a handler first asks for the cancellation of the expansion. -/
  cancels : Option Moment := none
  /-- A text is met that stands deeper than texts may. -/
  exceeds : Bool := false
  /-- What is left of the run if it is cut before it has ended. -/
  stop : Cut → Course
  stops : Stops ⟨finish, calls, cancels, exceeds⟩ stop

namespace Outcome

/-- The outcome with its result replaced; a result that cannot be used
is a failure. -/
def bind {α β : Type} (o : Outcome α) (f : α → Except Failure β) :
    Outcome β :=
  match o with
  | .returned a =>
    match f a with
    | .ok b => .returned b
    | .error e => .failed e
  | .failed e => .failed e
  | .interrupted m => .interrupted m

/-- The outcome with its failure replaced. -/
def mapFailure {α : Type} (f : Failure → Failure) : Outcome α → Outcome α
  | .failed e => .failed (f e)
  | o => o

/-- The failure of an outcome. -/
def failure? {α : Type} : Outcome α → Option Failure
  | .failed e => some e
  | _ => none

/-- The result of an outcome. -/
def result? {α : Type} : Outcome α → Option α
  | .returned a => some a
  | _ => none

theorem result?_eq_some_iff {α : Type} {o : Outcome α} {a : α} :
    o.result? = some a ↔ o = .returned a := by
  cases o <;> simp [result?]

theorem failure?_eq_some_iff {α : Type} {o : Outcome α} {e : Failure} :
    o.failure? = some e ↔ o = .failed e := by
  cases o <;> simp [failure?]

theorem bind_eq_returned_iff {α β : Type} {o : Outcome α}
    {f : α → Except Failure β} {b : β} :
    o.bind f = .returned b ↔ ∃ a, o = .returned a ∧ f a = .ok b := by
  cases o with
  | returned a => cases hf : f a <;> simp [bind, hf]
  | failed | interrupted => simp [bind]

theorem bind_eq_failed_iff {α β : Type} {o : Outcome α}
    {f : α → Except Failure β} {e : Failure} :
    o.bind f = .failed e
      ↔ o = .failed e ∨ ∃ a, o = .returned a ∧ f a = .error e := by
  cases o with
  | returned a => cases hf : f a <;> simp [bind, hf]
  | failed | interrupted => simp [bind]

theorem mapFailure_eq_returned_iff {α : Type} {o : Outcome α}
    {f : Failure → Failure} {a : α} :
    o.mapFailure f = .returned a ↔ o = .returned a := by
  cases o <;> simp [mapFailure]

theorem mapFailure_eq_failed_iff {α : Type} {o : Outcome α}
    {f : Failure → Failure} {e : Failure} :
    o.mapFailure f = .failed e ↔ ∃ g, o = .failed g ∧ f g = e := by
  cases o <;> simp [mapFailure]

end Outcome

namespace Run

/-- Something that ends at a moment, and does nothing before. -/
def now {α : Type} (m : Moment) (o : Outcome α) : Run α where
  finish := m
  outcome := o
  stop c := { finish := c.arrival m }
  stops := .waiting { finish := m }

/-- The failure of a text that stands too deep, at a moment. -/
def tooDeep {α : Type} (m : Moment) (f : Failure) : Run α where
  finish := m
  outcome := .failed f
  exceeds := true
  stop c := { finish := c.arrival m }
  stops := .waiting { finish := m, exceeds := true }

/-- A request for the cancellation of the expansion, made at a moment. -/
def asking (m : Moment) : Run Unit where
  finish := m
  outcome := .returned ()
  cancels := some m
  stop c := { finish := c.arrival m }
  stops := .waiting { finish := m, cancels := some m }

instance {α : Type} : Inhabited (Run α) := ⟨now default default⟩

/-- What happens if nobody interferes. -/
def whole {α : Type} (r : Run α) : Course :=
  ⟨r.finish, r.calls, r.cancels, r.exceeds⟩

/-- What is left of a run after a cut, which may come too late for it. -/
def upTo {α : Type} (c : Cut) (r : Run α) : Course :=
  if c.Precedes r.finish then r.stop c else r.whole

section

variable {α : Type} {r : Run α} {c d : Cut}

theorem upTo_of_precedes (h : c.Precedes r.finish) : r.upTo c = r.stop c :=
  if_pos h

theorem upTo_of_not_precedes (h : ¬c.Precedes r.finish) :
    r.upTo c = r.whole :=
  if_neg h

/-- What is left of a run is a part of it. -/
theorem within_upTo (r : Run α) (c : Cut) : (r.upTo c).Within r.whole := by
  unfold upTo
  split
  · next h => exact r.stops.within h
  · exact .refl _

/-- What is left of a run that is cut sooner is a part of what is left of it
when it is cut later. -/
theorem upTo_mono (r : Run α) (h : c ≤ d) :
    (r.upTo c).Within (r.upTo d) := by
  by_cases hd : d.Precedes r.finish
  · rw [upTo_of_precedes hd, upTo_of_precedes (hd.of_le h)]
    exact r.stops.mono h hd
  · rw [upTo_of_not_precedes hd]
    exact r.within_upTo c

/-- A run that is cut ends by the instant of the cut. -/
theorem instant_upTo_le (r : Run α) (c : Cut) :
    (r.upTo c).finish.instant ≤ c.moment.instant := by
  unfold upTo
  split
  · next h => exact Nat.le_of_eq (r.stops.instant_eq h)
  · next h => exact Moment.instant_le (Cut.le_moment_of_not_precedes h)

theorem instant_upTo (h : c.moment.instant ≤ r.finish.instant) :
    (r.upTo c).finish.instant = c.moment.instant := by
  unfold upTo
  split
  · next hc => exact r.stops.instant_eq hc
  · next hc =>
    exact Nat.le_antisymm
      (Moment.instant_le (Cut.le_moment_of_not_precedes hc)) h

end

/-- The run with its outcome replaced. -/
def withOutcome {α β : Type} (r : Run α) (o : Outcome β) : Run β :=
  { r with outcome := o }

/-- The run, as what is done inside a call, from the beginning to the
end. -/
def inside {α : Type} (self : Call) (r : Run α) : Run α where
  finish := r.finish
  outcome := r.outcome
  calls := { self with left := r.finish } :: r.calls
  cancels := r.cancels
  exceeds := r.exceeds
  stop c :=
    { r.stop c with calls := self.cutAt c.moment :: (r.stop c).calls }
  stops := r.stops.inside self

/-- A run that is over when something is due, and takes a course until it
has ended. Until then it can be cut, and afterwards it cannot. -/
def settled {α : Type} (k : Course) (o : Outcome α) (due : Moment)
    (stop : Cut → Course) (stops : Stops (k.endingAt due) stop)
    (hi : k.finish.instant = due.instant) : Run α where
  finish := k.finish
  outcome := o
  calls := k.calls
  cancels := k.cancels
  exceeds := k.exceeds
  stop c := if c.Precedes due then stop c else k
  stops := stops.settled hi

/-- The run, behind another one, at whose end it begins. -/
def after {α β : Type} (earlier : Run α) (r : Run β) : Run β where
  finish := r.finish
  outcome := r.outcome
  calls := earlier.calls ++ r.calls
  cancels := Moment.earliest? earlier.cancels r.cancels
  exceeds := earlier.exceeds || r.exceeds
  stop c :=
    if c.Precedes earlier.finish then earlier.stop c
    else earlier.whole.append (r.stop c)
  stops := earlier.stops.append r.stops

/-- The run, of a task that waits until a moment and does nothing
before. -/
def behind {α : Type} (start : Moment) (r : Run α) : Run α :=
  (now start (.returned ())).after r

/-- The run with its result replaced; a result that cannot be used is a
failure. -/
def mapResult {α β : Type} (f : α → Except Failure β) (r : Run α) : Run β :=
  r.withOutcome (r.outcome.bind f)

/-- A run that goes on with another one where the first has returned a
result. What follows knows when a cancellation was asked for: before
the first run, or in it. -/
def andThen {α β : Type} (r : Run α) (cancels : Option Moment)
    (next : α → Moment → Option Moment → Run β) : Run β :=
  match r.outcome with
  | .returned a =>
    r.after (next a r.finish (Moment.earliest? cancels r.cancels))
  | .failed f => r.withOutcome (.failed f)
  | .interrupted m => r.withOutcome (.interrupted m)

/-- The run with its failure replaced. -/
def mapFailure {α : Type} (f : Failure → Failure) (r : Run α) : Run α :=
  r.withOutcome (r.outcome.mapFailure f)

/-- The run, cut because the task it belongs to is stopped at an
instant, before anything that is due then. -/
def killedAt {α : Type} (instant : Option Nat) (r : Run α) : Run α :=
  match instant with
  | none => r
  | some t =>
    if h : r.finish.instant < t then r
    else
      have hc : Cut.Precedes ⟨⟨t, 0⟩, true⟩ r.finish := by
        simp only [Cut.Precedes, Moment.lt_def, Moment.ext_iff, true_and]
        omega
      settled (r.stop ⟨⟨t, 0⟩, true⟩) (.interrupted []) ⟨t, 0⟩ r.stop
        (r.stops.cut hc) (r.stops.instant_eq hc)

/-! ## Tasks that wait for a run

A run that may take some time only is done by a task of its own, and the
task it belongs to waits for that one. So it begins a step later, and is
heard of when it has ended a few steps later.
-/

/-- How many steps pass until a task goes on that waits for another one
to end. -/
def hearing : Nat := 2

/-- What is left of a run that is waited for until something is due, if the
task that waits is cut: the run is cut, too, and waited for once more. If it
has ended by then the task goes on with its end. -/
def relay {α : Type} (due : Moment) (r : Run α) (c : Cut) : Course :=
  let c := c.passed due
  if c.Precedes r.finish then
    (r.stop c).endingAt ((r.stop c).finish.skip hearing)
  else r.whole.endingAt c.moment

theorem calls_relay {α : Type} (due : Moment) (r : Run α) (c : Cut) :
    (r.relay due c).calls = (r.upTo (c.passed due)).calls := by
  unfold relay upTo
  dsimp only
  split <;> rfl

theorem cancels_relay {α : Type} (due : Moment) (r : Run α) (c : Cut) :
    (r.relay due c).cancels = (r.upTo (c.passed due)).cancels := by
  unfold relay upTo
  dsimp only
  split <;> rfl

theorem exceeds_relay {α : Type} (due : Moment) (r : Run α) (c : Cut) :
    (r.relay due c).exceeds = (r.upTo (c.passed due)).exceeds := by
  unfold relay upTo
  dsimp only
  split <;> rfl

/-- The ways to cut a task that waits for a run fit together, if what is
left of the run is a part of what is told of it. -/
theorem stops_relay {α : Type} {k : Course} {due : Moment} {r : Run α}
    (hk : ∀ c : Cut, c.Precedes due → (r.upTo (c.passed due)).Within k) :
    Stops (k.endingAt due) (r.relay due) where
  moment_le {c} hc := by
    have hle : c.moment ≤ (c.passed due).moment := Cut.le_arrival hc.moment_le
    unfold relay
    dsimp only
    split
    · next h =>
      exact Moment.le_trans hle
        (Moment.le_trans (r.stops.moment_le h) (Moment.le_skip _ _))
    · exact hle
  instant_eq {c} hc := by
    have hi : (c.passed due).moment.instant = c.moment.instant :=
      Cut.instant_arrival hc.moment_le
    unfold relay
    dsimp only
    split
    · next h => exact (r.stops.instant_eq h).trans hi
    · exact hi
  within {c} hc := by
    have h := hk c hc
    exact ⟨by rw [calls_relay]; exact h.calls,
      by rw [cancels_relay]; exact h.cancels,
      by rw [exceeds_relay]; exact h.exceeds⟩
  mono {c d} hcd hd := by
    have h := r.upTo_mono (Cut.passed_mono hcd due)
    exact ⟨by rw [calls_relay, calls_relay]; exact h.calls,
      by rw [cancels_relay, cancels_relay]; exact h.cancels,
      by rw [exceeds_relay, exceeds_relay]; exact h.exceeds⟩

theorem stops_heard {α : Type} (r : Run α) :
    Stops ⟨r.finish.skip hearing, r.calls, r.cancels, r.exceeds⟩
      (r.relay (r.finish.skip hearing)) :=
  stops_relay (k := r.whole) fun _ _ => r.within_upTo _

/-- The run, as the task does it that waits for it and hears of its end. -/
def heard {α : Type} (r : Run α) : Run α where
  finish := r.finish.skip hearing
  outcome := r.outcome
  calls := r.calls
  cancels := r.cancels
  exceeds := r.exceeds
  stop := r.relay (r.finish.skip hearing)
  stops := r.stops_heard

/-- The course of a run that is cut when its time is up, before anything
that is due then, and waited for until it has ended. -/
def overdueCourse {α : Type} (due : Moment) (r : Run α) : Course :=
  (r.upTo ⟨due, true⟩).endingAt
    ((r.upTo ⟨due, true⟩).finish.skip hearing)

theorem stops_overdue {α : Type} (due : Moment) (r : Run α) :
    Stops ((r.overdueCourse due).endingAt due) (r.relay due) :=
  stops_relay fun c _ =>
    have h : (r.upTo (c.passed due)).Within (r.upTo ⟨due, true⟩) :=
      r.upTo_mono (Cut.passed_le c rfl)
    h.endingAt

theorem instant_overdueCourse {α : Type} {due : Moment} {r : Run α}
    (h : due.instant ≤ r.finish.instant) :
    (r.overdueCourse due).finish.instant = due.instant :=
  instant_upTo (c := ⟨due, true⟩) h

/-- The run, as the task does it that waits for it until its time is up. -/
def overdue {α : Type} (due : Moment) (late : Outcome α) (r : Run α)
    (h : due.instant ≤ r.finish.instant) : Run α :=
  settled (r.overdueCourse due) late due (r.relay due) (r.stops_overdue due)
    (instant_overdueCourse h)

/-- The run, if it is done by a task of its own and waited for from a
moment on, but not longer than some time. What is told of it if it has not
ended by then is `late`. -/
def waitedFor {α : Type} (now : Moment) (time : Nat) (late : Outcome α)
    (r : Run α) : Run α :=
  if h : r.finish.instant < now.instant + time then
    (r.behind now.next).heard
  else
    (r.behind now.next).overdue (now.later time) late
      (Nat.le_trans (Nat.le_of_eq (now.instant_later time))
        (Nat.le_of_not_lt h))

end Run

end Shortcode
