import Shortcode.Proofs.Agreement

/-!
# Whose failure it is

A handler can fail with something of its own, or pass on what came out of
an expansion it had asked for. Only the first is its failure, and only the
first is reported as such: with the name and the place of the invocation,
and with what the handler failed with as the reason.

What a handler does before it fails is a path through its program,
`Program.Raises`. The path tells the failures that came out of expansions
on the way, whether the handler went on after them or not. All of them are
marked, so a failure without a mark is none of them; whoever raises it,
and at whatever point, it is the handler's own
(`Session.invoke_of_raises`).

There is one exception. A handler can say that the expansion was
cancelled, by failing with what a cancelled expansion fails with. This is
not reported as its failure, also if nobody has cancelled anything
(`Session.exists_raised_unreported`).
-/

namespace Shortcode

/-! ## Paths to a failure -/

/-- **A program raises a failure**, when it is run from a moment on with
an expander: it comes to the failure at some later moment, after certain
failures came out of the expansions it asked for. -/
inductive Program.Raises (cancellable : Bool) (e : Expander) :
    Program → Moment → Option Moment → List Failure → Moment → Failure → Prop
  | fail {f : Failure} {now : Moment} {known : Option Moment} :
      Raises cancellable e (.fail f) now known [] now f
  | sleep {time : Nat} {next : Program} {now stop : Moment}
      {known : Option Moment} {seen : List Failure} {f : Failure} :
      Raises cancellable e next (now.later time) known seen stop f →
      Raises cancellable e (.sleep time next) now known seen stop f
  | returned {text : Option Text} {next : Except Failure Text → Program}
      {now stop : Moment} {known : Option Moment} {seen : List Failure}
      {f : Failure} {t : Text} :
      (e text now known).outcome = .returned t →
      Raises cancellable e (next (.ok t)) (e text now known).finish
        (Moment.earliest? known (e text now known).cancels) seen stop f →
      Raises cancellable e (.expand text next) now known seen stop f
  | failed {text : Option Text} {next : Except Failure Text → Program}
      {now stop : Moment} {known : Option Moment} {seen : List Failure}
      {f g : Failure} :
      (e text now known).outcome = .failed g →
      Raises cancellable e (next (.error g)) (e text now known).finish
        (Moment.earliest? known (e text now known).cancels) seen stop f →
      Raises cancellable e (.expand text next) now known (g :: seen) stop f
  | cancel {next : Program} {now stop : Moment} {known : Option Moment}
      {seen : List Failure} {f : Failure} :
      Raises cancellable e next now
        (if cancellable then Moment.earliest? known (some now) else known)
        seen stop f →
      Raises cancellable e (.cancel next) now known seen stop f
  | askCancelled {next : Bool → Program} {now stop : Moment}
      {known : Option Moment} {seen : List Failure} {f : Failure} :
      Raises cancellable e (next (Moment.reached known now)) now known seen
        stop f →
      Raises cancellable e (.askCancelled next) now known seen stop f

variable {cancellable : Bool} {e : Expander} {p : Program}
  {now stop : Moment} {known : Option Moment} {seen : List Failure}
  {f : Failure}

/-- A program that raises a failure ends with it, then. -/
theorem Program.Raises.run (h : p.Raises cancellable e now known seen stop f) :
    (p.run cancellable e now known).outcome = .failed f
      ∧ (p.run cancellable e now known).finish = stop := by
  induction h with
  | fail => exact ⟨rfl, rfl⟩
  | sleep _ ih => exact ih
  | returned ho _ ih =>
    rw [Program.run, ho]
    exact ih
  | failed ho _ ih =>
    rw [Program.run, ho]
    exact ih
  | cancel _ ih =>
    rw [Program.run]
    split
    · next hc =>
      rw [if_pos hc] at ih
      exact ih
    · next hc =>
      rw [if_neg hc] at ih
      exact ih
  | askCancelled _ ih => exact ih

/-- A program that ends with a failure has raised it. -/
theorem Program.exists_raises
    (h : (p.run cancellable e now known).outcome = .failed f) :
    ∃ seen, p.Raises cancellable e now known seen
      (p.run cancellable e now known).finish f := by
  induction p generalizing now known with
  | finish | interrupt => simp [run, Run.now] at h
  | fail g =>
    obtain rfl : g = f := by simpa [run, Run.now] using h
    exact ⟨[], .fail⟩
  | sleep time next ih =>
    obtain ⟨seen, hn⟩ := ih h
    exact ⟨seen, .sleep hn⟩
  | askCancelled next ih =>
    obtain ⟨seen, hn⟩ := ih _ h
    exact ⟨seen, .askCancelled hn⟩
  | cancel next ih =>
    rw [run] at h ⊢
    cases cancellable with
    | true =>
      have hnext : (next.run true e now
          (Moment.earliest? known (some now))).outcome = .failed f := h
      obtain ⟨seen, hn⟩ := ih hnext
      exact ⟨seen, .cancel hn⟩
    | false =>
      have hnext : (next.run false e now known).outcome = .failed f := h
      obtain ⟨seen, hn⟩ := ih hnext
      exact ⟨seen, .cancel hn⟩
  | expand text next ih =>
    rw [run] at h ⊢
    cases ho : (e text now known).outcome with
    | returned t =>
      rw [ho] at h
      obtain ⟨seen, hn⟩ := ih _ h
      exact ⟨seen, .returned ho hn⟩
    | failed g =>
      rw [ho] at h
      obtain ⟨seen, hn⟩ := ih _ h
      exact ⟨g :: seen, .failed ho hn⟩
    | interrupted m =>
      rw [ho] at h
      simp [Run.withOutcome] at h

/-! ## Marks -/

/-- An expander that marks failures: an error that comes out of it is
known to have come out of an expansion. -/
def Expander.Marking (e : Expander) : Prop :=
  ∀ text now known f, (e text now known).outcome = .failed f →
    f.isError = true → f.hasEscaped = true

/-- **What handlers have their texts expanded by marks failures.** -/
theorem Session.marking_escaping (e : Expander) : (escaping e).Marking := by
  intro text now known f h hf
  obtain ⟨g, -, rfl⟩ := Outcome.mapFailure_eq_failed_iff.mp h
  cases g with
  | error | handlerFailed => rfl
  | fault => simp [Failure.escape, Failure.isError, Failure.kind?] at hf

/-- All errors that came out of expansions on a path are marked. -/
theorem Program.Raises.marked (h : p.Raises cancellable e now known seen stop f)
    (he : e.Marking) : ∀ g ∈ seen, g.isError = true → g.hasEscaped = true := by
  induction h with
  | fail => exact List.forall_mem_nil _
  | sleep _ ih | returned _ _ ih | cancel _ ih | askCancelled _ ih => exact ih
  | failed ho _ ih => exact List.forall_mem_cons.mpr ⟨he _ _ _ _ ho, ih⟩

/-! ## Reports -/

namespace Session

variable {s : Session} {inv : Invocation} {h : Handler} {depth : Nat}
  {cleared : Moment}

/-- How a handler's call ends that raises a failure before its time is up:
at that instant, with what the failure is reported as. -/
theorem invoke_raises (hr : s.registry.resolve? inv.name = some h)
    (hf : (h.program ⟨inv, depth, s.settings, s.metadata⟩).Raises
      s.cancellable e (s.entry h now) known seen stop f)
    (ht : ∀ limit, s.limit? h = some limit →
      stop.instant < now.instant + limit) :
    stop ≤ (s.invoke inv depth e cleared now known).finish
      ∧ (s.invoke inv depth e cleared now known).finish.instant = stop.instant
      ∧ (s.invoke inv depth e cleared now known).outcome
          = .failed (report inv f) := by
  obtain ⟨ho, hs⟩ := hf.run
  have henter : (s.enter h inv depth e cleared now (s.entry h now)
        known).finish = stop
      ∧ (s.enter h inv depth e cleared now (s.entry h now) known).outcome
        = .failed (report inv f) := by
    refine ⟨hs, ?_⟩
    show ((Program.run _ _ _ _ _).outcome.bind _).mapFailure _ = _
    rw [ho]
    rfl
  unfold invoke
  rw [hr]
  dsimp only
  cases hlimit : s.limit? h with
  | none =>
    rw [entry_of_none hlimit] at henter
    rw [call_of_none hlimit]
    exact ⟨henter.1 ▸ Moment.le_refl _, congrArg Moment.instant henter.1,
      henter.2⟩
  | some limit =>
    rw [entry_of_some hlimit] at henter
    rw [call_of_some hlimit]
    -- the time limit does not come in
    unfold Run.waitedFor
    rw [dif_pos (by rw [henter.1]; exact ht limit hlimit)]
    have hinstant := congrArg Moment.instant henter.1
    refine ⟨?_, hinstant, henter.2⟩
    rw [← henter.1]
    exact Moment.le_skip _ _

/-- **A handler's own failure is reported as its failure.** Let the handler
of an invocation raise a failure, at any point and before its time is up,
that is not marked as having come out of an expansion. It is then none of
the errors that came out of the expansions the handler had asked for. The
call ends at that instant and without a fragment. If the failure says that
the expansion was cancelled, the call fails with it; whatever else it is,
the call fails with the report that this handler failed, of the
invocation's name and place, for that reason. -/
theorem invoke_of_raises (hr : s.registry.resolve? inv.name = some h)
    (he : e.Marking)
    (hf : (h.program ⟨inv, depth, s.settings, s.metadata⟩).Raises
      s.cancellable e (s.entry h now) known seen stop f)
    (ht : ∀ limit, s.limit? h = some limit →
      stop.instant < now.instant + limit)
    (hown : f.hasEscaped = false) :
    let r := s.invoke inv depth e cleared now known
    (f.isError = true → f ∉ seen)
      ∧ r.finish.instant = stop.instant
      ∧ (f.isCancellation = false →
          r.outcome = .failed (.handlerFailed inv.name inv.offset f))
      ∧ (f.isCancellation = true → r.outcome = .failed f) := by
  intro r
  obtain ⟨-, hstop, ho⟩ : stop ≤ r.finish
      ∧ r.finish.instant = stop.instant
      ∧ r.outcome = .failed (report inv f) := invoke_raises hr hf ht
  refine ⟨fun herr hmem => ?_, hstop, fun hc => ?_, fun hc => ?_⟩
  · have hmark := hf.marked he f hmem herr
    rw [hown] at hmark
    exact Bool.false_ne_true hmark
  · rw [ho]
    simp [report, hown, hc]
  · rw [ho]
    simp [report, hc]

/-- A session with a handler that has a text expanded that nobody knows a
shortcode of, goes on after that, and then refuses its arguments, and with
one that says it was cancelled. -/
def touchy : Session where
  settings := {}
  registry :=
    { bindings :=
        [("picky".toList,
          { shown := "picky".toList
            concurrent := true
            program _ := .expand (some "<%nobody/%>".toList) fun _ =>
              .fail (.error
                { cause := .stated .malformedArgument "no level".toList
                    none }) }),
          ("quitter".toList,
          { shown := "quitter".toList
            concurrent := false
            program _ := .fail (.error
              { cause := .stated .expansionCancelled "enough".toList
                  none }) })] }

/-- Where `touchy` has the texts of its handlers expanded. -/
def touchyExpander : Expander :=
  escaping (touchy.expandFrom 20 1 none 0)

/-- A handler that goes on after a failure of an expansion, and fails with
an error of its own. -/
theorem invoke_of_raises_touchy :
    let inv : Invocation := ⟨"picky".toList, [], none, 3, 12, 0⟩
    let own : Failure := .error
      { cause := .stated .malformedArgument "no level".toList none }
    let r := touchy.invoke inv 0 touchyExpander ⟨0, 2⟩ ⟨0, 2⟩ none
    (∃ g stop, Program.Raises false touchyExpander
        (.expand (some "<%nobody/%>".toList) fun _ => .fail own) ⟨0, 2⟩ none
        [g] stop own ∧ g.isError = true ∧ r.finish.instant = stop.instant)
      ∧ own.hasEscaped = false
      ∧ r.outcome = .failed (.handlerFailed "picky".toList 3 own) := by
  intro inv own r
  have hfailed : ((touchyExpander (some "<%nobody/%>".toList) ⟨0, 2⟩
      none).outcome.failure?.map Failure.isError) = some true := by
    decide +kernel
  obtain ⟨g, hg, herr⟩ := Option.map_eq_some_iff.mp hfailed
  have hraises : Program.Raises false touchyExpander
      (.expand (some "<%nobody/%>".toList) fun _ => .fail own) ⟨0, 2⟩ none
      [g] (touchyExpander (some "<%nobody/%>".toList) ⟨0, 2⟩ none).finish
      own :=
    .failed (Outcome.failure?_eq_some_iff.mp hg) .fail
  obtain ⟨-, hstop, hreport, -⟩ : (own.isError = true → own ∉ [g])
      ∧ r.finish.instant
          = (touchyExpander (some "<%nobody/%>".toList) ⟨0, 2⟩
              none).finish.instant
      ∧ (own.isCancellation = false →
          r.outcome = .failed (.handlerFailed inv.name inv.offset own))
      ∧ (own.isCancellation = true → r.outcome = .failed own) :=
    invoke_of_raises (s := touchy) rfl (marking_escaping _) hraises
      (fun _ h => by cases h) rfl
  exact ⟨⟨g, _, hraises, herr, hstop⟩, rfl, hreport rfl⟩

/-- **A handler can fail and not be reported**: if it says that the
expansion was cancelled. Nobody has cancelled this one. -/
theorem exists_raised_unreported :
    let inv : Invocation := ⟨"quitter".toList, [], none, 3, 14, 0⟩
    let own : Failure := .error
      { cause := .stated .expansionCancelled "enough".toList none }
    let r := touchy.invoke inv 0 touchyExpander ⟨0, 2⟩ ⟨0, 2⟩ none
    Program.Raises false touchyExpander (.fail own) ⟨0, 2⟩ none [] ⟨0, 2⟩ own
      ∧ own.hasEscaped = false
      ∧ r.outcome = .failed own
      ∧ own.kind? = some .expansionCancelled := by
  intro inv own r
  exact ⟨.fail, rfl, rfl, rfl⟩

end Session

end Shortcode
