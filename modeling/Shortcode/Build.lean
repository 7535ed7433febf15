import Shortcode.Expansion

/-!
# Builds

A build expands documents side by side, as far as the limit for
documents lets it, and reports what became of each: its text, the error
it failed with, or that it was cancelled. What a failing document means
for the others is the build's policy: they are cancelled and the build
fails with that error, or the document is left out. A build that stops at
failures looks at all documents whenever one has ended, and the first in
input order that it then finds failed is the one that counts. A document
that fails at the same instant, and only after that look, does not.

A document that fails with anything but an error of the family fails the
build under either policy, after all documents have ended.

Several builds can be run on the same pipeline, one after the other or
overlapping. Cancelling the pipeline cancels the builds that are running
at that moment and no others.
-/

namespace Shortcode

/-- What became of the documents of a build. A source that was given
several times keeps its first place among the rendered ones, and its
last text. -/
structure Report where
  rendered : List (Text × Text) := []
  failures : List (Text × Failure) := []
  cancelled : List Text := []
deriving Inhabited

namespace Report

/-- Every document was rendered. -/
def ok (r : Report) : Bool :=
  r.failures.isEmpty && r.cancelled.isEmpty

/-- Add a rendered text. -/
def render (r : Report) (source text : Text) : Report :=
  if r.rendered.any fun e => e.1 = source then
    { r with rendered :=
        r.rendered.map fun e => if e.1 = source then (source, text) else e }
  else { r with rendered := r.rendered ++ [(source, text)] }

/-- Add what became of one document; an outcome that is none of a
document ends the report. -/
def add (r : Report) (d : Document) : Outcome Text → Outcome Report
  | .returned text => .returned (r.render d.source text)
  | .interrupted m => .interrupted m
  | .failed f =>
    if f.isCancellation then
      .returned { r with cancelled := r.cancelled ++ [d.source] }
    else if f.isError then
      .returned { r with failures := r.failures ++ [(d.source, f)] }
    else .failed f

/-- The report on documents with these outcomes, from left to right. -/
def addAll (r : Report) : List (Document × Outcome Text) → Outcome Report
  | [] => .returned r
  | (d, o) :: rest =>
    match r.add d o with
    | .returned r => r.addAll rest
    | .failed f => .failed f
    | .interrupted m => .interrupted m

end Report

/-- What builds are made with: an engine, and the settings of the
build. -/
structure Pipeline where
  /-- The settings of the expansions. -/
  engine : Settings
  registry : Registry
  /-- The settings of the builds: their limit and their policy. -/
  settings : Settings
deriving Inhabited

namespace Pipeline

/-- A document as a member of the group of a build's documents. -/
def member (p : Pipeline) (d : Document) : Group.Member Text :=
  fun start cancels =>
    .behind start
      (Session.expand ⟨p.engine, p.registry, d.metadata, true⟩ d.content start
        cancels)

/-- The runs of the documents of a build, given when its cancellation is
asked for. -/
def documentRuns (p : Pipeline) (first : Moment) (cancels : Option Moment)
    (docs : List Document) : List (Run Text) :=
  Group.members p.settings.maxParallelDocuments first cancels []
    (docs.map p.member)

/-- The runs of the documents of a build. Where a handler asks for the
cancellation of the build, the documents before its own learn of it one
step later. -/
def settledRuns (p : Pipeline) (first : Moment) (cancels : Option Moment)
    (docs : List Document) : List (Run Text) :=
  let runs := p.documentRuns first cancels docs
  match Group.cancellation? none runs with
  | none => runs
  | some m =>
    p.documentRuns first (Moment.earliest? cancels (some m.next)) docs

/-- The failure of a run that makes a build stop. -/
def stopping? (r : Run Text) : Option Failure :=
  match r.outcome with
  | .failed f => if f.isError && !f.isCancellation then some f else none
  | _ => none

/-- The failure that a build stops with when it looks at its documents:
that of the first one, in order, that has failed by then. -/
def seen? (xs : List (Group.Placed Text)) (look : Group.Point) :
    Option Failure :=
  Group.found? stopping? xs look

/-- The documents of a build that began at a moment, in their places. -/
def placed (p : Pipeline) (now : Moment) (runs : List (Run Text)) :
    List (Group.Placed Text) :=
  Group.placed p.settings.maxParallelDocuments now.next [] runs

/-- When a build on documents with these runs stops, and the failure it
stops with. It looks at them soon after one has ended that it did not find
so before, and stops at the first look that shows a failure. -/
def stop? (p : Pipeline) (now : Moment) (runs : List (Run Text)) :
    Option (Moment × Failure) :=
  match p.settings.onError with
  | .abort =>
    let xs := p.placed now runs
    let (look, found) := Group.watch (seen? xs) ⟨now, 0⟩
      (Group.earliestFirst (xs.map Group.Placed.finish))
    found.map fun f => (look.moment, f)
  | .skip => none

/-- What becomes of a build whose documents, which run like this, are cut:
those that are still expanded look whether they were cancelled, if that was
asked for. A build tells nobody of a request. -/
def leave (runs : List (Run Text)) (request : Option Moment) (closed : Moment)
    (c : Cut) : Course :=
  { Group.gathered closed false request (runs.map (Run.upTo c)) with
    cancels := none }

section

variable {runs : List (Run Text)} {request : Option Moment}
  {closed closed' : Moment} {c d : Cut}

theorem le_leave : closed ≤ (leave runs request closed c).finish :=
  Group.le_gathered closed false request _

theorem instant_leave (h : c.moment.instant ≤ closed.instant) :
    (leave runs request closed c).finish.instant = closed.instant := by
  show (Group.gathered closed false request _).finish.instant = closed.instant
  exact Group.instant_gathered (List.forall_mem_map.mpr fun r _ =>
    Nat.le_trans (r.instant_upTo_le c) h)

theorem within_leave (h : c ≤ d) :
    (leave runs request closed c).Within (leave runs request closed' d) :=
  have hg : (Group.gathered closed false request (runs.map (Run.upTo c))).Within
      (Group.gathered closed' false request (runs.map (Run.upTo d))) :=
    Group.within_gathered fun r _ => r.upTo_mono h
  ⟨hg.calls, fun _ h => h, hg.exceeds⟩

end

/-- The moment at which the documents of a build are cut that has found a
failure at a look: they take notice a little later. -/
def noticed (look : Moment) : Cut :=
  ⟨look.skip Group.noticing, false⟩

/-- What becomes of a build that stops at a look. It cancels the documents,
whose groups take notice of it as of any request. -/
def stoppedCourse (runs : List (Run Text)) (look : Moment) : Course :=
  leave runs (some look) (noticed look).moment (noticed look)

theorem le_noticed {look : Moment} {c : Cut} (h : c.Precedes look) :
    c ≤ noticed look := by
  have := h.moment_le
  refine .inl ?_
  simp only [noticed, Moment.lt_def, Moment.le_def, Moment.skip,
    Group.noticing] at *
  omega

theorem stops_stopped (runs : List (Run Text)) (look : Moment) :
    Stops ((stoppedCourse runs look).endingAt look)
      fun c => leave runs (some look) c.moment c where
  moment_le _ := le_leave
  instant_eq _ := instant_leave (Nat.le_refl _)
  within hc :=
    have h : (leave runs (some look) _ _).Within (stoppedCourse runs look) :=
      within_leave (le_noticed hc)
    h.endingAt
  mono hcd _ := within_leave hcd

theorem instant_stoppedCourse (runs : List (Run Text)) (look : Moment) :
    (stoppedCourse runs look).finish.instant = look.instant := by
  unfold stoppedCourse
  rw [instant_leave (Nat.le_refl _)]
  rfl

/-- The build of documents that run like this, when it stops at a look. -/
def stoppedRun (runs : List (Run Text)) (look : Moment) (f : Failure) :
    Run Report :=
  .settled (stoppedCourse runs look) (.failed f) look
    (fun c => leave runs (some look) c.moment c) (stops_stopped runs look)
    (instant_stoppedCourse runs look)

theorem stops_complete (now : Moment) (runs : List (Run Text)) :
    Stops ⟨Group.latest now (runs.map Run.finish), runs.flatMap Run.calls,
        none, runs.any Run.exceeds⟩
      fun c => leave runs none c.moment c where
  moment_le _ := le_leave
  instant_eq _ := instant_leave (Nat.le_refl _)
  within {c} _ := by
    have hw : (Group.gathered c.moment false none
          (runs.map (Run.upTo c))).Within
        (Group.gathered c.moment false none (runs.map Run.whole)) :=
      Group.within_gathered fun r _ => r.within_upTo c
    have hcalls := hw.calls
    rw [Group.calls_gathered_none _ _ (runs.map Run.whole),
      List.flatMap_map] at hcalls
    have hexceeds := hw.exceeds
    unfold Group.gathered at hexceeds
    dsimp only at hexceeds
    rw [List.any_map (l := runs) (f := Run.whole)] at hexceeds
    exact ⟨hcalls, fun _ h => h, hexceeds⟩
  mono hcd _ := within_leave hcd

/-- The build of documents that run like this, when nothing stops it. -/
def completeRun (now : Moment) (docs : List Document)
    (runs : List (Run Text)) : Run Report where
  finish := Group.latest now (runs.map Run.finish)
  outcome := Report.addAll {} (docs.zip (runs.map Run.outcome))
  calls := runs.flatMap Run.calls
  exceeds := runs.any Run.exceeds
  stop c := leave runs none c.moment c
  stops := stops_complete now runs

/-- The build of some documents. -/
def build (p : Pipeline) (docs : List Document) (now : Moment)
    (cancels : Option Moment) : Run Report :=
  let runs := p.settledRuns now.next cancels docs
  match p.stop? now runs with
  | some (look, f) => stoppedRun runs look f
  | none => completeRun now docs runs

/-- One build on a pipeline: its documents, how long it waits before it
begins, and when its task is stopped. -/
structure Job where
  documents : List Document
  delay : Nat := 0
  killAt : Option Nat := none
deriving Inhabited

/-- When a build that begins at an instant is cancelled, of the instants
at which the pipeline is. -/
def cancelledAt (times : List Nat) (start : Nat) : Option Moment :=
  ((times.filter fun t => start < t).min?).map fun t => ⟨t, 0⟩

/-- One build on a pipeline, requested at an instant. Its task cannot be
stopped before that. -/
def runJob (p : Pipeline) (times : List Nat) (j : Job) (requested : Nat) :
    Run Report :=
  let start := requested + j.delay
  (p.build j.documents ⟨start, 0⟩ (cancelledAt times start)).killedAt
    (j.killAt.map (requested.max ·))

/-- Builds that follow one another. -/
def runInTurn (p : Pipeline) (times : List Nat) :
    List Job → Nat → List (Run Report)
  | [], _ => []
  | j :: rest, requested =>
    let r := p.runJob times j requested
    r :: p.runInTurn times rest r.finish.instant

/-- Builds that are requested at once. -/
def runTogether (p : Pipeline) (times : List Nat) (jobs : List Job) :
    List (Run Report) :=
  jobs.map fun j => p.runJob times j 0

end Pipeline

end Shortcode
