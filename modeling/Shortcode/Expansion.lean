import Shortcode.Run.Group
import Shortcode.Segment.Parse
import Shortcode.Session

/-!
# Expansion

A text is expanded in two stages. First the handlers of all its
invocations run, as a group; then the text is put together again, from
left to right, with what the handlers produced in the place of each
invocation. Parts that ask for it are themselves expanded before they
are put in, one after the other, at the next depth.

A handler may also have a text expanded while it runs, likewise at the
next depth. Depth is bounded, so an expansion always ends:
`Session.expandFrom` goes down the levels that are left.

An expansion gives a text or a failure, never a part of a text.
-/

namespace Shortcode

namespace Session

/-- The failure of something that was cancelled. -/
def cancelledAt (offset : Int) : Failure :=
  .error { cause := .cancelled, offset := some offset }

/-- An invocation as a member of a group that was called at a moment: its
task begins in the step that follows, and waits for its start. In a group
with a limit, a member looks by itself whether the expansion was cancelled,
just before its handler is entered; in a group without one this is looked at
once, when the group is called. -/
def member (s : Session) (depth : Nat) (expander : Invocation → Expander)
    (called : Moment) (inv : Invocation) : Group.Member (List Fragment) :=
  fun start cancels =>
    .behind called.next <| .behind start <|
      if s.settings.maxConcurrency = 0 then
        s.invoke inv depth (expander inv) called start cancels
      else if Moment.reached cancels start then
        .now start (.failed (cancelledAt inv.offset))
      else s.invoke inv depth (expander inv) start start cancels

/-- The run of the handlers of several invocations, as one group. -/
def invokeAll (s : Session) (invs : List Invocation) (depth : Nat)
    (expander : Invocation → Expander) (now : Moment)
    (cancels : Option Moment) : Run (List (List Fragment)) :=
  match invs with
  | [] => .now now (.returned [])
  | first :: _ =>
    if Moment.reached cancels now then
      .now now (.failed (cancelledAt first.offset))
    else
      Group.Gathering.run
        ⟨s.settings.maxConcurrency, s.cancellable, now,
          cancelledAt first.offset, cancels,
          Group.members s.settings.maxConcurrency now.next cancels []
            (invs.map (s.member depth expander now))⟩

/-- A part of a text that is put together. -/
inductive Part where
  /-- A part that is ready; a handler may have produced nothing. -/
  | ready (t : Option Text)
  /-- A part that an invocation gave rise to and that is expanded. -/
  | pending (inv : Invocation) (t : Option Text)
deriving Inhabited

/-- The part a fragment of an invocation is. -/
def partOf (inv : Invocation) (f : Fragment) : Part :=
  if f.rescan then .pending inv f.text else .ready f.text

/-- The parts of a text: literal text, and in the place of each
invocation what its handler produced. -/
def parts : List Segment → List (List Fragment) → List Part
  | [], _ => []
  | .literal t _ :: rest, produced => .ready (some t) :: parts rest produced
  | .invocation inv :: rest, fs :: produced =>
    fs.map (partOf inv) ++ parts rest produced
  | .invocation _ :: rest, [] => parts rest []

/-- Texts in a row; the first of them that is missing is told by its
position. -/
def concat (ts : List (Option Text)) : Except Failure Text :=
  match ts.findIdx? Option.isNone with
  | none => .ok (ts.filterMap id).flatten
  | some i =>
    .error (.fault .type ("sequence item ".toList ++ Text.ofInt i ++
      ": expected str instance, NoneType found".toList))

/-- Put parts together, expanding those that are pending one after the
other. -/
def splice (expander : Invocation → Expander) :
    List Part → Moment → Option Moment → Run (List (Option Text))
  | [], now, _ => .now now (.returned [])
  | .ready t :: rest, now, cancels =>
    (splice expander rest now cancels).mapResult fun ts => .ok (t :: ts)
  | .pending inv t :: rest, now, cancels =>
    (expander inv t now cancels).andThen cancels fun t now cancels =>
      (splice expander rest now cancels).mapResult fun ts => .ok (some t :: ts)

/-- Expand the segments of a text: run the handlers of its invocations,
then put it together. `expander` expands what an invocation gives rise
to; a failure of an expansion that a handler asked for has escaped from
it. -/
def expandSegments (s : Session) (expander : Invocation → Expander)
    (depth : Nat) (segments : List Segment) (now : Moment)
    (cancels : Option Moment) : Run Text :=
  let nested (inv : Invocation) : Expander := fun text now cancels =>
    (expander inv text now cancels).mapFailure Failure.escape
  let group :=
    s.invokeAll (Segment.invocations segments) depth nested now cancels
  group.andThen cancels fun produced now cancels =>
    (splice expander (parts segments produced) now cancels).mapResult concat

/-- The failure of an expansion that was given no text. -/
def missingText : Failure :=
  .fault .type "argument of type 'NoneType' is not iterable".toList

/-- Expand a text that stands at a depth, while some levels of depth are
left. `trigger` names the shortcode that gave rise to the text, and
`origin` is the text's position in the document. -/
def expandFrom (s : Session) :
    Nat → Nat → Option Text → Int → Expander
  | levels, depth, trigger, origin, text, now, cancels =>
    if Moment.reached cancels now then
      .now now (.failed (cancelledAt origin))
    else
      match text with
      | none => .now now (.failed missingText)
      | some t =>
        if !Text.has s.settings.delimiters.opening t then
          .now now (.returned t)
        else
          match levels with
          | 0 =>
            .tooDeep now (.error
              ⟨.depthExceeded s.settings.maxDepth, trigger, some origin⟩)
          | levels + 1 =>
            match Segment.parse s.settings.delimiters t origin with
            | .error e => .now now (.failed (.error e))
            | .ok segments =>
              s.expandSegments
                (fun inv text =>
                  s.expandFrom levels (depth + 1) (some inv.name)
                    ((text.map inv.originOf).getD inv.offset) text)
                depth segments now cancels

section

-- what an expansion does when nobody has asked for its cancellation
variable {s : Session} {levels depth : Nat} {trigger : Option Text}
  {origin : Int} {t : Text} {now : Moment} {cancels : Option Moment}
  (hc : Moment.reached cancels now = false)
include hc

theorem expandFrom_none :
    s.expandFrom levels depth trigger origin none now cancels
      = .now now (.failed missingText) := by
  unfold expandFrom
  rw [hc]
  rfl

theorem expandFrom_plain
    (h : Text.has s.settings.delimiters.opening t = false) :
    s.expandFrom levels depth trigger origin (some t) now cancels
      = .now now (.returned t) := by
  unfold expandFrom
  dsimp only
  rw [hc, h]
  rfl

theorem expandFrom_zero
    (h : Text.has s.settings.delimiters.opening t = true) :
    s.expandFrom 0 depth trigger origin (some t) now cancels
      = .tooDeep now (.error
          ⟨.depthExceeded s.settings.maxDepth, trigger, some origin⟩) := by
  unfold expandFrom
  dsimp only
  rw [hc, h]
  rfl

theorem expandFrom_succ
    (h : Text.has s.settings.delimiters.opening t = true) :
    s.expandFrom (levels + 1) depth trigger origin (some t) now cancels
      = match Segment.parse s.settings.delimiters t origin with
        | .error e => .now now (.failed (.error e))
        | .ok segments =>
          s.expandSegments
            (fun inv text =>
              s.expandFrom levels (depth + 1) (some inv.name)
                ((text.map inv.originOf).getD inv.offset) text)
            depth segments now cancels := by
  rw [expandFrom, hc, h]
  rfl

end

/-- **Induction over expansions.** A property of expansions holds of all
of them if it holds where one ends at once, and holds of the expansion
of segments whenever it holds of what their invocations give rise to. -/
theorem expandFrom_induction (s : Session)
    {P : Nat → Nat → Option Text → Int → Option Text → Moment →
      Option Moment → Run Text → Prop}
    (cancelled : ∀ {levels depth trigger origin text now cancels},
      Moment.reached cancels now = true →
      P levels depth trigger origin text now cancels
        (.now now (.failed (cancelledAt origin))))
    (missing : ∀ {levels depth trigger origin now cancels},
      Moment.reached cancels now = false →
      P levels depth trigger origin none now cancels
        (.now now (.failed missingText)))
    (plain : ∀ {levels depth trigger origin t now cancels},
      Moment.reached cancels now = false →
      Text.has s.settings.delimiters.opening t = false →
      P levels depth trigger origin (some t) now cancels
        (.now now (.returned t)))
    (deep : ∀ {depth trigger origin t now cancels},
      Moment.reached cancels now = false →
      Text.has s.settings.delimiters.opening t = true →
      P 0 depth trigger origin (some t) now cancels
        (.tooDeep now (.error
          ⟨.depthExceeded s.settings.maxDepth, trigger, some origin⟩)))
    (malformed : ∀ {levels depth trigger origin t now cancels e},
      Moment.reached cancels now = false →
      Text.has s.settings.delimiters.opening t = true →
      Segment.parse s.settings.delimiters t origin = .error e →
      P (levels + 1) depth trigger origin (some t) now cancels
        (.now now (.failed (.error e))))
    (segments : ∀ {levels depth trigger origin t now cancels segments},
      Moment.reached cancels now = false →
      Text.has s.settings.delimiters.opening t = true →
      Segment.parse s.settings.delimiters t origin = .ok segments →
      (∀ (inv : Invocation) (text : Option Text) now cancels,
        P levels (depth + 1) (some inv.name)
          ((text.map inv.originOf).getD inv.offset) text now cancels
          (s.expandFrom levels (depth + 1) (some inv.name)
            ((text.map inv.originOf).getD inv.offset) text now cancels)) →
      P (levels + 1) depth trigger origin (some t) now cancels
        (s.expandSegments
          (fun inv text =>
            s.expandFrom levels (depth + 1) (some inv.name)
              ((text.map inv.originOf).getD inv.offset) text)
          depth segments now cancels))
    (levels depth : Nat) (trigger : Option Text) (origin : Int)
    (text : Option Text) (now : Moment) (cancels : Option Moment) :
    P levels depth trigger origin text now cancels
      (s.expandFrom levels depth trigger origin text now cancels) := by
  induction levels generalizing depth trigger origin text now cancels with
  | zero =>
    unfold expandFrom
    split
    · next h => exact cancelled h
    · next h =>
      have hc : Moment.reached cancels now = false := by simpa using h
      cases text with
      | none => exact missing hc
      | some t =>
        dsimp only
        split
        · next ht => exact plain hc (by simpa using ht)
        · next ht => exact deep hc (by simpa using ht)
  | succ levels ih =>
    unfold expandFrom
    split
    · next h => exact cancelled h
    · next h =>
      have hc : Moment.reached cancels now = false := by simpa using h
      cases text with
      | none => exact missing hc
      | some t =>
        dsimp only
        split
        · next ht => exact plain hc (by simpa using ht)
        · next ht =>
          have ht : Text.has s.settings.delimiters.opening t = true := by
            simpa using ht
          split
          · next hp => exact malformed hc ht hp
          · next hp =>
            exact segments hc ht hp fun inv text now cancels => ih _ _ _ _ _ _

/-- Expand a text as the content of a document. The cancellation may
have been asked for at some moment. An empty text stays empty, whatever
was asked for. -/
def expand (s : Session) (text : Text) (now : Moment)
    (cancels : Option Moment) : Run Text :=
  if text.isEmpty then .now now (.returned text)
  else s.expandFrom (s.settings.maxDepth + 1) 0 none 0 (some text) now cancels

/-- Run the handlers of invocations one after the other, outside any
expansion: a failure of one does not keep the others from running. -/
def invokeEach (s : Session) (depth : Nat) (expander : Expander) :
    List Invocation → Moment → Option Moment →
      Run (List (Outcome (List Fragment)))
  | [], now, _ => .now now (.returned [])
  | inv :: rest, now, cancels =>
    let r := s.invoke inv depth expander now now cancels
    r.after ((s.invokeEach depth expander rest r.finish
      (Moment.earliest? cancels r.cancels)).mapResult fun os =>
        .ok (r.outcome :: os))

/-- What a handler's request to have a text expanded meets outside an
expansion. -/
def unbound : Expander := fun _ now _ =>
  .now now (.failed (.fault .runtime
    "context is not bound to an engine".toList))

end Session

/-! ## Sessions that run the same -/

namespace Session.RunsLike

variable {s₁ s₂ : Session}

end Session.RunsLike

end Shortcode
