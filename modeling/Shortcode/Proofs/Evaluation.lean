import Mathlib
import Shortcode.Expansion

/-!
# What an expansion means

An expansion runs handlers side by side, under a limit, each at its own
moment. What it gives should not depend on any of this, and here is what
it should give: an evaluation that runs one handler behind the other, in
order, and knows neither moments nor limits. It reports the failure of
the invocation that starts first, not of the one that fails first, and
keeps each invocation together with what its handler produced.

Next to the outcome an evaluation tells how long the handlers sleep, all
of them together. No expansion takes longer, and where they do not sleep
at all the failure is the same as well; both is proved where runs are
compared with evaluations.

An evaluation needs little of a session (`Behaviour`): the delimiters,
the greatest depth, and what handlers do.
-/

namespace Shortcode

/-! ## Evaluations -/

/-- **What an evaluation gives**: an outcome, and for how long handlers
sleep on the way. -/
structure Evaluated (α : Type) where
  outcome : Outcome α
  time : Nat
deriving Inhabited

namespace Evaluated

variable {α β : Type}

/-- An outcome that takes no time. -/
def of (o : Outcome α) : Evaluated α := ⟨o, 0⟩

/-- The evaluation, some time later. -/
def delayed (time : Nat) (e : Evaluated α) : Evaluated α :=
  ⟨e.outcome, time + e.time⟩

/-- The evaluation with its result replaced; a result that cannot be used
is a failure. -/
def mapResult (f : α → Except Failure β) (e : Evaluated α) : Evaluated β :=
  ⟨e.outcome.bind f, e.time⟩

/-- The evaluation with its failure replaced. -/
def mapFailure (f : Failure → Failure) (e : Evaluated α) : Evaluated α :=
  ⟨e.outcome.mapFailure f, e.time⟩

/-- An evaluation that goes on with another one, which is told the result
or the failure of the first. -/
def continueWith (e : Evaluated α) (next : Except Failure α → Evaluated β) :
    Evaluated β :=
  match e.outcome with
  | .returned a => (next (.ok a)).delayed e.time
  | .failed f => (next (.error f)).delayed e.time
  | .interrupted m => ⟨.interrupted m, e.time⟩

/-- An evaluation that goes on with another one where the first has given
a result. -/
def andThen (e : Evaluated α) (next : α → Evaluated β) : Evaluated β :=
  e.continueWith fun
    | .ok a => next a
    | .error f => of (.failed f)

theorem outcome_mapResult (f : α → Except Failure β) (e : Evaluated α) :
    (e.mapResult f).outcome = e.outcome.bind f := rfl

theorem andThen_of_returned (a : α) (next : α → Evaluated β) :
    (of (.returned a)).andThen next = next a := by
  show Evaluated.mk (next a).outcome (0 + (next a).time) = next a
  rw [Nat.zero_add]

/-- The evaluation without its time. -/
def timeless (e : Evaluated α) : Evaluated α := of e.outcome

end Evaluated

/-! ## Programs and invocations -/

/-- What a program returns, when its requests to have a text expanded are
answered by evaluations and the expansion is not cancelled. -/
def Program.answer (expand : Option Text → Evaluated Text) :
    Program → Evaluated Output
  | .finish output => .of (.returned output)
  | .fail failure => .of (.failed failure)
  | .interrupt message => .of (.interrupted message)
  | .sleep time next => (next.answer expand).delayed time
  | .expand text next =>
    (expand text).continueWith fun answer => (next answer).answer expand
  | .cancel next => next.answer expand
  | .askCancelled next => (next false).answer expand

/-- **What of a session decides what texts give**: how texts are read,
how deep they are expanded, and what the handler of an invocation does,
if there is one. -/
structure Behaviour where
  delimiters : Delimiters
  maxDepth : Nat
  program? : Invocation → Nat → Option Program

/-- The behaviour of a session. -/
def Session.behaviour (s : Session) : Behaviour where
  delimiters := s.settings.delimiters
  maxDepth := s.settings.maxDepth
  program? inv depth :=
    (s.registry.resolve? inv.name).map fun h =>
      h.program ⟨inv, depth, s.settings, s.metadata⟩

/-- Settings that texts are read with alike, and that no handler sees the
difference of, leave the behaviour as it is. -/
theorem Session.behaviour_of_settings (s : Session) {settings : Settings}
    (hd : settings.delimiters = s.settings.delimiters)
    (hm : settings.maxDepth = s.settings.maxDepth)
    (hp : ∀ (inv : Invocation) h,
      s.registry.resolve? inv.name = some h → ∀ depth,
        h.program ⟨inv, depth, settings, s.metadata⟩
          = h.program ⟨inv, depth, s.settings, s.metadata⟩) :
    { s with settings := settings }.behaviour = s.behaviour := by
  unfold behaviour
  rw [hd, hm]
  refine congrArg (Behaviour.mk _ _) (funext fun inv => funext fun depth => ?_)
  cases hr : s.registry.resolve? inv.name with
  | none => rfl
  | some h => exact congrArg some (hp inv h hr depth)

/-- Of invocations that failed, the one that starts first. -/
def earliest? : List (Invocation × Failure) → Option (Invocation × Failure)
  | [] => none
  | a :: rest =>
    match earliest? rest with
    | none => some a
    | some b => some (if b.1.start < a.1.start then b else a)

namespace Behaviour

/-- **What an invocation gives**: the fragments that its handler produces,
or the failure it is reported with. -/
def execute (b : Behaviour) (depth : Nat)
    (expand : Invocation → Option Text → Evaluated Text)
    (inv : Invocation) : Evaluated (List Fragment) :=
  match b.program? inv depth with
  | none =>
    .of (.failed (.error ⟨.unknownShortcode, some inv.name, some inv.offset⟩))
  | some p =>
    ((p.answer fun text =>
      (expand inv text).mapFailure Failure.escape).mapResult
        Output.fragments).mapFailure (Session.report inv)

/-- The texts of fragments in front of others, where the fragments that
ask for it are evaluated. -/
def fragmentTexts (expand : Option Text → Evaluated Text)
    (others : Evaluated (List (Option Text))) :
    List Fragment → Evaluated (List (Option Text))
  | [] => others
  | f :: rest =>
    if f.rescan then
      (expand f.text).andThen fun t =>
        (fragmentTexts expand others rest).mapResult fun ts =>
          .ok (some t :: ts)
    else
      (fragmentTexts expand others rest).mapResult fun ts => .ok (f.text :: ts)

/-- The texts of segments, from left to right: literal text, and what
each invocation produced. -/
def texts (produced : Invocation → Outcome (List Fragment))
    (expand : Invocation → Option Text → Evaluated Text) :
    List Segment → Evaluated (List (Option Text))
  | [] => .of (.returned [])
  | .literal t _ :: rest =>
    (texts produced expand rest).mapResult fun ts => .ok (some t :: ts)
  | .invocation inv :: rest =>
    (Evaluated.of (produced inv)).andThen
      (fragmentTexts (expand inv) (texts produced expand rest))

/-- The invocations that failed, with their failures, in order. -/
def failures (execute : Invocation → Evaluated (List Fragment))
    (invs : List Invocation) : List (Invocation × Failure) :=
  invs.filterMap fun inv =>
    (execute inv).outcome.failure?.map fun f => (inv, f)

/-- How long the handlers of invocations sleep. -/
def duration (execute : Invocation → Evaluated (List Fragment))
    (invs : List Invocation) : Nat :=
  (invs.map fun inv => (execute inv).time).sum

/-- **What segments give**, when what an invocation gives rise to is
evaluated by `expand`. All invocations are executed; if any has failed,
the failure of the one that starts first is told, and else the text is
put together from left to right. -/
def evaluateSegments (b : Behaviour)
    (expand : Invocation → Option Text → Evaluated Text) (depth : Nat)
    (segments : List Segment) : Evaluated Text :=
  let execute := b.execute depth expand
  let invs := Segment.invocations segments
  Evaluated.delayed (duration execute invs)
    (match earliest? (failures execute invs) with
      | some (_, f) => .of (.failed f)
      | none =>
        (texts (fun inv => (execute inv).outcome) expand segments).mapResult
          Session.concat)

/-- **What a text gives** at a depth. A text without an opening delimiter
is given back; a text below the greatest depth is not read. -/
def evaluate (b : Behaviour) (depth : Nat) (trigger : Option Text)
    (origin : Int) (text : Option Text) : Evaluated Text :=
  match text with
  | none => .of (.failed Session.missingText)
  | some t =>
    if !Text.has b.delimiters.opening t then .of (.returned t)
    else if _h : b.maxDepth < depth then
      .of (.failed (.error
        ⟨.depthExceeded b.maxDepth, trigger, some origin⟩))
    else
      match Segment.parse b.delimiters t origin with
      | .error e => .of (.failed (.error e))
      | .ok segments =>
        b.evaluateSegments
          (fun inv text =>
            b.evaluate (depth + 1) (some inv.name)
              ((text.map inv.originOf).getD inv.offset) text)
          depth segments
termination_by b.maxDepth + 1 - depth

section

variable {b : Behaviour} {depth : Nat} {trigger : Option Text} {origin : Int}
  {t : Text}

theorem evaluate_none :
    b.evaluate depth trigger origin none = .of (.failed Session.missingText) :=
  by rw [evaluate]

theorem evaluate_plain (h : Text.has b.delimiters.opening t = false) :
    b.evaluate depth trigger origin (some t) = .of (.returned t) := by
  rw [evaluate, h]
  rfl

theorem evaluate_deep (h : Text.has b.delimiters.opening t = true)
    (hd : b.maxDepth < depth) :
    b.evaluate depth trigger origin (some t)
      = .of (.failed (.error
          ⟨.depthExceeded b.maxDepth, trigger, some origin⟩)) := by
  rw [evaluate, h, dif_pos hd]
  rfl

theorem evaluate_error {e : Error}
    (h : Text.has b.delimiters.opening t = true) (hd : depth ≤ b.maxDepth)
    (hp : Segment.parse b.delimiters t origin = .error e) :
    b.evaluate depth trigger origin (some t) = .of (.failed (.error e)) := by
  rw [evaluate, h, dif_neg (Nat.not_lt.mpr hd), hp]
  rfl

theorem evaluate_ok {segments : List Segment}
    (h : Text.has b.delimiters.opening t = true) (hd : depth ≤ b.maxDepth)
    (hp : Segment.parse b.delimiters t origin = .ok segments) :
    b.evaluate depth trigger origin (some t)
      = b.evaluateSegments
          (fun inv text =>
            b.evaluate (depth + 1) (some inv.name)
              ((text.map inv.originOf).getD inv.offset) text)
          depth segments := by
  rw [evaluate, h, dif_neg (Nat.not_lt.mpr hd), hp]
  rfl

end

end Behaviour

/-! ## Evaluation without sleeping -/

/-- The program without its sleeping. -/
def Program.awake : Program → Program
  | .finish output => .finish output
  | .fail failure => .fail failure
  | .interrupt message => .interrupt message
  | .sleep _ next => next.awake
  | .expand text next => .expand text fun answer => (next answer).awake
  | .cancel next => .cancel next.awake
  | .askCancelled next => .askCancelled fun b => (next b).awake

/-- The behaviour whose programs do not sleep. -/
def Behaviour.awake (b : Behaviour) : Behaviour :=
  { b with program? := fun inv depth => (b.program? inv depth).map .awake }

namespace Evaluated

variable {α β : Type}

theorem timeless_delayed (time : Nat) (e : Evaluated α) :
    (e.delayed time).timeless = e.timeless := rfl

theorem timeless_mapResult (f : α → Except Failure β) (e : Evaluated α) :
    (e.mapResult f).timeless = e.timeless.mapResult f := rfl

theorem timeless_mapFailure (f : Failure → Failure) (e : Evaluated α) :
    (e.mapFailure f).timeless = e.timeless.mapFailure f := rfl

theorem timeless_continueWith (e : Evaluated α)
    (next : Except Failure α → Evaluated β) :
    (e.continueWith next).timeless
      = e.timeless.continueWith fun answer => (next answer).timeless := by
  obtain ⟨o, time⟩ := e
  cases o <;> rfl

theorem timeless_andThen (e : Evaluated α) (next : α → Evaluated β) :
    (e.andThen next).timeless
      = e.timeless.andThen fun a => (next a).timeless := by
  obtain ⟨o, time⟩ := e
  cases o <;> rfl

end Evaluated

/-- A program gives the same without its sleeping. -/
theorem Program.answer_awake (expand : Option Text → Evaluated Text)
    (p : Program) :
    p.awake.answer (fun text => (expand text).timeless)
      = (p.answer expand).timeless := by
  induction p with
  | finish | fail | interrupt => rfl
  | sleep time next ih => rw [awake, ih, answer, Evaluated.timeless_delayed]
  | cancel next ih => rw [awake, answer, ih, answer]
  | askCancelled next ih => rw [awake, answer, ih, answer]
  | expand text next ih =>
    rw [awake, answer, answer, Evaluated.timeless_continueWith]
    exact congrArg _ (funext fun answer => ih answer)

namespace Behaviour

variable (b : Behaviour) (expand : Invocation → Option Text → Evaluated Text)

theorem execute_awake (depth : Nat) (inv : Invocation) :
    b.awake.execute depth (fun inv text => (expand inv text).timeless) inv
      = (b.execute depth expand inv).timeless := by
  unfold execute
  show (match (b.program? inv depth).map Program.awake with
    | none => _ | some p => _) = _
  cases b.program? inv depth with
  | none => rfl
  | some p =>
    dsimp only [Option.map_some]
    rw [Evaluated.timeless_mapFailure, Evaluated.timeless_mapResult,
      ← Program.answer_awake]
    rfl

theorem fragmentTexts_timeless (expand : Option Text → Evaluated Text)
    (others : Evaluated (List (Option Text))) (fs : List Fragment) :
    fragmentTexts (fun text => (expand text).timeless) others.timeless fs
      = (fragmentTexts expand others fs).timeless := by
  induction fs with
  | nil => rfl
  | cons f rest ih =>
    rw [fragmentTexts, fragmentTexts, ih]
    by_cases hf : f.rescan = true
    · rw [if_pos hf, if_pos hf, Evaluated.timeless_andThen]
      rfl
    · rw [if_neg hf, if_neg hf]
      rfl

theorem texts_timeless (produced : Invocation → Outcome (List Fragment))
    (segments : List Segment) :
    texts produced (fun inv text => (expand inv text).timeless) segments
      = (texts produced expand segments).timeless := by
  induction segments with
  | nil => rfl
  | cons s rest ih =>
    cases s with
    | literal t n =>
      rw [texts, texts, ih]
      rfl
    | invocation inv =>
      rw [texts, texts, ih, Evaluated.timeless_andThen]
      exact congrArg _ (funext fun fs => fragmentTexts_timeless _ _ fs)

theorem duration_timeless
    (execute : Invocation → Evaluated (List Fragment))
    (invs : List Invocation) :
    duration (fun inv => (execute inv).timeless) invs = 0 := by
  unfold duration
  induction invs with
  | nil => rfl
  | cons inv invs ih => rw [List.map_cons, List.sum_cons, ih]; rfl

theorem evaluateSegments_awake (depth : Nat) (segments : List Segment) :
    b.awake.evaluateSegments (fun inv text => (expand inv text).timeless)
        depth segments
      = (b.evaluateSegments expand depth segments).timeless := by
  have he : b.awake.execute depth (fun inv text => (expand inv text).timeless)
      = fun inv => (b.execute depth expand inv).timeless :=
    funext fun inv => execute_awake b expand depth inv
  unfold evaluateSegments
  dsimp only
  rw [he, duration_timeless, Evaluated.timeless_delayed]
  -- failures are those of the outcomes, which sleeping does not change
  show Evaluated.delayed 0
    (match earliest? (failures (b.execute depth expand)
        (Segment.invocations segments)) with
      | some (_, f) => _ | none => _) = _
  cases earliest? (failures (b.execute depth expand)
      (Segment.invocations segments)) with
  | some p => rfl
  | none =>
    show Evaluated.delayed 0 ((texts (fun inv =>
      (b.execute depth expand inv).outcome) _ segments).mapResult _) = _
    rw [texts_timeless]
    rfl

/-- **Sleeping does not matter to what a text gives.** -/
theorem evaluate_awake (depth : Nat) (trigger : Option Text) (origin : Int)
    (text : Option Text) :
    b.awake.evaluate depth trigger origin text
      = (b.evaluate depth trigger origin text).timeless := by
  fun_induction b.evaluate depth trigger origin text with
  | case1 => exact evaluate_none
  | case2 depth trigger origin t h =>
    have h' : Text.has b.delimiters.opening t = false := by simpa using h
    exact evaluate_plain h'
  | case3 depth trigger origin t h hd =>
    have h' : Text.has b.delimiters.opening t = true := by simpa using h
    exact evaluate_deep h' hd
  | case4 depth trigger origin t h hd e hp =>
    have h' : Text.has b.delimiters.opening t = true := by simpa using h
    exact evaluate_error h' (Nat.not_lt.mp hd) hp
  | case5 depth trigger origin t h hd segments hp ih =>
    have h' : Text.has b.delimiters.opening t = true := by simpa using h
    rw [← evaluateSegments_awake, evaluate_ok (b := b.awake) h'
      (Nat.not_lt.mp hd) hp]
    exact congrArg (fun e => b.awake.evaluateSegments e depth segments)
      (funext fun inv => funext fun text => ih inv text)

end Behaviour

end Shortcode
