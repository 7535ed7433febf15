import Shortcode.Proofs.Agreement

/-!
# What is requested in a run

A run is told as a whole. To speak of what happens in it, on the way, one
has to follow it: a program to the texts it asks for (`Program.Asks`), a
group to the moments at which it starts its members (`Group.started`), and
the parts of a text to those that are expanded (`Session.Pends`). Each of
them takes place at a moment, and with what is known by then of requests
for a cancellation.

Together they say what the expansion of a text gives rise to. The request
for it (`Request`) has all that decides what it does.
-/

namespace Shortcode

/-! ## Programs -/

/-- **A program asks for a text**, when it is run from a moment on with an
expander: it comes to the request at some later moment. -/
inductive Program.Asks (cancellable : Bool) (e : Expander)
    (text : Option Text) (asked : Moment) (heard : Option Moment) :
    Program → Moment → Option Moment → Prop
  | here {next : Except Failure Text → Program} :
      Asks cancellable e text asked heard (.expand text next) asked heard
  | sleep {time : Nat} {next : Program} {now : Moment}
      {known : Option Moment} :
      Asks cancellable e text asked heard next (now.later time) known →
      Asks cancellable e text asked heard (.sleep time next) now known
  | returned {before : Option Text} {next : Except Failure Text → Program}
      {now : Moment} {known : Option Moment} {t : Text} :
      (e before now known).outcome = .returned t →
      Asks cancellable e text asked heard (next (.ok t))
        (e before now known).finish
        (Moment.earliest? known (e before now known).cancels) →
      Asks cancellable e text asked heard (.expand before next) now known
  | failed {before : Option Text} {next : Except Failure Text → Program}
      {now : Moment} {known : Option Moment} {f : Failure} :
      (e before now known).outcome = .failed f →
      Asks cancellable e text asked heard (next (.error f))
        (e before now known).finish
        (Moment.earliest? known (e before now known).cancels) →
      Asks cancellable e text asked heard (.expand before next) now known
  | cancel {next : Program} {now : Moment} {known : Option Moment} :
      Asks cancellable e text asked heard next now
        (if cancellable then Moment.earliest? known (some now) else known) →
      Asks cancellable e text asked heard (.cancel next) now known
  | askCancelled {next : Bool → Program} {now : Moment}
      {known : Option Moment} :
      Asks cancellable e text asked heard (next (Moment.reached known now))
        now known →
      Asks cancellable e text asked heard (.askCancelled next) now known

/-- The calls that a program makes are made by what it asks for. -/
theorem Program.exists_asks {b : Bool} {e : Expander} {c : Call}
    (p : Program) {now : Moment} {known : Option Moment}
    (hc : c ∈ (p.run b e now known).calls) :
    ∃ text asked heard, p.Asks b e text asked heard now known
      ∧ c ∈ (e text asked heard).calls := by
  induction p generalizing now known with
  | finish | fail | interrupt => simp [run, Run.now] at hc
  | sleep time next ih =>
    obtain ⟨text, asked, heard, ha, hc⟩ := ih hc
    exact ⟨text, asked, heard, .sleep ha, hc⟩
  | askCancelled next ih =>
    obtain ⟨text, asked, heard, ha, hc⟩ := ih _ hc
    exact ⟨text, asked, heard, .askCancelled ha, hc⟩
  | cancel next ih =>
    have hc : c ∈ (next.run b e now
        (if b then Moment.earliest? known (some now) else known)).calls := by
      cases b <;> exact hc
    obtain ⟨text, asked, heard, ha, hc⟩ := ih hc
    exact ⟨text, asked, heard, .cancel ha, hc⟩
  | expand before next ih =>
    rw [run] at hc
    cases ho : (e before now known).outcome with
    | returned t =>
      rw [ho] at hc
      rcases List.mem_append.mp hc with hc | hc
      · exact ⟨_, _, _, .here, hc⟩
      · obtain ⟨text, asked, heard, ha, hc⟩ := ih _ hc
        exact ⟨text, asked, heard, .returned ho ha, hc⟩
    | failed f =>
      rw [ho] at hc
      rcases List.mem_append.mp hc with hc | hc
      · exact ⟨_, _, _, .here, hc⟩
      · obtain ⟨text, asked, heard, ha, hc⟩ := ih _ hc
        exact ⟨text, asked, heard, .failed ho ha, hc⟩
    | interrupted m =>
      rw [ho] at hc
      exact ⟨_, _, _, .here, hc⟩

/-- What a program asks for makes its calls in the run of the program. -/
theorem Program.Asks.calls_subset {b : Bool} {e : Expander}
    {text : Option Text} {asked now : Moment} {heard known : Option Moment}
    {p : Program} (h : p.Asks b e text asked heard now known) :
    (e text asked heard).calls ⊆ (p.run b e now known).calls := by
  induction h with
  | @here next =>
    rw [Program.run]
    split
    · exact List.subset_append_left _ _
    · exact List.subset_append_left _ _
    · exact List.Subset.refl _
  | sleep _ ih => exact ih
  | returned ho _ ih =>
    rw [Program.run, ho]
    exact List.subset_append_of_subset_right _ ih
  | failed ho _ ih =>
    rw [Program.run, ho]
    exact List.subset_append_of_subset_right _ ih
  | cancel _ ih =>
    rw [Program.run]
    cases b <;> exact ih
  | askCancelled _ ih => exact ih

/-! ## Groups -/

namespace Group

variable {ι α : Type}

/-- **When members are started**, and what is known by then of requests for
a cancellation. -/
def started (limit : Nat) (first : Moment) (member : ι → Member α) :
    Option Moment → List Moment → List ι → List (ι × Moment × Option Moment)
  | _, _, [] => []
  | known, ends, x :: rest =>
    let start := start limit first ends
    let r := member x start known
    (x, start, known) :: started limit first member
      (Moment.earliest? known r.cancels) (r.finish :: ends) rest

/-- Members run from when they are started. -/
theorem members_eq (limit : Nat) (first : Moment) (member : ι → Member α)
    (known : Option Moment) (ends : List Moment) (xs : List ι) :
    members limit first known ends (xs.map member)
      = (started limit first member known ends xs).map
          fun y => member y.1 y.2.1 y.2.2 := by
  induction xs generalizing known ends with
  | nil => rfl
  | cons x xs ih => rw [List.map_cons, members, started, List.map_cons, ih]

end Group

/-! ## Parts -/

/-- **A part is expanded** when a text is put together, at a moment: those
before it have been expanded by then. -/
inductive Session.Pends (expander : Invocation → Expander) (inv : Invocation)
    (text : Option Text) (asked : Moment) (heard : Option Moment) :
    List Part → Moment → Option Moment → Prop
  | here {rest : List Part} :
      Pends expander inv text asked heard (.pending inv text :: rest) asked
        heard
  | ready {t : Option Text} {rest : List Part} {now : Moment}
      {known : Option Moment} :
      Pends expander inv text asked heard rest now known →
      Pends expander inv text asked heard (.ready t :: rest) now known
  | behind {before : Invocation} {t : Option Text} {u : Text}
      {rest : List Part} {now : Moment} {known : Option Moment} :
      (expander before t now known).outcome = .returned u →
      Pends expander inv text asked heard rest
        (expander before t now known).finish
        (Moment.earliest? known (expander before t now known).cancels) →
      Pends expander inv text asked heard (.pending before t :: rest) now known

/-! ## Expansions -/

/-- **A request to have a text expanded**, with all that decides what the
expansion does in a session. -/
structure Request where
  /-- How many levels of depth are left. -/
  levels : Nat
  depth : Nat
  /-- The shortcode that gave rise to the text. -/
  trigger : Option Text
  /-- The position of the text in the document. -/
  origin : Int
  text : Option Text
  now : Moment
  /-- When a cancellation was asked for, as far as that is known. -/
  cancels : Option Moment

namespace Request

/-- The request for a document. -/
def whole (s : Session) (text : Text) (now : Moment)
    (cancels : Option Moment) : Request :=
  ⟨s.settings.maxDepth + 1, 0, none, 0, some text, now, cancels⟩

/-- What is done on request. -/
def run (q : Request) (s : Session) : Run Text :=
  s.expandFrom q.levels q.depth q.trigger q.origin q.text q.now q.cancels

/-- What an invocation in the text requests, one level deeper. -/
def nested (q : Request) (inv : Invocation) (text : Option Text)
    (now : Moment) (cancels : Option Moment) : Request :=
  ⟨q.levels - 1, q.depth + 1, some inv.name,
    (text.map inv.originOf).getD inv.offset, text, now, cancels⟩

/-- What invocations in the text have their texts expanded by. -/
def expander (q : Request) (s : Session) (inv : Invocation) : Expander :=
  fun text now cancels => (q.nested inv text now cancels).run s

/-- The group of the invocations in the text. -/
def group (q : Request) (s : Session) (segments : List Segment) :
    Run (List (List Fragment)) :=
  s.invokeAll (Segment.invocations segments) q.depth
    (fun inv => Session.escaping (q.expander s inv)) q.now q.cancels

/-- When the invocations in the text are started. -/
def started (q : Request) (s : Session) (segments : List Segment) :
    List (Invocation × Moment × Option Moment) :=
  Group.started s.settings.maxConcurrency q.now.next
    (s.member q.depth (fun inv => Session.escaping (q.expander s inv)) q.now)
    q.cancels [] (Segment.invocations segments)

/-- What the invocations do then. -/
def memberRuns (q : Request) (s : Session) (segments : List Segment) :
    List (Run (List Fragment)) :=
  Group.members s.settings.maxConcurrency q.now.next q.cancels []
    ((Segment.invocations segments).map
      (s.member q.depth (fun inv => Session.escaping (q.expander s inv))
        q.now))

/-- **A text that is read**: levels are left, nobody has asked for a
cancellation, and the text consists of these segments. -/
structure Reads (q : Request) (s : Session) (segments : List Segment) :
    Prop where
  levels : q.levels ≠ 0
  uncancelled : Moment.reached q.cancels q.now = false
  text : ∃ t, q.text = some t
    ∧ Text.has s.settings.delimiters.opening t = true
    ∧ Segment.parse s.settings.delimiters t q.origin = .ok segments

variable {q : Request} {s : Session} {segments : List Segment}

/-- What is done on request with a text that is read. -/
theorem Reads.run_eq (h : q.Reads s segments) :
    q.run s = s.expandSegments (q.expander s) q.depth segments q.now
      q.cancels := by
  obtain ⟨levels, depth, trigger, origin, text, now, cancels⟩ := q
  obtain ⟨t, rfl, ht, hp⟩ := h.text
  obtain ⟨levels, rfl⟩ := Nat.exists_eq_succ_of_ne_zero h.levels
  have hc : Moment.reached cancels now = false := h.uncancelled
  unfold run
  rw [Session.expandFrom, hc, ht, hp]
  rfl

end Request

end Shortcode
