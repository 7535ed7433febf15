import Shortcode.Proofs.Requests
import Shortcode.Proofs.Timeline

/-!
# What comes of a request

A request for a text gives rise to others. The handlers of its invocations
ask for texts while they run, and what they have produced may be requested
again when their group has gone on. Each of these requests is one for a text
again, so one can speak of all that comes of a request (`Request.Descends`)
and prove things of it by induction.

For this the group of a text has to be opened: it is empty, or cancelled when
it is called, or it gathers what its members do (`Request.group_cases`). And
what is requested again has to be told in order, with the moments and with
what is known by then of requests for a cancellation (`Request.rescans`): a
part of a text is only requested when the part in front of it has been
expanded.
-/

namespace Shortcode

/-! ## Texts that are expanded again -/

/-- **Which parts of a text are expanded**, and when, with what is known by
then of requests for a cancellation: one after the other, until one fails. -/
def Session.expanded (expander : Invocation → Expander) :
    List Part → Moment → Option Moment →
      List (Invocation × Option Text × Moment × Option Moment)
  | [], _, _ => []
  | .ready _ :: rest, now, known => expanded expander rest now known
  | .pending inv t :: rest, now, known =>
    let r := expander inv t now known
    (inv, t, now, known) ::
      match r.outcome with
      | .returned _ =>
        expanded expander rest r.finish (Moment.earliest? known r.cancels)
      | _ => []

namespace Session

variable {expander : Invocation → Expander}

theorem Pends.mem_expanded {inv : Invocation} {text : Option Text}
    {asked now : Moment} {heard known : Option Moment} {ps : List Part}
    (h : Pends expander inv text asked heard ps now known) :
    (inv, text, asked, heard) ∈ expanded expander ps now known := by
  induction h with
  | here => exact List.mem_cons_self ..
  | ready _ ih => exact ih
  | behind ho _ ih =>
    rw [expanded, ho]
    exact List.mem_cons_of_mem _ ih

/-- Putting a text together calls the handlers of the parts that are
expanded. -/
theorem calls_splice (expander : Invocation → Expander) (ps : List Part)
    (now : Moment) (known : Option Moment) :
    (splice expander ps now known).calls
      = (expanded expander ps now known).flatMap fun y =>
        (expander y.1 y.2.1 y.2.2.1 y.2.2.2).calls := by
  induction ps generalizing now known with
  | nil => rfl
  | cons part rest ih =>
    cases part with
    | ready t => exact ih now known
    | pending inv t =>
      rw [splice, expanded, List.flatMap_cons]
      unfold Run.andThen
      cases ho : (expander inv t now known).outcome with
      | returned u => exact congrArg (_ ++ ·) (ih _ _)
      | failed | interrupted =>
        rw [List.flatMap_nil, List.append_nil]
        rfl

end Session

/-! ## Members and groups -/

/-- A member of a group runs its invocation, or finds that it was
cancelled, when its task has begun and its turn has come. -/
theorem Session.member_eq_or (s : Session) (depth : Nat)
    (expander : Invocation → Expander) (called : Moment) (inv : Invocation)
    (start : Moment) (known : Option Moment) :
    s.member depth expander called inv start known
        = ((Run.now start (.failed (cancelledAt inv.offset))).behind
            start).behind called.next
      ∨ ∃ cleared, s.member depth expander called inv start known
        = ((s.invoke inv depth (expander inv) cleared start known).behind
            start).behind called.next := by
  unfold member
  split
  · exact .inr ⟨_, rfl⟩
  · split
    · exact .inl rfl
    · exact .inr ⟨_, rfl⟩

/-- A member ends when its turn has come, or later. -/
theorem Session.le_finish_member {s : Session}
    {expander : Invocation → Expander} (he : ∀ inv, (expander inv).Orderly s)
    (depth : Nat) (called : Moment) (inv : Invocation) (start : Moment)
    (known : Option Moment) :
    start ≤ (s.member depth expander called inv start known).finish := by
  rcases s.member_eq_or depth expander called inv start known with
    h | ⟨cleared, h⟩
  · rw [h]
    exact start.le_refl
  · rw [h]
    exact le_finish_invoke (he inv) inv cleared start known

/-- **A group is called before its members end.** -/
theorem Session.called_members {s : Session} {expander : Invocation → Expander}
    (he : ∀ inv, (expander inv).Orderly s) (depth : Nat) (now : Moment)
    (known : Option Moment) (invs : List Invocation) :
    ∀ r ∈ Group.members s.settings.maxConcurrency now.next known []
        (invs.map (s.member depth expander now)), now < r.finish := by
  intro r hr
  obtain ⟨m, hm, start, heard, hle, rfl⟩ := Group.exists_of_mem_members hr
  obtain ⟨inv, -, rfl⟩ := List.mem_map.mp hm
  exact Moment.next_le_iff.mp
    (Moment.le_trans hle (le_finish_member he depth now inv start heard))

/-- The members that are started are all there are, in order. -/
theorem Group.map_fst_started {ι α : Type} (limit : Nat) (first : Moment)
    (member : ι → Member α) (known : Option Moment) (ends : List Moment)
    (xs : List ι) :
    (started limit first member known ends xs).map Prod.fst = xs := by
  induction xs generalizing known ends with
  | nil => rfl
  | cons x xs ih => rw [started, List.map_cons, ih]

namespace Request

variable {q : Request} {s : Session} {segments : List Segment}

theorem orderly_expander (q : Request) (s : Session) (inv : Invocation) :
    (q.expander s inv).Orderly s :=
  fun text now cancels => Session.orderly_expandFrom _ _ _ _ text now cancels

theorem orderly_escaping (q : Request) (s : Session) (inv : Invocation) :
    (Session.escaping (q.expander s inv)).Orderly s :=
  fun text now cancels =>
    (q.orderly_expander s inv text now cancels).withOutcome _

/-- What an invocation in the text does that is started at a moment, with
what is known by then of requests for a cancellation. -/
def memberRun (q : Request) (s : Session)
    (y : Invocation × Moment × Option Moment) : Run (List Fragment) :=
  s.member q.depth (fun inv => Session.escaping (q.expander s inv)) q.now y.1
    y.2.1 y.2.2

theorem memberRuns_eq (q : Request) (s : Session) (segments : List Segment) :
    q.memberRuns s segments = (q.started s segments).map (q.memberRun s) :=
  Group.members_eq _ _ _ _ _ _

/-- Invocations that are started stand in the text. -/
theorem mem_invocations_of_mem_started
    {y : Invocation × Moment × Option Moment}
    (h : y ∈ q.started s segments) :
    y.1 ∈ Segment.invocations segments := by
  have hfst := List.mem_map_of_mem (f := Prod.fst) h
  rwa [started, Group.map_fst_started] at hfst

/-- Invocations that are started are run in order. -/
theorem Reads.orderly_memberRun (h : q.Reads s segments)
    {y : Invocation × Moment × Option Moment}
    (hy : y ∈ q.started s segments) :
    (q.memberRun s y).Orderly s q.now q.cancels := by
  have hc := Moment.reached_eq_false_iff.mp h.uncancelled
  refine Group.orderly_members (fun m hm start known hle h0 hk => ?_)
    (hc.mono q.now.le_next) [] _
    (q.memberRuns_eq s segments ▸ List.mem_map_of_mem hy)
  obtain ⟨inv, -, rfl⟩ := List.mem_map.mp hm
  exact Session.orderly_member (q.orderly_escaping s) inv hle h0 hk

/-- The invocations in a text, as a group that can be cancelled with a
failure. -/
def gathering (q : Request) (s : Session) (segments : List Segment)
    (cancelled : Failure) : Group.Gathering (List Fragment) :=
  ⟨s.settings.maxConcurrency, s.cancellable, q.now, cancelled, q.cancels,
    q.memberRuns s segments⟩

/-- The group of the invocations in a text: there may be none, or it is
cancelled when it is called, or it gathers what its members do. -/
theorem group_cases (q : Request) (s : Session) (segments : List Segment) :
    (q.started s segments = []
        ∧ q.group s segments = .now q.now (.returned []))
      ∨ ∃ cancelled, cancelled.isCancellation = true
        ∧ (q.group s segments = .now q.now (.failed cancelled)
          ∨ q.group s segments = (q.gathering s segments cancelled).run) := by
  unfold gathering group started memberRuns Session.invokeAll
  cases hinvs : Segment.invocations segments with
  | nil => exact .inl ⟨rfl, rfl⟩
  | cons first rest =>
    refine .inr ⟨Session.cancelledAt first.offset, rfl, ?_⟩
    dsimp only
    split
    · exact .inl rfl
    · exact .inr rfl

/-- The group of a text that has invocations. -/
theorem Reads.group_eq (h : q.Reads s segments) {first : Invocation}
    {rest : List Invocation}
    (hinvs : Segment.invocations segments = first :: rest) :
    q.group s segments
      = (q.gathering s segments (Session.cancelledAt first.offset)).run := by
  unfold Request.group Session.invokeAll gathering memberRuns
  rw [hinvs]
  dsimp only
  rw [h.uncancelled, if_neg Bool.false_ne_true]

/-- What is done on request with a text that is not read: no handler is
called. -/
theorem run_eq_or (q : Request) (s : Session) :
    (∃ o, q.run s = .now q.now o) ∨ (∃ f, q.run s = .tooDeep q.now f)
      ∨ ∃ segments, q.Reads s segments := by
  obtain ⟨levels, depth, trigger, origin, text, now, cancels⟩ := q
  unfold run
  dsimp only
  rw [Session.expandFrom.eq_def]
  dsimp only
  split
  · exact .inl ⟨_, rfl⟩
  · next hc =>
    split
    · exact .inl ⟨_, rfl⟩
    · next t =>
      split
      · exact .inl ⟨_, rfl⟩
      · next ht =>
        split
        · exact .inr (.inl ⟨_, rfl⟩)
        · next levels =>
          split
          · exact .inl ⟨_, rfl⟩
          · next segments hp =>
            exact .inr (.inr ⟨segments, levels.succ_ne_zero, by simpa using hc,
              t, rfl, by simpa using ht, hp⟩)

/-- A text that is not read has no handler called. -/
theorem calls_run_eq_nil_or (q : Request) (s : Session) :
    (q.run s).calls = [] ∨ ∃ segments, q.Reads s segments := by
  rcases q.run_eq_or s with ⟨o, he⟩ | ⟨f, he⟩ | hq
  · exact .inl (by rw [he]; rfl)
  · exact .inl (by rw [he]; rfl)
  · exact .inr hq

/-! ## What is requested again -/

/-- **What is requested again** of what the invocations in the text have
produced, in order. -/
def rescans (q : Request) (s : Session) (segments : List Segment) :
    List Request :=
  let group := q.group s segments
  match group.outcome with
  | .returned produced =>
    (Session.expanded (q.expander s) (Session.parts segments produced)
      group.finish (Moment.earliest? q.cancels group.cancels)).map fun y =>
        q.nested y.1 y.2.1 y.2.2.1 y.2.2.2
  | _ => []

theorem mem_rescans {produced : List (List Fragment)} {inv : Invocation}
    {text : Option Text} {asked : Moment} {heard : Option Moment}
    (ho : (q.group s segments).outcome = .returned produced)
    (h : Session.Pends (q.expander s) inv text asked heard
      (Session.parts segments produced) (q.group s segments).finish
      (Moment.earliest? q.cancels (q.group s segments).cancels)) :
    q.nested inv text asked heard ∈ q.rescans s segments := by
  unfold rescans
  dsimp only
  rw [ho]
  exact List.mem_map.mpr ⟨_, h.mem_expanded, rfl⟩

/-- **The handlers that are called for a text** are those of the group of
its invocations, and those of what is expanded again. -/
theorem Reads.calls_run (h : q.Reads s segments) :
    (q.run s).calls = (q.group s segments).calls
      ++ (q.rescans s segments).flatMap fun r => (r.run s).calls := by
  rw [h.run_eq]
  show ((q.group s segments).andThen q.cancels _).calls = _
  unfold Run.andThen rescans
  dsimp only
  cases (q.group s segments).outcome with
  | returned produced =>
    dsimp only
    rw [List.flatMap_map]
    exact congrArg (_ ++ ·) (Session.calls_splice _ _ _ _)
  | failed | interrupted => exact (List.append_nil _).symm

/-! ## All of it -/

/-- **What comes of a request**: the request, what the handlers ask for that
are started for it, and what is requested again of what they return. -/
inductive Descends (s : Session) (root : Request) : Request → Prop
  | root : Descends s root root
  | asked {q : Request} {segments : List Segment} {inv : Invocation}
      {start asked : Moment} {known heard : Option Moment} {h : Handler}
      {text : Option Text} :
      Descends s root q → q.Reads s segments →
      (inv, start, known) ∈ q.started s segments →
      s.registry.resolve? inv.name = some h →
      (h.program ⟨inv, q.depth, s.settings, s.metadata⟩).Asks s.cancellable
        (Session.escaping (q.expander s inv)) text asked heard
        (s.entry h start) known →
      Descends s root (q.nested inv text asked heard)
  | rescanned {q r : Request} {segments : List Segment} :
      Descends s root q → q.Reads s segments → r ∈ q.rescans s segments →
      Descends s root r

end Request

end Shortcode
