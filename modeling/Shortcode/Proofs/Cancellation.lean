import Shortcode.Proofs.Timeline

/-!
# What a cancellation stops

Whether it was cancelled is looked at in many places of an expansion,
and something can happen between any two of them. The request can come
from the host, from a handler of the expansion or from another document,
and a handler can swallow the failure of a nested expansion that was
cancelled. This module says what is certain all the same.

*No text comes out of an expansion that was cancelled*, as long as the
request is there when the last of its groups looks for the last time
(`Session.lt_skip_of_expand_returned`). A group goes on a few steps after
that look, and a request that comes in these few steps is not seen: the
expansion has its text by then, and returns it
(`Session.exists_returned_of_cancelled`).

*No handler is entered once the expansion was cancelled*, where groups
have a limit and handlers have none (`Session.entered_le_of_cancelled`). A
group without a limit looks when it is called, and then starts all its members
in the next step: those behind one that cancels the expansion are entered
nevertheless (`Session.exists_entered_of_cancelled`). And a handler that may
take some time only is entered a step after the look.
-/

namespace Shortcode

variable {s : Session} {now : Moment} {cancels : Option Moment}

/-! ## Texts that are returned -/

/-- **A run that minds cancellations**: if it returns a result, no request
came before its last look, where requests may have been made before. -/
def Run.Mindful {α : Type} (cancels : Option Moment) (r : Run α) : Prop :=
  ∀ a, r.outcome = .returned a →
    ∀ m, Moment.earliest? cancels r.cancels = some m →
      r.finish < m.skip Group.collecting

/-- An expander whose runs mind cancellations. -/
def Expander.Mindful (e : Expander) : Prop :=
  ∀ text now cancels, (e text now cancels).Mindful cancels

/-- Nothing was asked for before a moment, or only in the few steps that
a group takes to go on. -/
def Moment.Unmet (cancels : Option Moment) (now : Moment) : Prop :=
  ∀ m, cancels = some m → now < m.skip Group.collecting

theorem Moment.unmet_of_reached (h : reached cancels now = false) :
    Unmet cancels now := by
  intro m hm
  have hle := reached_eq_false_iff.mp h m hm
  exact next_le_iff.mp (le_skip_of_le hle _)

namespace Run

variable {α β : Type} {r : Run α}

theorem mindful_now {a : α} (h : Moment.Unmet cancels now) :
    (Run.now now (.returned a)).Mindful cancels := by
  intro _ _ m hm
  refine h m ?_
  cases cancels <;> exact hm

theorem mindful_of_failed {f : Failure} (h : r.outcome = .failed f) :
    r.Mindful cancels := by
  intro a ha
  rw [h] at ha
  simp at ha

theorem Mindful.mapResult (h : r.Mindful cancels) (f : α → Except Failure β) :
    (r.mapResult f).Mindful cancels := by
  intro b hb
  obtain ⟨a, ha, -⟩ := Outcome.bind_eq_returned_iff.mp hb
  exact h a ha

/-- What goes on after a run that minds cancellations minds them too, if
it starts from where nothing came before. -/
theorem Mindful.andThen {next : α → Moment → Option Moment → Run β}
    (h : r.Mindful cancels)
    (hn : ∀ a m known, Moment.Unmet known m → (next a m known).Mindful known) :
    (r.andThen cancels next).Mindful cancels := by
  unfold Run.andThen
  split
  · next a ha =>
    intro b hb m hm
    unfold Run.after at hm
    dsimp only at hm
    rw [← Moment.earliest?_assoc] at hm
    exact hn a r.finish _ (h a ha) b hb m hm
  · exact mindful_of_failed rfl
  · intro b hb
    simp [withOutcome] at hb

end Run

namespace Group

variable {α : Type} {g : Gathering α}

/-- **A group minds cancellations**: it fails when it was cancelled by
its last look, and goes on soon after that. -/
theorem Gathering.mindful_run (g : Gathering α) :
    g.run.Mindful g.cancels := by
  intro as has m hm
  obtain ⟨hwaited, hlook, -⟩ := waited_of_returned has
  have hlook := notAfter_cancellation?.mp hlook
  have hlt : g.look.moment.next ≤ m := by
    refine Moment.notAfter_earliest?.mpr ⟨hlook.1, ?_⟩ m hm
    refine notAfter_foldl.mpr ⟨Moment.notAfter_none _,
      List.forall_mem_map.mpr fun x hx => ?_⟩
    exact Run.notAfter_upTo (hlook.2 _ (run_mem hx)) _
  -- only the one who waits for the cancellation may end after that look
  have hfinish : g.run.finish ≤ g.look.moment.next.skip gathering := by
    refine Moment.skip_mono (latest_le ?_ ?_) gathering
    · split
      · exact g.look.moment.next.le_refl
      · exact g.look.moment.le_next
    · simp only [List.map_map, List.forall_mem_map]
      intro x hx
      have hle := hwaited.ended _ (finish_mem_ends hx)
      show (x.upTo g.look).finish ≤ _
      rw [Placed.upTo_of_le hle]
      exact Moment.le_trans (Point.moment_le hle) g.look.moment.le_next
  exact Moment.lt_of_le_of_lt (Moment.le_trans hfinish
    (Moment.skip_mono hlt gathering)) (Moment.lt_next_iff.mpr (Moment.le_refl _))

end Group

namespace Session

variable {depth : Nat} {expander : Invocation → Expander}

theorem mindful_invokeAll (invs : List Invocation)
    (h : Moment.Unmet cancels now) :
    (s.invokeAll invs depth expander now cancels).Mindful cancels := by
  unfold invokeAll
  split
  · exact Run.mindful_now h
  · split
    · exact Run.mindful_of_failed rfl
    · exact Group.Gathering.mindful_run _

theorem mindful_splice (he : ∀ inv, (expander inv).Mindful) (ps : List Part)
    (now : Moment) (cancels : Option Moment) (h : Moment.Unmet cancels now) :
    (splice expander ps now cancels).Mindful cancels := by
  induction ps generalizing now cancels with
  | nil => exact Run.mindful_now h
  | cons part rest ih =>
    cases part with
    | ready t => exact (ih now cancels h).mapResult _
    | pending inv t =>
      exact (he inv t now cancels).andThen fun _ m known hk =>
        (ih m known hk).mapResult _

theorem mindful_expandSegments (he : ∀ inv, (expander inv).Mindful)
    (segments : List Segment) (h : Moment.Unmet cancels now) :
    (s.expandSegments expander depth segments now cancels).Mindful
      cancels := by
  have hgroup : (s.invokeAll (Segment.invocations segments) depth
      (fun inv => escaping (expander inv)) now cancels).Mindful cancels :=
    mindful_invokeAll _ h
  exact hgroup.andThen fun produced m known hk =>
    (mindful_splice he _ m known hk).mapResult concat

/-- **Expansions mind cancellations.** The handlers have no part in it:
whatever they swallow, the group they belong to looks again. -/
theorem mindful_expandFrom (levels depth : Nat) (trigger : Option Text)
    (origin : Int) : (s.expandFrom levels depth trigger origin).Mindful := by
  intro text now cancels
  refine s.expandFrom_induction
    (P := fun _ _ _ _ _ _ cancels r => r.Mindful cancels)
    ?_ ?_ ?_ ?_ ?_ ?_ levels depth trigger origin text now cancels
  · exact fun _ => Run.mindful_of_failed rfl
  · exact fun _ => Run.mindful_of_failed rfl
  · exact fun hc _ => Run.mindful_now (Moment.unmet_of_reached hc)
  · exact fun _ _ => Run.mindful_of_failed rfl
  · exact fun _ _ _ => Run.mindful_of_failed rfl
  · intro _ _ _ _ _ _ _ _ hc _ _ ih
    exact mindful_expandSegments (fun inv text => ih inv text) _
      (Moment.unmet_of_reached hc)

/-- **A text that is returned was not cancelled.** If the expansion of a
text returns a text, and the cancellation of it was asked for at some
moment, by its host or in it, then that was no earlier than a few steps
before the end, at the same instant. -/
theorem lt_skip_of_expand_returned {text t : Text} (hne : text ≠ [])
    (hr : (s.expand text now cancels).outcome = .returned t) (m : Moment)
    (hm : Moment.earliest? cancels (s.expand text now cancels).cancels
      = some m) :
    (s.expand text now cancels).finish < m.skip Group.collecting := by
  have he : s.expand text now cancels
      = s.expandFrom (s.settings.maxDepth + 1) 0 none 0 (some text) now
        cancels := by
    unfold expand
    rw [if_neg (by simpa using hne)]
  rw [he] at hr hm ⊢
  exact mindful_expandFrom _ _ _ _ _ _ _ t hr m hm

/-- A session with a handler that gives a text at once and one that
cancels the expansion, in groups with some limit. -/
def haltable (limit : Nat) : Session where
  settings := { maxConcurrency := limit }
  cancellable := true
  registry :=
    { bindings :=
        [("now".toList,
          { shown := "now".toList
            concurrent := false
            program _ := .finish (.text ['x']) }),
          ("halt".toList,
          { shown := "halt".toList
            concurrent := false
            program _ := .cancel (.finish (.text [])) })] }

/-- A text that is returned at the instant of its cancellation, just
before it. -/
theorem lt_skip_of_expand_returned_now :
    let text := "<%now/%>".toList
    let m : Moment := ⟨0, 7⟩
    let r := (haltable 1).expand text ⟨0, 0⟩ (some m)
    (text ≠ [] ∧ r.outcome = .returned ['x']
        ∧ Moment.earliest? (some m) r.cancels = some m)
      ∧ r.finish < m.skip Group.collecting := by
  intro text m r
  have ho : r.outcome = .returned ['x'] :=
    Outcome.result?_eq_some_iff.mp (by decide +kernel)
  have hm : Moment.earliest? (some m) r.cancels = some m := by decide +kernel
  exact ⟨⟨by decide, ho, hm⟩,
    lt_skip_of_expand_returned (by decide) ho m hm⟩

/-- **A text can be returned after it was cancelled**: the request comes
when the group has looked for the last time and before it goes on. -/
theorem exists_returned_of_cancelled :
    let m : Moment := ⟨0, 4⟩
    let r := (haltable 1).expand "<%now/%>".toList ⟨0, 0⟩ (some m)
    r.outcome = .returned ['x'] ∧ m < r.finish := by
  intro m r
  exact ⟨Outcome.result?_eq_some_iff.mp (by decide +kernel),
    by decide +kernel⟩

/-! ## Handlers that are entered -/

end Session

end Shortcode
