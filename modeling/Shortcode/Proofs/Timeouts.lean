import Shortcode.Proofs.Slots
import Shortcode.Proofs.Standard

/-!
# Time limits for handlers

A handler that can wait may be given a time. When its time is up it is
stopped, and with it whatever it has expanded (`Session.timedOut_invoke`), so
no call takes longer than it may (`Session.keeps_run`, `Pipeline.keeps_build`).
That is a property of each call by itself, and cuts keep it. So it is enough to
see it where a handler is entered.

The time runs from there. A handler that waits for a slot has not been entered,
and so waiting does not count for it. It does count for a handler in whose
text the other one stands, since that one is in progress all the while: what a
handler has expanded is part of its call.

The handler is run by a task of its own, and the time is that of the one who
waits for the task. He begins to wait a step before the handler is entered, at
the same instant. When the time is up he has the task cut, and the cut
reaches whatever is done in the handler within that instant. That a call is over
by then is therefore said of instants, and not of moments
(`Run.TimedOut.instant`). A handler that cannot wait has no task and no limit:
it is never interrupted, so it is left out of `Registry.Keeps`.

Time limits are numbers of double precision, and instants are natural
numbers. `Double.Above` compares them.
-/

namespace Shortcode

/-! ## Times -/

namespace Double

/-- A number is greater than a natural number. -/
def Above (k : Nat) : Double → Prop
  | .finite negative units => negative = false ∧ k * one < units
  | .infinite negative => negative = false
  | .undefined => False

instance (k : Nat) (t : Double) : Decidable (t.Above k) :=
  match t with
  | .finite _ _ => inferInstanceAs (Decidable (_ ∧ _))
  | .infinite _ => inferInstanceAs (Decidable (_ = _))
  | .undefined => inferInstanceAs (Decidable False)

/-- A positive number is greater than the natural numbers below it rounded
up. -/
theorem above_iff {t : Double} (ht : t.isPositive = true) (k : Nat) :
    t.Above k ↔ ∀ n, t.ceil? = some n → k < n := by
  cases t with
  | finite negative units =>
    cases negative with
    | true => simp [isPositive] at ht
    | false =>
      have hone := one_pos
      have hdiv : k < (units + one - 1) / one ↔ k * one < units := by
        rw [← Nat.succ_le_iff, Nat.le_div_iff_mul_le hone, Nat.succ_mul]
        omega
      simp [Above, ceil?, hdiv]
  | infinite negative =>
    cases negative with
    | true => simp [isPositive] at ht
    | false => simp [Above, ceil?]
  | undefined => simp [isPositive] at ht

end Double

/-- The handler of a name can wait. -/
def Registry.Waits (g : Registry) (name : Text) : Prop :=
  ∃ h, g.resolve? name = some h ∧ h.concurrent = true

/-- **Calls that keep to a time**: no handler that can wait is still in
progress when so much time has passed since it was entered. -/
def Registry.Keeps (g : Registry) (time : Double) (calls : List Call) : Prop :=
  ∀ c ∈ calls, g.Waits c.name →
    ∀ m, m < c.left.instant → time.Above (m - c.entered.instant)

namespace Session

variable {s : Session} {n : Nat}

/-- **Calls that keep to a limit**, as a number of whole instants. -/
def KeepsTo (s : Session) (n : Nat) (calls : List Call) : Prop :=
  ∀ c ∈ calls, s.registry.Waits c.name →
    c.left.instant ≤ c.entered.instant + n

theorem KeepsTo.cut {c d : Call} {calls : List Call} (h : s.KeepsTo n calls)
    (hc : c ∈ calls) (hcut : d.CutOf c) (hw : s.registry.Waits d.name) :
    d.left.instant ≤ d.entered.instant + n := by
  have hname : d.name = c.name := congrArg Invocation.name hcut.invocation_eq
  rw [hcut.entered_eq]
  exact Nat.le_trans (Moment.instant_le hcut.left_le)
    (h c hc (hname ▸ hw))

theorem KeepsTo.kept {kept calls : List Call} (h : s.KeepsTo n calls)
    (hk : Call.Kept kept calls) : s.KeepsTo n kept := by
  intro d hd hw
  obtain ⟨c, hc, hcut⟩ := hk.exists_of_mem hd
  exact h.cut hc hcut hw

theorem KeepsTo.append {calls calls' : List Call} (h : s.KeepsTo n calls)
    (h' : s.KeepsTo n calls') : s.KeepsTo n (calls ++ calls') :=
  List.forall_mem_append.mpr ⟨h, h'⟩

end Session

end Shortcode
