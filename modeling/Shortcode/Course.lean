import Shortcode.Moment
import Shortcode.Segment

/-!
# Courses and cuts

A course is what happens until something has ended: which calls of handlers
are made, and when the cancellation of the expansion is first asked for.

Something that takes some time can be *cut*: because time is up, because
another member of its group failed, or because of a cancellation. What is due
afterwards does not happen, and a call that is in progress ends as cancelled.

It is not enough to leave away what lies behind the cut. A task that is cut
is told so by the task it waits for, and tells those that wait in it, a step
later each; it ends when all of those have ended. So what is cut goes on for
some steps, and for how many depends on what it was doing. It is decided
where something is done, and not where it is cut, which course it takes
then. What can be said of all these courses at once is that they fit
together (`Stops`): what is cut ends at the instant of the cut, and what is
cut sooner is a part of what is cut later, or not at all.

The order matters within a step as well. Of two cuts at one moment the one
that comes first keeps what is due just then from happening, and the other
one does not.
-/

namespace Shortcode

/-- How a call of a handler ends. -/
inductive Ending where
  | completed
  | failed
  | cancelled
deriving DecidableEq, Repr, Inhabited

/-- One call of a handler. -/
structure Call where
  /-- What the handler was called for. -/
  invocation : Invocation
  depth : Nat
  /-- When it was last looked whether the expansion had been cancelled,
  before the handler was entered. -/
  cleared : Moment
  /-- When the invocation's turn came. -/
  started : Moment
  /-- When the handler was entered: under a time limit that is done by a
  task of its own. -/
  entered : Moment
  /-- The expansion had been cancelled when the handler was entered. -/
  afterCancel : Bool
  /-- When the handler was left, or was cut. -/
  left : Moment
  ending : Ending
deriving DecidableEq, Repr, Inhabited

namespace Call

/-- The shortcode's name. -/
def name (c : Call) : Text := c.invocation.name

/-- The position of the invocation in the document. -/
def offset (c : Call) : Int := c.invocation.offset

/-- The call, cut at a moment. -/
def cutAt (m : Moment) (c : Call) : Call :=
  { c with left := m, ending := .cancelled }

/-- A call, or the part of it up to a cut. -/
def CutOf (d c : Call) : Prop :=
  d = c ∨ ∃ m ≤ c.left, d = c.cutAt m

theorem cutOf_refl (c : Call) : c.CutOf c := .inl rfl

theorem CutOf.left_le {d c : Call} (h : d.CutOf c) : d.left ≤ c.left := by
  rcases h with rfl | ⟨m, h, rfl⟩
  · exact d.left.le_refl
  · exact h

/-- A cut does not change what a call is made for. -/
theorem CutOf.invocation_eq {d c : Call} (h : d.CutOf c) :
    d.invocation = c.invocation := by
  rcases h with rfl | ⟨m, -, rfl⟩
  · rfl
  · rfl

theorem CutOf.depth_eq {d c : Call} (h : d.CutOf c) : d.depth = c.depth := by
  rcases h with rfl | ⟨m, -, rfl⟩
  · rfl
  · rfl

theorem CutOf.entered_eq {d c : Call} (h : d.CutOf c) :
    d.entered = c.entered := by
  rcases h with rfl | ⟨m, -, rfl⟩
  · rfl
  · rfl

theorem CutOf.trans {b c d : Call} (h : d.CutOf c) (h' : c.CutOf b) :
    d.CutOf b := by
  rcases h with rfl | ⟨m, hm, rfl⟩
  · exact h'
  · refine .inr ⟨m, Moment.le_trans hm h'.left_le, ?_⟩
    rcases h' with rfl | ⟨n, -, rfl⟩ <;> rfl

/-- **What is left of calls** after a cut: some of them, or parts of them,
in the same order. -/
inductive Kept : List Call → List Call → Prop
  | nil {calls : List Call} : Kept [] calls
  | cons {d c : Call} {kept calls : List Call} (hdc : d.CutOf c)
      (h : Kept kept calls) : Kept (d :: kept) (c :: calls)
  | drop {c : Call} {kept calls : List Call} (h : Kept kept calls) :
      Kept kept (c :: calls)

namespace Kept

variable {kept kept' calls calls' : List Call}

theorem refl (calls : List Call) : Kept calls calls := by
  induction calls with
  | nil => exact .nil
  | cons c calls ih => exact .cons c.cutOf_refl ih

theorem trans {left : List Call} (h : Kept left kept) (h' : Kept kept calls) :
    Kept left calls := by
  induction h' generalizing left with
  | nil =>
    cases h
    exact .nil
  | cons hdc _ ih =>
    cases h with
    | nil => exact .nil
    | cons h hrest => exact .cons (h.trans hdc) (ih hrest)
    | drop hrest => exact .drop (ih hrest)
  | drop _ ih => exact .drop (ih h)

theorem append (h : Kept kept calls) (h' : Kept kept' calls') :
    Kept (kept ++ kept') (calls ++ calls') := by
  induction h with
  | @nil calls =>
    induction calls with
    | nil => exact h'
    | cons c calls ih => exact .drop ih
  | cons hdc _ ih => exact .cons hdc ih
  | drop _ ih => exact .drop ih

theorem of_sublist (h : kept.Sublist calls) : Kept kept calls := by
  induction h with
  | slnil => exact .nil
  | cons _ _ ih => exact .drop ih
  | cons_cons c _ ih => exact .cons c.cutOf_refl ih

/-- Calls are cut alike, whether or not they are looked through for some that
a cut does not change. -/
theorem filter {p : Call → Bool} (h : Kept kept calls)
    (hp : ∀ d c : Call, d.CutOf c → p d = p c) :
    Kept (kept.filter p) (calls.filter p) := by
  induction h with
  | nil => exact .nil
  | @cons d c _ _ hdc _ ih =>
    rw [List.filter_cons, List.filter_cons, hp d c hdc]
    split
    · exact .cons hdc ih
    · exact ih
  | @drop c _ _ _ ih =>
    rw [List.filter_cons]
    split
    · exact .drop ih
    · exact ih

/-- Each call that is left is one of the calls, which may be cut. -/
theorem exists_of_mem {d : Call} (h : Kept kept calls) (hd : d ∈ kept) :
    ∃ c ∈ calls, d.CutOf c := by
  induction h with
  | nil => cases hd
  | @cons d' c _ _ hdc _ ih =>
    rcases List.mem_cons.mp hd with rfl | hd
    · exact ⟨c, List.mem_cons_self, hdc⟩
    · obtain ⟨c', hc', hdc'⟩ := ih hd
      exact ⟨c', List.mem_cons_of_mem c hc', hdc'⟩
  | @drop c _ _ _ ih =>
    obtain ⟨c', hc', hdc'⟩ := ih hd
    exact ⟨c', List.mem_cons_of_mem c hc', hdc'⟩

end Kept

end Call

/-! ## Courses -/

/-- What happens until something has ended. -/
structure Course where
  finish : Moment
  calls : List Call := []
  /-- When a handler first asks for the cancellation of the expansion. -/
  cancels : Option Moment := none
  /-- A text was met that stands deeper than texts may. -/
  exceeds : Bool := false
deriving Inhabited

namespace Course

/-- What happens, and then something else. -/
def append (earlier later : Course) : Course where
  finish := later.finish
  calls := earlier.calls ++ later.calls
  cancels := Moment.earliest? earlier.cancels later.cancels
  exceeds := earlier.exceeds || later.exceeds

/-- The course, as it is for someone who goes on at a moment. -/
def endingAt (m : Moment) (k : Course) : Course :=
  { k with finish := m }

/-- **A part of a course**, up to a cut: some of its calls, which may be
cut, and it asks for a cancellation or meets the limit for depth only if the
whole does. -/
structure Within (k whole : Course) : Prop where
  calls : Call.Kept k.calls whole.calls
  cancels : ∀ m : Moment, m.NotAfter whole.cancels → m.NotAfter k.cancels
  exceeds : k.exceeds = true → whole.exceeds = true

namespace Within

variable {k whole : Course}

theorem refl (k : Course) : k.Within k :=
  ⟨.refl _, fun _ h => h, id⟩

/-- When something ends does not matter for what happens. -/
theorem endingAt {m : Moment} (h : k.Within whole) :
    k.Within (whole.endingAt m) :=
  ⟨h.calls, h.cancels, h.exceeds⟩

/-- Nothing is a part of everything. -/
theorem nothing (m : Moment) (whole : Course) :
    Within { finish := m } whole :=
  ⟨.nil, fun _ _ => Moment.notAfter_none _, fun h => nomatch h⟩

/-- What happens first is a part of everything. -/
theorem append_right (h : k.Within whole) (later : Course) :
    k.Within (whole.append later) where
  calls := by
    have := h.calls.append (.nil : Call.Kept [] later.calls)
    rwa [List.append_nil] at this
  cancels := fun m hm => h.cancels m (Moment.notAfter_earliest?.mp hm).1
  exceeds := fun hk => Bool.or_eq_true_iff.mpr (.inl (h.exceeds hk))

theorem append_left (earlier : Course) (h : k.Within whole) :
    (earlier.append k).Within (earlier.append whole) where
  calls := (Call.Kept.refl _).append h.calls
  cancels := fun m hm => by
    have hm := Moment.notAfter_earliest?.mp hm
    exact Moment.notAfter_earliest?.mpr ⟨hm.1, h.cancels m hm.2⟩
  exceeds := fun hk => Bool.or_eq_true_iff.mpr
    ((Bool.or_eq_true_iff.mp hk).imp id h.exceeds)

end Within

end Course

/-! ## Cuts -/

/-- A cut: when it is made, and whether that is before what is due at
that moment, or behind it. -/
structure Cut where
  moment : Moment
  first : Bool := false
deriving DecidableEq, Repr, Inhabited

namespace Cut

variable {c d : Cut} {due due' : Moment}

instance : LE Cut where
  le c d :=
    c.moment < d.moment
      ∨ c.moment = d.moment ∧ (d.first = true → c.first = true)

theorem le_def :
    c ≤ d ↔ c.moment < d.moment
      ∨ c.moment = d.moment ∧ (d.first = true → c.first = true) :=
  Iff.rfl

theorem moment_le_of_le (h : c ≤ d) : c.moment ≤ d.moment := by
  rcases h with h | ⟨h, -⟩
  · exact Moment.le_of_lt h
  · exact h ▸ Moment.le_refl _

theorem le_refl (c : Cut) : c ≤ c := .inr ⟨rfl, id⟩

/-- What is due at a moment does not happen any more. -/
def Precedes (c : Cut) (due : Moment) : Prop :=
  c.moment < due ∨ c.first = true ∧ c.moment = due

instance (c : Cut) (due : Moment) : Decidable (c.Precedes due) :=
  inferInstanceAs (Decidable (_ ∨ _))

theorem Precedes.moment_le (h : c.Precedes due) : c.moment ≤ due := by
  rcases h with h | ⟨-, h⟩
  · exact Moment.le_of_lt h
  · exact h ▸ Moment.le_refl _

theorem Precedes.of_le (h : d.Precedes due) (hcd : c ≤ d) :
    c.Precedes due := by
  simp only [Precedes, le_def, Moment.lt_def, Moment.ext_iff] at *
  grind

theorem Precedes.mono (h : c.Precedes due) (hd : due ≤ due') :
    c.Precedes due' := by
  simp only [Precedes, Moment.le_def, Moment.lt_def, Moment.ext_iff] at *
  grind

/-- A cut that comes too late for what is due is behind it. -/
theorem le_moment_of_not_precedes (h : ¬c.Precedes due) : due ≤ c.moment := by
  simp only [Precedes, Moment.le_def, Moment.lt_def, not_or] at *
  omega

/-- What precedes the moment of a cut is cut sooner. -/
theorem le_of_precedes (h : c.Precedes d.moment) :
    c ≤ d := by
  rcases h with h | ⟨hf, h⟩
  · exact .inl h
  · exact .inr ⟨h, fun _ => hf⟩

/-- When a cut reaches a task that waits for something: in the step that
follows, unless what it waits for is due by then. -/
def arrival (c : Cut) (due : Moment) : Moment :=
  c.moment.next.earlier due

/-- The cut as a task that waits for something passes it on. A task that
would go on just then anyway does so before the others do. -/
def passed (c : Cut) (due : Moment) : Cut where
  moment := c.arrival due
  first := c.first || decide (c.arrival due = due)

theorem instant_arrival (h : c.moment ≤ due) :
    (c.arrival due).instant = c.moment.instant := by
  unfold arrival Moment.earlier
  split
  · rfl
  · simp only [Moment.le_def, Moment.next, Moment.skip] at *
    omega

theorem le_arrival (h : c.moment ≤ due) : c.moment ≤ c.arrival due := by
  unfold arrival Moment.earlier
  split
  · exact c.moment.le_next
  · exact h

theorem arrival_le (c : Cut) (due : Moment) : c.arrival due ≤ due :=
  c.moment.next.earlier_le_right due

/-- A cut reaches whoever goes on only then behind what it did not precede. -/
theorem lt_arrival (h : ¬c.Precedes due) (h' : c.Precedes due') :
    due < c.arrival due' := by
  simp only [Precedes, arrival, Moment.earlier, Moment.le_def, Moment.lt_def,
    Moment.ext_iff, Moment.next, Moment.skip] at *
  split <;> grind

theorem arrival_eq_or (c : Cut) (due : Moment) :
    c.arrival due = c.moment.next ∨ c.arrival due = due :=
  Moment.earlier_eq_or _ _

theorem arrival_mono (h : c.moment ≤ d.moment) (due : Moment) :
    c.arrival due ≤ d.arrival due :=
  Moment.le_earlier (Moment.le_trans (c.moment.next.earlier_le_left due)
    (Moment.next_mono h)) (c.arrival_le due)

theorem le_passed (h : c.Precedes due) : c ≤ c.passed due := by
  have hle := le_arrival h.moment_le
  rcases Moment.lt_or_eq_of_le hle with hlt | heq
  · exact .inl hlt
  · refine .inr ⟨heq, fun hf => ?_⟩
    simp only [passed, Bool.or_eq_true, decide_eq_true_eq] at hf
    rcases hf with hf | hf
    · exact hf
    · -- what is due at the moment of the cut itself is kept from happening
      rw [← heq] at hf
      rcases h with h | h
      · exact absurd (hf ▸ h) (Moment.lt_irrefl _)
      · exact h.1

theorem passed_mono (h : c ≤ d) (due : Moment) :
    c.passed due ≤ d.passed due := by
  rcases Moment.lt_or_eq_of_le (arrival_mono (moment_le_of_le h) due) with
    hlt | heq
  · exact .inl hlt
  · refine .inr ⟨heq, fun hf => ?_⟩
    simp only [passed, Bool.or_eq_true, decide_eq_true_eq] at hf ⊢
    by_cases hd : c.arrival due = due
    · exact .inr hd
    · rcases hf with hf | hf
      · rcases h with h | ⟨-, h⟩
        · have hc := (c.arrival_eq_or due).resolve_right hd
          have hd := (d.arrival_eq_or due).resolve_right (heq ▸ hd)
          have hnext := hc.symm.trans (heq.trans hd)
          rw [Moment.next_inj.mp hnext] at h
          exact absurd h (Moment.lt_irrefl _)
        · exact .inl (h hf)
      · exact absurd (heq.trans hf) hd

/-- A cut that is passed on comes before any other one that is made when
that is due. -/
theorem passed_le (c : Cut) (h : due = d.moment) : c.passed due ≤ d := by
  rcases Moment.lt_or_eq_of_le (c.arrival_le due) with hlt | heq
  · exact .inl (h ▸ hlt)
  · exact .inr ⟨heq.trans h, fun _ => by simp [passed, heq]⟩

end Cut

/-! ## Ways to be cut -/

/-- **The courses something takes when it is cut fit together**: each goes
on to the cut and ends at its instant, and each is a part of the whole
course, and of those that are cut later. -/
structure Stops (whole : Course) (stop : Cut → Course) : Prop where
  moment_le : ∀ {c : Cut}, c.Precedes whole.finish →
    c.moment ≤ (stop c).finish
  instant_eq : ∀ {c : Cut}, c.Precedes whole.finish →
    (stop c).finish.instant = c.moment.instant
  within : ∀ {c : Cut}, c.Precedes whole.finish → (stop c).Within whole
  mono : ∀ {c d : Cut}, c ≤ d → d.Precedes whole.finish →
    (stop c).Within (stop d)

namespace Stops

/-- What only waits ends when it is told of the cut. -/
theorem waiting (k : Course) :
    Stops k fun c => { finish := c.arrival k.finish } where
  moment_le h := Cut.le_arrival h.moment_le
  instant_eq h := Cut.instant_arrival h.moment_le
  within _ := .nothing _ k
  mono _ _ := .nothing _ _

/-- What is done after something else is cut in that, or in itself. -/
theorem append {earlier later : Course} {stop stop' : Cut → Course}
    (h : Stops earlier stop) (h' : Stops later stop') :
    Stops (earlier.append later) fun c =>
      if c.Precedes earlier.finish then stop c
      else earlier.append (stop' c) where
  moment_le {c} hc := by
    split
    · next he => exact h.moment_le he
    · exact h'.moment_le hc
  instant_eq {c} hc := by
    split
    · next he => exact h.instant_eq he
    · exact h'.instant_eq hc
  within {c} hc := by
    split
    · next he => exact (h.within he).append_right later
    · exact (h'.within hc).append_left earlier
  mono {c d} hcd hd := by
    split
    · next hc =>
      split
      · next hd => exact h.mono hcd hd
      · exact (h.within hc).append_right _
    · next hc =>
      rw [if_neg fun hd => hc (hd.of_le hcd)]
      exact (h'.mono hcd hd).append_left earlier

/-- What is over when something is due, and then only takes some steps to
end, cannot be cut any more from then on. -/
theorem settled {k : Course} {due : Moment} {stop : Cut → Course}
    (h : Stops (k.endingAt due) stop)
    (hi : k.finish.instant = due.instant) :
    Stops k fun c => if c.Precedes due then stop c else k where
  moment_le {c} hc := by
    split
    · next hd => exact h.moment_le hd
    · exact hc.moment_le
  instant_eq {c} hc := by
    split
    · next hd => exact h.instant_eq hd
    · next hd =>
      have hlo := Moment.instant_le (Cut.le_moment_of_not_precedes hd)
      have hhi := Moment.instant_le hc.moment_le
      omega
  within {c} hc := by
    split
    · next hd =>
      exact ⟨(h.within hd).calls, (h.within hd).cancels, (h.within hd).exceeds⟩
    · exact .refl k
  mono {c d} hcd hd := by
    split
    · next hc =>
      split
      · next hd => exact h.mono hcd hd
      · exact ⟨(h.within hc).calls, (h.within hc).cancels,
          (h.within hc).exceeds⟩
    · next hc =>
      rw [if_neg fun hd => hc (hd.of_le hcd)]
      exact .refl k

/-- What is done inside a call is cut together with it. -/
theorem inside {whole : Course} {stop : Cut → Course} (h : Stops whole stop)
    (self : Call) :
    Stops { whole with calls := { self with left := whole.finish } :: whole.calls }
      fun c =>
        { stop c with calls := self.cutAt c.moment :: (stop c).calls } where
  moment_le hc := h.moment_le hc
  instant_eq hc := h.instant_eq hc
  within hc :=
    ⟨.cons (.inr ⟨_, hc.moment_le, rfl⟩) (h.within hc).calls,
      (h.within hc).cancels, (h.within hc).exceeds⟩
  mono hcd hd :=
    ⟨.cons (.inr ⟨_, Cut.moment_le_of_le hcd, rfl⟩) (h.mono hcd hd).calls,
      (h.mono hcd hd).cancels, (h.mono hcd hd).exceeds⟩

/-- What has been cut can still be cut sooner. -/
theorem cut {whole : Course} {stop : Cut → Course} (h : Stops whole stop)
    {c : Cut} (hc : c.Precedes whole.finish) :
    Stops ((stop c).endingAt c.moment) stop where
  moment_le hd := h.moment_le (hc.of_le (Cut.le_of_precedes hd))
  instant_eq hd := h.instant_eq (hc.of_le (Cut.le_of_precedes hd))
  within hd := (h.mono (Cut.le_of_precedes hd) hc).endingAt
  mono hde he := h.mono hde (hc.of_le (Cut.le_of_precedes he))

end Stops

end Shortcode
