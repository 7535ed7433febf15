import Shortcode.Expansion

/-!
# Runs that are cut

What becomes of a run when it is cut (`Run.upTo`) is said where the run is
made. Here it is said for each way to make one run of others how the courses
of the whole are those of its parts: a run behind another one is cut in the
first or in the second, a task that waits for a run passes the cut on, and a
run that is over at a moment cannot be cut any more.

A cut that is passed on comes a little later, but never in another order
(`Cut.clamp_mono`). So whatever holds between two cuts of a run holds between
two cuts of a task that waits for it, and it is enough to know that the task
gets one of the courses of the run (`Run.exists_upTo_waitedFor`).

What is to be said of all calls of a run, in whatever way it is cut, is for
most purposes enough to be known of the run when nobody interferes: a call
that is left is one of those, and only the end of it can be another one
(`Run.exists_of_mem_upTo`).
-/

namespace Shortcode

/-! ## Moments -/

namespace Moment

variable {a b c : Moment}

theorem le_skip_of_le (h : a ≤ b) (steps : Nat) : a ≤ b.skip steps :=
  le_trans h (b.le_skip steps)

theorem skip_mono (h : a ≤ b) (steps : Nat) : a.skip steps ≤ b.skip steps := by
  simp only [le_def, skip] at *
  omega

theorem eq_none_of_notAfter {m : Option Moment}
    (h : ∀ a : Moment, a.NotAfter m) : m = none := by
  cases m with
  | none => rfl
  | some b => exact absurd (h b.next b rfl) (not_le.mpr (lt_next_iff.mpr b.le_refl))

end Moment

/-! ## Cuts -/

namespace Cut

variable {c d : Cut} {due : Moment}

/-- The cut as it is for something that is over when something else is due:
passed on before, and too late afterwards. -/
def clamp (due : Moment) (c : Cut) : Cut :=
  if c.Precedes due then c.passed due else ⟨due, true⟩

theorem clamp_of_precedes (h : c.Precedes due) :
    c.clamp due = c.passed due :=
  if_pos h

theorem clamp_of_not_precedes (h : ¬c.Precedes due) :
    c.clamp due = ⟨due, true⟩ :=
  if_neg h

/-- Cuts are passed on in order. -/
theorem clamp_mono (h : c ≤ d) (due : Moment) : c.clamp due ≤ d.clamp due := by
  by_cases hd : d.Precedes due
  · rw [clamp_of_precedes hd, clamp_of_precedes (hd.of_le h)]
    exact passed_mono h due
  · rw [clamp_of_not_precedes hd]
    unfold clamp
    split
    · exact passed_le c rfl
    · exact le_refl _

theorem earlier_le_clamp (c : Cut) (due : Moment) :
    c.moment.earlier due ≤ (c.clamp due).moment := by
  unfold clamp
  split
  · next h =>
    exact Moment.le_trans (c.moment.earlier_le_left due)
      (le_arrival h.moment_le)
  · exact c.moment.earlier_le_right due

/-- A cut that comes before something is due reaches who waits for it in the
step that follows. -/
theorem arrival_of_lt (h : c.moment < due) : c.arrival due = c.moment.next :=
  if_pos (Moment.next_le_iff.mpr h)

/-- What goes on only later passes the cut on in the step that follows. -/
theorem passed_of_lt (h : c.moment.next < due) :
    c.passed due = ⟨c.moment.next, c.first⟩ := by
  have harrival : c.arrival due = c.moment.next :=
    if_pos (Moment.le_of_lt h)
  have hne : c.moment.next ≠ due := by
    rintro rfl
    exact Moment.lt_irrefl _ h
  simp [passed, harrival, hne]

/-- What precedes something else is not due yet. -/
theorem not_precedes_of_le (h : due ≤ c.moment) (hf : c.first = false) :
    ¬c.Precedes due := by
  rintro (hc | ⟨hc, -⟩)
  · exact Moment.not_lt.mpr h hc
  · simp [hf] at hc

/-- **What a cut leaves of a request**: the request itself, unless the cut
precedes it, and never an earlier one. -/
structure Leaves (c : Cut) (k whole : Option Moment) : Prop where
  later : ∀ m : Moment, m.NotAfter whole → m.NotAfter k
  kept : k = whole ∨ ∀ m, whole = some m → c.Precedes m

namespace Leaves

variable {k whole k' whole' : Option Moment}

theorem refl (c : Cut) (m : Option Moment) : c.Leaves m m :=
  ⟨fun _ h => h, .inl rfl⟩

theorem mono (h : d.Leaves k whole) (hcd : c ≤ d) : c.Leaves k whole :=
  ⟨h.later, h.kept.imp_right fun h m hm => (h m hm).of_le hcd⟩

/-- A cut that precedes a request may leave nothing. -/
theorem nothing (h : ∀ m, whole = some m → c.Precedes m) :
    c.Leaves none whole :=
  ⟨fun _ _ => Moment.notAfter_none _, .inr h⟩

theorem eq_none (h : c.Leaves k none) : k = none :=
  Moment.eq_none_of_notAfter fun m => h.later m m.notAfter_none

/-- Of two requests the earlier one counts, in what is left as in the
whole. -/
theorem earliest? (h : c.Leaves k whole) (h' : c.Leaves k' whole') :
    c.Leaves (Moment.earliest? k k') (Moment.earliest? whole whole') where
  later m hm := by
    have hm := Moment.notAfter_earliest?.mp hm
    exact Moment.notAfter_earliest?.mpr ⟨h.later m hm.1, h'.later m hm.2⟩
  kept := by
    cases whole with
    | none =>
      rw [h.eq_none]
      cases whole' with
      | none => rw [h'.eq_none]; exact .inl rfl
      | some b => cases k' <;> exact h'.kept
    | some a =>
      cases whole' with
      | none =>
        rw [h'.eq_none]
        cases k <;> exact h.kept
      | some b =>
        have ha := h.later a (Moment.notAfter_some.mpr a.le_refl)
        have hb := h'.later b (Moment.notAfter_some.mpr b.le_refl)
        by_cases hab : a ≤ b
        · -- the first request is the one that counts
          have hearlier : Moment.earliest? (some a) (some b) = some a :=
            congrArg some (if_pos hab)
          rw [hearlier]
          refine h.kept.imp (fun hk => ?_) id
          subst hk
          cases k' with
          | none => rfl
          | some b' =>
            have hle := Moment.le_trans hab (Moment.notAfter_some.mp hb)
            exact congrArg some (if_pos hle)
        · have hearlier : Moment.earliest? (some a) (some b) = some b :=
            congrArg some (if_neg hab)
          have hba := Moment.not_le.mp hab
          rw [hearlier]
          refine h'.kept.imp (fun hk => ?_) id
          subst hk
          cases k with
          | none => rfl
          | some a' =>
            have hlt := Moment.lt_of_lt_of_le hba (Moment.notAfter_some.mp ha)
            exact congrArg some (if_neg (Moment.not_le.mpr hlt))

/-- What is left of a request after a cut, and after a later one. -/
theorem of_le (h : c.Leaves k whole) (h' : d.Leaves k' whole)
    (hcd : c ≤ d) (hk : ∀ m : Moment, m.NotAfter k' → m.NotAfter k) :
    c.Leaves k k' where
  later := hk
  kept := by
    rcases h'.kept with rfl | hd
    · exact h.kept
    · refine .inr fun m hm => ?_
      cases hw : whole with
      | none =>
        rw [hw] at h'
        rw [h'.eq_none] at hm
        cases hm
      | some a =>
        have ha : a ≤ m := h'.later a
          (by rw [hw]; exact Moment.notAfter_some.mpr a.le_refl) m hm
        exact ((hd a hw).of_le hcd).mono ha

theorem foldl {ι : Type} {xs : List ι} {f g : ι → Course}
    (h : ∀ x ∈ xs, c.Leaves (f x).cancels (g x).cancels)
    (hfirst : c.Leaves k whole) :
    c.Leaves ((xs.map f).foldl (fun m k => Moment.earliest? m k.cancels) k)
      ((xs.map g).foldl (fun m k => Moment.earliest? m k.cancels) whole) := by
  induction xs generalizing k whole with
  | nil => exact hfirst
  | cons x xs ih =>
    obtain ⟨hx, hrest⟩ := List.forall_mem_cons.mp h
    exact ih hrest (hfirst.earliest? hx)

end Leaves

end Cut

/-! ## Runs -/

namespace Run

variable {α β : Type} {r : Run α} {c d : Cut}

theorem upTo_finish (r : Run α) : r.upTo ⟨r.finish, false⟩ = r.whole :=
  upTo_of_not_precedes (Cut.not_precedes_of_le r.finish.le_refl rfl)

/-- **Each call that is left** of a run is one of its calls, which may be
cut. -/
theorem exists_of_mem_upTo {x : Call} (h : x ∈ (r.upTo c).calls) :
    ∃ y ∈ r.calls, x.CutOf y :=
  (r.within_upTo c).calls.exists_of_mem h

theorem moment_le_upTo (h : c.Precedes r.finish) :
    c.moment ≤ (r.upTo c).finish := by
  rw [upTo_of_precedes h]
  exact r.stops.moment_le h

theorem upTo_now_of_precedes {m : Moment} {o : Outcome α}
    (h : c.Precedes m) : (now m o).upTo c = { finish := c.arrival m } :=
  upTo_of_precedes (r := now m o) h

/-- What is left of a run behind another one, whenever they end. -/
theorem upTo_after (r : Run α) (r' : Run β) (c : Cut) :
    (r.after r').upTo c
      = if c.Precedes r'.finish ∧ c.Precedes r.finish then r.upTo c
        else r.whole.append (r'.upTo c) := by
  by_cases h' : c.Precedes r'.finish
  · have hstop := upTo_of_precedes (r := r.after r') h'
    by_cases h : c.Precedes r.finish
    · rw [if_pos ⟨h', h⟩, upTo_of_precedes h]
      exact hstop.trans (if_pos h)
    · rw [if_neg fun hboth => h hboth.2, upTo_of_precedes h']
      exact hstop.trans (if_neg h)
  · rw [if_neg fun hboth => h' hboth.1, upTo_of_not_precedes h']
    exact upTo_of_not_precedes (r := r.after r') h'

/-- A run behind another one is cut in that one, or in itself. -/
theorem upTo_after_of_precedes {r' : Run β} (h : c.Precedes r.finish)
    (hle : r.finish ≤ r'.finish) : (r.after r').upTo c = r.upTo c := by
  rw [upTo_of_precedes h]
  exact (upTo_of_precedes (r := r.after r') (h.mono hle)).trans (if_pos h)

theorem upTo_after_of_not_precedes {r' : Run β} (h : ¬c.Precedes r.finish) :
    (r.after r').upTo c = r.whole.append (r'.upTo c) := by
  by_cases hc : c.Precedes r'.finish
  · rw [upTo_of_precedes hc]
    exact (upTo_of_precedes (r := r.after r') hc).trans (if_neg h)
  · rw [upTo_of_not_precedes hc]
    exact upTo_of_not_precedes (r := r.after r') hc

section

variable (start : Moment) (r : Run α)

@[simp] theorem finish_behind : (r.behind start).finish = r.finish := rfl

@[simp] theorem outcome_behind : (r.behind start).outcome = r.outcome := rfl

@[simp] theorem cancels_behind : (r.behind start).cancels = r.cancels := rfl

end

/-- A task that waits until a moment has nothing to be cut before. -/
theorem upTo_behind_of_precedes {start : Moment} (h : c.Precedes start)
    (hle : start ≤ r.finish) :
    (r.behind start).upTo c = { finish := c.arrival start } :=
  (upTo_after_of_precedes (r := now start (.returned ())) h hle).trans
    (upTo_now_of_precedes h)

theorem upTo_behind_of_not_precedes {start : Moment}
    (h : ¬c.Precedes start) : (r.behind start).upTo c = r.upTo c :=
  upTo_after_of_not_precedes (r := now start (.returned ())) h

/-- What is done inside a call is cut together with the call. -/
theorem upTo_inside (self : Call) (r : Run α) (c : Cut) :
    (r.inside self).upTo c
      = { r.upTo c with
          calls := (if c.Precedes r.finish then self.cutAt c.moment
            else { self with left := r.finish }) :: (r.upTo c).calls } := by
  by_cases hc : c.Precedes r.finish
  · rw [upTo_of_precedes hc, if_pos hc]
    exact upTo_of_precedes (r := r.inside self) hc
  · rw [upTo_of_not_precedes hc, if_neg hc]
    exact upTo_of_not_precedes (r := r.inside self) hc

section

variable {k : Course} {o : Outcome α} {due : Moment} {stop : Cut → Course}
  {stops : Stops (k.endingAt due) stop}
  {hi : k.finish.instant = due.instant}

theorem upTo_settled : (settled k o due stop stops hi).upTo c
    = if c.Precedes k.finish ∧ c.Precedes due then stop c else k := by
  by_cases hc : c.Precedes k.finish
  · have hstop := upTo_of_precedes (r := settled k o due stop stops hi) hc
    by_cases hdue : c.Precedes due
    · exact hstop.trans ((if_pos hdue).trans (if_pos ⟨hc, hdue⟩).symm)
    · exact hstop.trans ((if_neg hdue).trans
        (if_neg fun h => hdue h.2).symm)
  · rw [if_neg fun h => hc h.1]
    exact upTo_of_not_precedes (r := settled k o due stop stops hi) hc

theorem settled_congr {k' : Course} {o' : Outcome α} {due' : Moment}
    {stop' : Cut → Course} {stops' : Stops (k'.endingAt due') stop'}
    {hi' : k'.finish.instant = due'.instant} (hk : k' = k) (ho : o' = o)
    (hdue : due' = due)
    (hstop : ∀ c : Cut, c.Precedes due → stop' c = stop c) :
    settled k' o' due' stop' stops' hi' = settled k o due stop stops hi := by
  subst hk ho hdue
  unfold settled
  congr 1
  funext c
  exact ite_congr rfl (hstop c) fun _ => rfl

/-- What is over when something is due can only be cut before. -/
theorem upTo_settled_of_precedes (h : c.Precedes due) (hle : due ≤ k.finish) :
    (settled k o due stop stops hi).upTo c = stop c :=
  upTo_settled.trans (if_pos ⟨h.mono hle, h⟩)

theorem upTo_settled_of_not_precedes (h : ¬c.Precedes due) :
    (settled k o due stop stops hi).upTo c = k :=
  upTo_settled.trans (if_neg fun hboth => h hboth.2)

end

/-! ## Tasks that wait -/

/-- A task that is cut before its run has ended has the run cut, and hears of
the end of it. -/
theorem relay_of_precedes {due : Moment}
    (h : (c.passed due).Precedes r.finish) :
    r.relay due c = (r.upTo (c.passed due)).endingAt
      ((r.upTo (c.passed due)).finish.skip hearing) := by
  rw [upTo_of_precedes h]
  exact if_pos h

/-- A task that waits for a run gets one of the courses of the run, and goes
on at the instant at which that ends. -/
theorem exists_relay (r : Run α) (due : Moment)
    (hdue : due.instant ≤ r.finish.instant) (c : Cut) :
    ∃ m, r.relay due c = (r.upTo (c.passed due)).endingAt m
      ∧ (r.upTo (c.passed due)).finish ≤ m
      ∧ m.instant = (r.upTo (c.passed due)).finish.instant := by
  unfold relay upTo
  dsimp only
  split
  · exact ⟨_, rfl, Moment.le_skip _ _, rfl⟩
  · next h =>
    have hle := Cut.le_moment_of_not_precedes h
    refine ⟨_, rfl, hle, Nat.le_antisymm ?_ (Moment.instant_le hle)⟩
    exact Nat.le_trans (Moment.instant_le (c.arrival_le due)) hdue

theorem upTo_heard_of_precedes (h : c.Precedes (r.finish.skip hearing)) :
    r.heard.upTo c = r.relay (r.finish.skip hearing) c :=
  upTo_of_precedes (r := r.heard) h

theorem upTo_heard_of_not_precedes
    (h : ¬c.Precedes (r.finish.skip hearing)) :
    r.heard.upTo c = r.whole.endingAt (r.finish.skip hearing) :=
  upTo_of_not_precedes (r := r.heard) h

/-- What is cut when its time is up does not end before. -/
theorem due_le_overdueCourse {due : Moment} (h : due ≤ r.finish) :
    due ≤ (r.overdueCourse due).finish := by
  have hc : Cut.Precedes ⟨due, true⟩ r.finish :=
    (Moment.lt_or_eq_of_le h).imp id fun h => ⟨rfl, h⟩
  exact Moment.le_skip_of_le (moment_le_upTo hc) hearing

theorem due_le_finish {now : Moment} {time : Nat} (hle : now.next ≤ r.finish)
    (h : ¬r.finish.instant < now.instant + time) :
    now.later time ≤ r.finish := by
  unfold Moment.later
  split
  · exact hle
  · simp only [Moment.le_def]
    omega

theorem exists_upTo_heard (r : Run α) (c : Cut) :
    ∃ m, r.heard.upTo c
        = (r.upTo (c.clamp (r.finish.skip hearing))).endingAt m
      ∧ (r.upTo (c.clamp (r.finish.skip hearing))).finish ≤ m
      ∧ m.instant
        = (r.upTo (c.clamp (r.finish.skip hearing))).finish.instant := by
  by_cases hc : c.Precedes (r.finish.skip hearing)
  · rw [Cut.clamp_of_precedes hc, upTo_heard_of_precedes hc]
    exact r.exists_relay (r.finish.skip hearing) (Nat.le_refl _) c
  · -- the run has ended by then
    have hlate : ¬Cut.Precedes ⟨r.finish.skip hearing, true⟩ r.finish := by
      have hlt : r.finish < r.finish.skip hearing :=
        r.finish.lt_skip (by decide)
      exact fun h => Moment.not_lt.mpr h.moment_le hlt
    rw [Cut.clamp_of_not_precedes hc, upTo_heard_of_not_precedes hc,
      upTo_of_not_precedes hlate]
    exact ⟨_, rfl, Moment.le_skip _ _, rfl⟩

theorem exists_upTo_overdue {due : Moment} (hdue : due ≤ r.finish)
    (late : Outcome α) (c : Cut) :
    ∃ m, (r.overdue due late (Moment.instant_le hdue)).upTo c
        = (r.upTo (c.clamp due)).endingAt m
      ∧ (r.upTo (c.clamp due)).finish ≤ m
      ∧ m.instant = (r.upTo (c.clamp due)).finish.instant := by
  unfold overdue
  by_cases hc : c.Precedes due
  · rw [Cut.clamp_of_precedes hc,
      upTo_settled_of_precedes hc (due_le_overdueCourse hdue)]
    exact r.exists_relay due (Moment.instant_le hdue) c
  · rw [Cut.clamp_of_not_precedes hc, upTo_settled_of_not_precedes hc]
    exact ⟨_, rfl, Moment.le_skip _ _, rfl⟩

/-- The moment up to which a task that waits for a run can be cut. -/
def due (now : Moment) (time : Nat) (r : Run α) : Moment :=
  if r.finish.instant < now.instant + time then r.finish.skip hearing
  else now.later time

/-- **A task that waits for a run gets one of its courses**, whether it is
cut or not. -/
theorem exists_upTo_waitedFor {now : Moment} (hle : now.next ≤ r.finish)
    (time : Nat) (late : Outcome α) (c : Cut) :
    ∃ m, (r.waitedFor now time late).upTo c
        = ((r.behind now.next).upTo (c.clamp (r.due now time))).endingAt m
      ∧ ((r.behind now.next).upTo (c.clamp (r.due now time))).finish ≤ m
      ∧ m.instant = ((r.behind now.next).upTo
          (c.clamp (r.due now time))).finish.instant := by
  unfold waitedFor due
  split
  · exact (r.behind now.next).exists_upTo_heard c
  · next h =>
    exact exists_upTo_overdue (r := r.behind now.next) (due_le_finish hle h)
      late c

/-- Whatever a task that waits does, it is one of the courses of the run. -/
theorem exists_whole_waitedFor {now : Moment} (hle : now.next ≤ r.finish)
    (time : Nat) (late : Outcome α) :
    ∃ c m, (r.waitedFor now time late).whole
        = ((r.behind now.next).upTo c).endingAt m
      ∧ ((r.behind now.next).upTo c).finish ≤ m := by
  obtain ⟨m, hm, hfinish, -⟩ := exists_upTo_waitedFor hle time late
    ⟨(r.waitedFor now time late).finish, false⟩
  rw [upTo_finish] at hm
  exact ⟨_, m, hm, hfinish⟩

/-- A task that waits for a run makes what is left of its calls. -/
theorem kept_waitedFor (r : Run α) (now : Moment) (time : Nat)
    (late : Outcome α) :
    Call.Kept (r.waitedFor now time late).calls r.calls := by
  unfold waitedFor
  split
  · exact .refl _
  · exact ((r.behind now.next).within_upTo _).calls

theorem outcome_waitedFor (r : Run α) (now : Moment) (time : Nat)
    (late : Outcome α) : (r.waitedFor now time late).outcome
      = if r.finish.instant < now.instant + time then r.outcome else late := by
  unfold waitedFor
  split <;> rfl

theorem le_due {now : Moment} (hle : now.next ≤ r.finish) (time : Nat) :
    now ≤ r.due now time := by
  unfold due
  split
  · exact Moment.le_skip_of_le (Moment.le_trans now.le_next hle) hearing
  · exact now.le_later time

theorem le_finish_waitedFor {now : Moment} (hle : now.next ≤ r.finish)
    (time : Nat) (late : Outcome α) :
    now ≤ (r.waitedFor now time late).finish := by
  unfold waitedFor
  split
  · exact Moment.le_skip_of_le (Moment.le_trans now.le_next hle) hearing
  · next h =>
    exact Moment.le_trans (now.le_later time)
      (due_le_overdueCourse (r := r.behind now.next) (due_le_finish hle h))

end Run

end Shortcode
