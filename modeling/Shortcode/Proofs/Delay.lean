import Mathlib.Data.List.Forall2
import Shortcode.Proofs.Cuts

/-!
# Starting later

What an expansion does does not depend on when it starts. Started at
another moment it does the same, at moments that are moved by as much:
`Session.delayed_expand`. Requests for its cancellation have to be moved
with it, and so have cuts.

A moment is an instant and a step within it, and the steps count from the
beginning of each instant. A run that starts at some moment of an instant
therefore has its first instant moved by that moment's step, and the later
ones not: whoever wakes up then is the first to do so. This is
`Moment.delay`. It keeps the order of moments, and it commutes with all
that is done with them.

Two runs are compared by what is left of them after a cut (`Run.Delayed`).
It is not possible to say what the one is of the other. There are cuts
before the later run starts, and none of the earlier run that they come of.
So the rest of this module carries the comparison from runs to what is made
of them, in the order in which an expansion is made.
-/

namespace Shortcode

/-! ## Moments -/

namespace Moment

/-- The moment of a run that starts at `start`, told by the moment of the
run that starts at the very beginning. -/
def delay (start m : Moment) : Moment :=
  if m.instant = 0 then ⟨start.instant, start.step + m.step⟩
  else ⟨start.instant + m.instant, m.step⟩

variable {start a b : Moment}

@[simp] theorem instant_delay (start m : Moment) :
    (start.delay m).instant = start.instant + m.instant := by
  unfold delay
  split
  · next h => simp [h]
  · rfl

/-- **The order of moments stays.** -/
@[simp] theorem delay_le_iff : start.delay a ≤ start.delay b ↔ a ≤ b := by
  unfold delay
  simp only [le_def]
  split <;> split <;> dsimp only <;> omega

@[simp] theorem delay_lt_iff : start.delay a < start.delay b ↔ a < b := by
  rw [← not_le, ← not_le, delay_le_iff]

@[simp] theorem delay_inj : start.delay a = start.delay b ↔ a = b := by
  constructor
  · intro h
    have hle : start.delay a ≤ start.delay b := h ▸ le_refl _
    have hge : start.delay b ≤ start.delay a := h ▸ le_refl _
    exact le_antisymm (delay_le_iff.mp hle) (delay_le_iff.mp hge)
  · rintro rfl
    rfl

@[simp] theorem delay_skip (start m : Moment) (steps : Nat) :
    start.delay (m.skip steps) = (start.delay m).skip steps := by
  unfold delay skip
  dsimp only
  split
  · rw [Nat.add_assoc]
  · rfl

@[simp] theorem delay_next (start m : Moment) :
    start.delay m.next = (start.delay m).next :=
  delay_skip start m 1

@[simp] theorem delay_later (start m : Moment) (time : Nat) :
    start.delay (m.later time) = (start.delay m).later time := by
  unfold later
  split
  · exact delay_next start m
  · next h =>
    rw [instant_delay, delay, if_neg (by dsimp only; omega)]
    dsimp only
    rw [Nat.add_assoc]

@[simp] theorem delay_latter (start a b : Moment) :
    start.delay (a.latter b) = (start.delay a).latter (start.delay b) := by
  unfold latter
  rw [apply_ite (start.delay)]
  simp only [delay_le_iff]

@[simp] theorem delay_earlier (start a b : Moment) :
    start.delay (a.earlier b) = (start.delay a).earlier (start.delay b) := by
  unfold earlier
  rw [apply_ite (start.delay)]
  simp only [delay_le_iff]

@[simp] theorem delay_earliest? (start : Moment) (a b : Option Moment) :
    earliest? (a.map start.delay) (b.map start.delay)
      = (earliest? a b).map start.delay := by
  cases a <;> cases b <;> simp [earliest?]

@[simp] theorem delay_reached (start : Moment) (m : Option Moment)
    (now : Moment) :
    reached (m.map start.delay) (start.delay now) = reached m now := by
  cases m <;> simp [reached]

end Moment

/-! ## Cuts and courses -/

namespace Cut

/-- The cut of a run that starts later. -/
def delay (start : Moment) (c : Cut) : Cut :=
  ⟨start.delay c.moment, c.first⟩

variable {start due : Moment} {c : Cut}

@[simp] theorem moment_delay (start : Moment) (c : Cut) :
    (c.delay start).moment = start.delay c.moment := rfl

@[simp] theorem first_delay (start : Moment) (c : Cut) :
    (c.delay start).first = c.first := rfl

@[simp] theorem delay_precedes :
    (c.delay start).Precedes (start.delay due) ↔ c.Precedes due := by
  simp [Precedes]

@[simp] theorem delay_arrival :
    (c.delay start).arrival (start.delay due)
      = start.delay (c.arrival due) := by
  unfold arrival
  rw [moment_delay, ← Moment.delay_next, Moment.delay_earlier]

@[simp] theorem delay_passed :
    (c.delay start).passed (start.delay due) = (c.passed due).delay start := by
  unfold passed delay
  dsimp only
  rw [show (⟨start.delay c.moment, c.first⟩ : Cut).arrival (start.delay due)
    = start.delay (c.arrival due) from delay_arrival]
  simp

end Cut

/-- The call in a run that starts later. -/
def Call.delay (start : Moment) (c : Call) : Call :=
  { c with
    cleared := start.delay c.cleared
    started := start.delay c.started
    entered := start.delay c.entered
    left := start.delay c.left }

namespace Course

/-- The course of a run that starts later. -/
def delay (start : Moment) (k : Course) : Course where
  finish := start.delay k.finish
  calls := k.calls.map (Call.delay start)
  cancels := k.cancels.map start.delay
  exceeds := k.exceeds

variable {start : Moment}

@[simp] theorem delay_append (start : Moment) (k k' : Course) :
    (k.append k').delay start = (k.delay start).append (k'.delay start) := by
  simp [append, delay]

end Course

/-! ## Runs -/

/-- **A run that starts later**: it ends alike, and whatever is left of it
after a cut is what is left of the other one, moved. -/
structure Run.Delayed {α : Type} (start : Moment) (r r' : Run α) : Prop where
  finish : r'.finish = start.delay r.finish
  outcome : r'.outcome = r.outcome
  upTo : ∀ c : Cut, r'.upTo (c.delay start) = (r.upTo c).delay start

namespace Run

variable {α β : Type} {start now due : Moment} {r r' : Run α} {x x' : Run β}

theorem Delayed.whole (h : Delayed start r r') :
    r'.whole = r.whole.delay start := by
  have hlate := h.upTo ⟨r.finish, false⟩
  rw [upTo_finish, show (⟨r.finish, false⟩ : Cut).delay start
    = ⟨r'.finish, false⟩ from congrArg (Cut.mk · false) h.finish.symm,
    upTo_finish] at hlate
  exact hlate

theorem Delayed.calls (h : Delayed start r r') :
    r'.calls = r.calls.map (Call.delay start) :=
  congrArg Course.calls h.whole

theorem Delayed.cancels (h : Delayed start r r') :
    r'.cancels = r.cancels.map start.delay :=
  congrArg Course.cancels h.whole

theorem Delayed.exceeds (h : Delayed start r r') : r'.exceeds = r.exceeds :=
  congrArg Course.exceeds h.whole

theorem delayed_now (m : Moment) (o : Outcome α) :
    Delayed start (Run.now m o) (Run.now (start.delay m) o) := by
  refine ⟨rfl, rfl, fun c => ?_⟩
  unfold Run.upTo Run.now
  dsimp only
  simp only [Cut.delay_precedes, Cut.delay_arrival]
  split <;> rfl

theorem delayed_tooDeep (m : Moment) (f : Failure) :
    Delayed start (Run.tooDeep m f : Run α)
      (Run.tooDeep (start.delay m) f) := by
  refine ⟨rfl, rfl, fun c => ?_⟩
  unfold Run.upTo Run.tooDeep
  dsimp only
  simp only [Cut.delay_precedes, Cut.delay_arrival]
  split <;> rfl

theorem delayed_asking (m : Moment) :
    Delayed start (Run.asking m) (Run.asking (start.delay m)) := by
  refine ⟨rfl, rfl, fun c => ?_⟩
  unfold Run.upTo Run.asking
  dsimp only
  simp only [Cut.delay_precedes, Cut.delay_arrival]
  split <;> rfl

theorem Delayed.withOutcome (h : Delayed start r r') {o o' : Outcome β}
    (ho : o' = o) : Delayed start (r.withOutcome o) (r'.withOutcome o') :=
  ⟨h.finish, ho, h.upTo⟩

theorem Delayed.mapResult (h : Delayed start r r')
    (f : α → Except Failure β) :
    Delayed start (r.mapResult f) (r'.mapResult f) :=
  h.withOutcome (congrArg (·.bind f) h.outcome)

theorem Delayed.mapFailure (h : Delayed start r r')
    (f : Failure → Failure) :
    Delayed start (r.mapFailure f) (r'.mapFailure f) :=
  h.withOutcome (congrArg (·.mapFailure f) h.outcome)

theorem Delayed.after (h : Delayed start r r') (hx : Delayed start x x') :
    Delayed start (r.after x) (r'.after x') where
  finish := hx.finish
  outcome := hx.outcome
  upTo c := by
    simp only [upTo_after, h.finish, hx.finish, Cut.delay_precedes, h.upTo,
      hx.upTo, h.whole]
    split
    · rfl
    · rw [Course.delay_append]

theorem Delayed.behind (h : Delayed start r r') (m : Moment) :
    Delayed start (r.behind m) (r'.behind (start.delay m)) :=
  (delayed_now m _).after h

/-- What goes on after a run is moved with it. -/
theorem Delayed.andThen (h : Delayed start r r') {cancels : Option Moment}
    {next next' : α → Moment → Option Moment → Run β}
    (hn : ∀ a m known, Delayed start (next a m known)
      (next' a (start.delay m) (known.map start.delay))) :
    Delayed start (r.andThen cancels next)
      (r'.andThen (cancels.map start.delay) next') := by
  unfold Run.andThen
  rw [h.outcome]
  split
  · rw [h.finish, h.cancels, Moment.delay_earliest?]
    exact h.after (hn _ _ _)
  · exact h.withOutcome rfl
  · exact h.withOutcome rfl

theorem Delayed.inside (h : Delayed start r r') {self self' : Call}
    (hself : ∀ m e, { self' with left := start.delay m, ending := e }
      = Call.delay start { self with left := m, ending := e })
    (he : self'.ending = self.ending) :
    Delayed start (r.inside self) (r'.inside self') where
  finish := h.finish
  outcome := h.outcome
  upTo c := by
    have hcall : (if (c.delay start).Precedes r'.finish
          then self'.cutAt (c.delay start).moment
          else { self' with left := r'.finish })
        = Call.delay start (if c.Precedes r.finish then self.cutAt c.moment
          else { self with left := r.finish }) := by
      rw [h.finish]
      simp only [Cut.delay_precedes]
      split
      · exact hself c.moment .cancelled
      · have hleft := hself r.finish self.ending
        rw [← he] at hleft
        exact hleft.trans (by rw [he])
    rw [upTo_inside, upTo_inside, h.upTo, hcall]
    rfl

/-! ### Tasks that wait -/

theorem Delayed.relay (h : Delayed start r r') (due : Moment) (c : Cut) :
    r'.relay (start.delay due) (c.delay start)
      = (r.relay due c).delay start := by
  unfold Run.relay
  dsimp only
  rw [Cut.delay_passed, h.finish]
  by_cases hc : (c.passed due).Precedes r.finish
  · have hc' : ((c.passed due).delay start).Precedes r'.finish := by
      rwa [h.finish, Cut.delay_precedes]
    have hstop := h.upTo (c.passed due)
    rw [upTo_of_precedes hc, upTo_of_precedes hc'] at hstop
    rw [if_pos hc, if_pos (Cut.delay_precedes.mpr hc), hstop]
    simp [Course.delay, Course.endingAt]
  · rw [if_neg hc, if_neg (mt Cut.delay_precedes.mp hc), h.whole]
    rfl

theorem Delayed.heard (h : Delayed start r r') :
    Delayed start r.heard r'.heard where
  finish := by
    show r'.finish.skip hearing = start.delay (r.finish.skip hearing)
    rw [h.finish, Moment.delay_skip]
  outcome := h.outcome
  upTo c := by
    by_cases hc : c.Precedes (r.finish.skip hearing)
    · have hc' : (c.delay start).Precedes (r'.finish.skip hearing) := by
        rwa [h.finish, ← Moment.delay_skip, Cut.delay_precedes]
      rw [upTo_heard_of_precedes hc, upTo_heard_of_precedes hc', h.finish,
        ← Moment.delay_skip]
      exact h.relay _ c
    · have hc' : ¬(c.delay start).Precedes (r'.finish.skip hearing) := by
        rwa [h.finish, ← Moment.delay_skip, Cut.delay_precedes]
      rw [upTo_heard_of_not_precedes hc, upTo_heard_of_not_precedes hc',
        h.finish, ← Moment.delay_skip, h.whole]
      rfl

theorem Delayed.overdueCourse (h : Delayed start r r') (due : Moment) :
    r'.overdueCourse (start.delay due)
      = (r.overdueCourse due).delay start := by
  have hcut : r'.upTo ⟨start.delay due, true⟩
      = (r.upTo ⟨due, true⟩).delay start := h.upTo ⟨due, true⟩
  unfold Run.overdueCourse
  rw [hcut]
  simp [Course.delay, Course.endingAt]

/-- A run that is over at a moment is over at the moved one. -/
theorem delayed_settled {k k' : Course} {o : Outcome α} {due due' : Moment}
    {stop stop' : Cut → Course} {hs : Stops (k.endingAt due) stop}
    {hs' : Stops (k'.endingAt due') stop'}
    {hi : k.finish.instant = due.instant}
    {hi' : k'.finish.instant = due'.instant} (hk : k' = k.delay start)
    (hdue : due' = start.delay due)
    (hstop : ∀ c : Cut, c.Precedes due →
      stop' (c.delay start) = (stop c).delay start) :
    Delayed start (settled k o due stop hs hi)
      (settled k' o due' stop' hs' hi') where
  finish := congrArg Course.finish hk
  outcome := rfl
  upTo c := by
    have hfinish : k'.finish = start.delay k.finish :=
      congrArg Course.finish hk
    rw [upTo_settled, upTo_settled, hfinish, hdue]
    simp only [Cut.delay_precedes]
    split
    · next hc => exact hstop c hc.2
    · exact hk

theorem Delayed.waitedFor (h : Delayed start r r') (now : Moment)
    (time : Nat) (late : Outcome α) :
    Delayed start (r.waitedFor now time late)
      (r'.waitedFor (start.delay now) time late) := by
  have hbehind := h.behind now.next
  rw [Moment.delay_next] at hbehind
  have hiff : r'.finish.instant < (start.delay now).instant + time
      ↔ r.finish.instant < now.instant + time := by
    rw [h.finish, Moment.instant_delay, Moment.instant_delay, Nat.add_assoc,
      Nat.add_lt_add_iff_left]
  unfold Run.waitedFor
  by_cases hin : r.finish.instant < now.instant + time
  · rw [dif_pos hin, dif_pos (hiff.mpr hin)]
    exact hbehind.heard
  · rw [dif_neg hin, dif_neg (mt hiff.mp hin)]
    have hdue := (Moment.delay_later start now time).symm
    refine delayed_settled ?_ hdue fun c _ => ?_
    · rw [hdue]
      exact hbehind.overdueCourse _
    · rw [hdue]
      exact hbehind.relay _ c

end Run

/-! ## Handlers -/

/-- An expander whose runs are moved as they start later. -/
def Expander.Steady (start : Moment) (e : Expander) : Prop :=
  ∀ text now cancels, Run.Delayed start (e text now cancels)
    (e text (start.delay now) (cancels.map start.delay))

variable {start : Moment}

theorem Program.delayed_run (p : Program) (cancellable : Bool) {e : Expander}
    (he : e.Steady start) (now : Moment) (cancels : Option Moment) :
    Run.Delayed start (p.run cancellable e now cancels)
      (p.run cancellable e (start.delay now) (cancels.map start.delay)) := by
  induction p generalizing now cancels with
  | finish | fail | interrupt => exact Run.delayed_now _ _
  | sleep time next ih =>
    rw [run, run, ← Moment.delay_later]
    exact (ih _ _).behind _
  | askCancelled next ih =>
    rw [run, run, Moment.delay_reached]
    exact ih _ _ _
  | cancel next ih =>
    rw [run, run]
    split
    · have h := ih now (Moment.earliest? cancels (some now))
      rw [← Moment.delay_earliest?] at h
      exact (Run.delayed_asking now).after h
    · exact ih now cancels
  | expand text next ih =>
    have h := he text now cancels
    rw [run, run]
    rw [h.outcome, h.cancels, h.finish, Moment.delay_earliest?]
    split
    · exact h.after (ih _ _ _)
    · exact h.after (ih _ _ _)
    · exact h.withOutcome rfl

namespace Session

variable {s : Session} {expander : Invocation → Expander}

theorem delay_entry (s : Session) (h : Handler) (now : Moment) :
    s.entry h (start.delay now) = start.delay (s.entry h now) := by
  unfold entry
  split
  · exact (Moment.delay_next start now).symm
  · rfl

theorem delayed_enter (s : Session) (h : Handler) (inv : Invocation)
    (depth : Nat) {e : Expander} (he : e.Steady start)
    (cleared started entered : Moment) (cancels : Option Moment) :
    Run.Delayed start (s.enter h inv depth e cleared started entered cancels)
      (s.enter h inv depth e (start.delay cleared) (start.delay started)
        (start.delay entered) (cancels.map start.delay)) := by
  have hrun := Program.delayed_run
    (h.program ⟨inv, depth, s.settings, s.metadata⟩) s.cancellable he entered
    cancels
  unfold enter
  dsimp only
  refine (hrun.withOutcome ?_).inside (fun m ending => ?_) ?_
  · rw [hrun.outcome]
  · simp [Call.delay]
  · rw [hrun.outcome]

theorem delayed_invoke (s : Session) (inv : Invocation) (depth : Nat)
    {e : Expander} (he : e.Steady start) (cleared now : Moment)
    (cancels : Option Moment) :
    Run.Delayed start (s.invoke inv depth e cleared now cancels)
      (s.invoke inv depth e (start.delay cleared) (start.delay now)
        (cancels.map start.delay)) := by
  unfold invoke
  split
  · exact Run.delayed_now _ _
  · next h _ =>
    have henter := delayed_enter s h inv depth he cleared now (s.entry h now)
      cancels
    unfold call
    dsimp only
    rw [delay_entry]
    split
    · exact henter
    · exact henter.waitedFor now _ _

theorem delayed_member (s : Session) (depth : Nat)
    (he : ∀ inv, (expander inv).Steady start) (called : Moment)
    (inv : Invocation) (now : Moment) (cancels : Option Moment) :
    Run.Delayed start (s.member depth expander called inv now cancels)
      (s.member depth expander (start.delay called) inv (start.delay now)
        (cancels.map start.delay)) := by
  unfold member
  rw [← Moment.delay_next, Moment.delay_reached]
  refine Run.Delayed.behind (Run.Delayed.behind ?_ now) called.next
  split
  · exact delayed_invoke s inv depth (he inv) called now cancels
  · split
    · exact Run.delayed_now _ _
    · exact delayed_invoke s inv depth (he inv) now now cancels

end Session

/-! ## Groups -/

namespace Group

variable {α β : Type}

theorem insert_map {f : α → β} {before : α → α → Bool}
    {before' : β → β → Bool} (h : ∀ a b, before' (f a) (f b) = before a b)
    (a : α) (as : List α) :
    insert before' (f a) (as.map f) = (insert before a as).map f := by
  induction as with
  | nil => rfl
  | cons b rest ih =>
    rw [List.map_cons, insert, insert, h, ih]
    split <;> rfl

/-- Things stay in order where what decides on it does. -/
theorem inOrder_map {f : α → β} {before : α → α → Bool}
    {before' : β → β → Bool} (h : ∀ a b, before' (f a) (f b) = before a b)
    (as : List α) :
    inOrder before' (as.map f) = (inOrder before as).map f := by
  unfold inOrder
  induction as with
  | nil => rfl
  | cons a as ih => rw [List.map_cons, List.foldr_cons, ih, insert_map h]; rfl

theorem delay_start (limit : Nat) (first : Moment) (ends : List Moment) :
    Group.start limit (start.delay first) (ends.map start.delay)
      = start.delay (Group.start limit first ends) := by
  have hlatest : latestFirst (ends.map start.delay)
      = (latestFirst ends).map start.delay :=
    inOrder_map (fun a b => by simp) ends
  unfold Group.start
  split
  · rfl
  · rw [hlatest, List.getElem?_map]
    cases (latestFirst ends)[limit - 1]? with
    | none => rfl
    | some free =>
      simp only [Option.map_some, Moment.delay_le_iff]
      split
      · rfl
      · simp

/-- **Members are moved with their group**, where each of them starts
later as it should. -/
theorem delayed_members {ms ms' : List (Member α)}
    (hm : List.Forall₂ (fun m m' => ∀ now cancels,
      Run.Delayed start (m now cancels)
        (m' (start.delay now) (cancels.map start.delay))) ms ms')
    (limit : Nat) (first : Moment) (cancels : Option Moment)
    (ends : List Moment) :
    List.Forall₂ (Run.Delayed start) (members limit first cancels ends ms)
      (members limit (start.delay first) (cancels.map start.delay)
        (ends.map start.delay) ms') := by
  induction hm generalizing cancels ends with
  | nil => exact .nil
  | cons hm _ ih =>
    have h := hm (Group.start limit first ends) cancels
    unfold members
    dsimp only
    rw [delay_start, h.cancels, h.finish, Moment.delay_earliest?,
      ← List.map_cons]
    exact .cons h (ih _ _)

/-- The point in a run that starts later. -/
def Point.delay (start : Moment) (p : Point) : Point :=
  ⟨start.delay p.moment, p.place⟩

@[simp] theorem Point.delay_le_iff {p q : Point} :
    p.delay start ≤ q.delay start ↔ p ≤ q := by
  simp [Point.delay, Point.le_def]

theorem Point.delay_noticed (p : Point) :
    (p.delay start).noticed = p.noticed.delay start := by
  simp [Point.delay, Point.noticed]

theorem Point.delay_cut (p : Point) (place : Nat) :
    (p.delay start).cut place = (p.cut place).delay start := rfl

theorem delay_earliestFirst (ps : List Point) :
    earliestFirst (ps.map (Point.delay start))
      = (earliestFirst ps).map (Point.delay start) :=
  inOrder_map (fun a b => by simp) ps

theorem delay_place (limit : Nat) (first : Moment) (ends : List Point) :
    place limit (start.delay first) (ends.map (Point.delay start))
      = place limit first ends := by
  unfold place
  rw [delay_earliestFirst, ← List.map_reverse, List.getElem?_map,
    List.length_map]
  cases (earliestFirst ends).reverse[limit - 1]? with
  | none => rfl
  | some free => simp [Point.delay]

/-- A member that starts later has its place in the group. -/
structure Placed.Delayed (start : Moment) (x x' : Placed α) : Prop where
  place : x'.place = x.place
  run : Run.Delayed start x.run x'.run

theorem Placed.Delayed.finish {x x' : Placed α}
    (h : Placed.Delayed start x x') : x'.finish = x.finish.delay start := by
  unfold Placed.finish Point.delay
  rw [h.place, h.run.finish]

theorem delayed_placed {runs runs' : List (Run α)}
    (h : List.Forall₂ (Run.Delayed start) runs runs') (limit : Nat)
    (first : Moment) (ends : List Point) :
    List.Forall₂ (Placed.Delayed start) (placed limit first ends runs)
      (placed limit (start.delay first) (ends.map (Point.delay start))
        runs') := by
  induction h generalizing ends with
  | nil => exact .nil
  | @cons r r' _ _ hr _ ih =>
    have hx : Placed.Delayed start ⟨place limit first ends, r⟩
        ⟨place limit (start.delay first) (ends.map (Point.delay start)), r'⟩ :=
      ⟨delay_place limit first ends, hr⟩
    unfold placed
    dsimp only
    rw [hx.finish, ← List.map_cons]
    exact .cons hx (ih _)

/-- Whoever waits takes the same looks later. -/
theorem delay_watch {seen seen' : Point → Option β}
    (h : ∀ p, seen' (p.delay start) = seen p) (last : Point)
    (ends : List Point) :
    watch seen' (last.delay start) (ends.map (Point.delay start))
      = ((watch seen last ends).1.delay start, (watch seen last ends).2) := by
  induction ends generalizing last with
  | nil => rfl
  | cons e rest ih =>
    rw [List.map_cons, watch, watch, Point.delay_noticed]
    simp only [Point.delay_le_iff, h, ih]
    split
    · rfl
    · split <;> rfl

theorem delay_latest (first : Moment) (ms : List Moment) :
    latest (start.delay first) (ms.map start.delay)
      = start.delay (latest first ms) := by
  unfold latest
  induction ms generalizing first with
  | nil => rfl
  | cons m ms ih =>
    simp only [List.map_cons, List.foldl_cons]
    rw [← Moment.delay_latter, ih]

/-- Courses that are moved, one by one. -/
theorem delay_gathered (closed : Moment) (waiting : Bool)
    (request : Option Moment) (parts : List Course) :
    gathered (start.delay closed) waiting (request.map start.delay)
        (parts.map (Course.delay start))
      = (gathered closed waiting request parts).delay start := by
  have hfirst : (if waiting then (start.delay closed).next
        else start.delay closed)
      = start.delay (if waiting then closed.next else closed) := by
    cases waiting
    · rfl
    · exact (Moment.delay_next start closed).symm
  have hfinish : (parts.map (Course.delay start)).map Course.finish
      = (parts.map Course.finish).map start.delay := by
    simp [Course.delay, Function.comp_def]
  have hcalls : (parts.map (Course.delay start)).flatMap Course.calls
      = (parts.flatMap Course.calls).map (Call.delay start) := by
    simp [Course.delay, List.flatMap_map, List.map_flatMap]
  have hcancels (first : Option Moment) :
      (parts.map (Course.delay start)).foldl
        (fun m k => Moment.earliest? m k.cancels) (first.map start.delay)
      = (parts.foldl (fun m k => Moment.earliest? m k.cancels) first).map
          start.delay := by
    induction parts generalizing first with
    | nil => rfl
    | cons k parts ih =>
      rw [List.map_cons, List.foldl_cons, List.foldl_cons, ← ih,
        ← Moment.delay_earliest?]
      · rfl
      · simp [Course.delay, Function.comp_def]
      · simp [Course.delay, List.flatMap_map, List.map_flatMap]
  have hexceeds : (parts.map (Course.delay start)).any Course.exceeds
      = parts.any Course.exceeds := by
    simp [Course.delay, List.any_map, Function.comp_def]
  have hnone := hcancels none
  rw [Option.map_none] at hnone
  unfold gathered
  rw [hfirst, hfinish, delay_latest, hcalls, List.filter_map, hnone, hexceeds]
  unfold Course.delay
  congr 1
  · exact (Moment.delay_skip start _ gathering).symm
  · congr 1
    refine List.filter_congr fun c _ => ?_
    cases request with
    | none => rfl
    | some m => simp [Call.delay]

/-- A group that is called later, of members that are moved with it. -/
structure Gathering.Delayed (start : Moment) (g g' : Gathering α) :
    Prop where
  limit : g'.limit = g.limit
  cancellable : g'.cancellable = g.cancellable
  called : g'.called = start.delay g.called
  cancelled : g'.cancelled = g.cancelled
  cancels : g'.cancels = g.cancels.map start.delay
  runs : List.Forall₂ (Run.Delayed start) g.runs g'.runs

namespace Gathering.Delayed

variable {g g' : Gathering α}

theorem members (h : Delayed start g g') :
    List.Forall₂ (Placed.Delayed start) g.members g'.members := by
  have hplaced := delayed_placed h.runs g.limit g.called.next []
  unfold Gathering.members
  rw [h.limit, h.called, ← Moment.delay_next]
  exact hplaced

theorem request (h : Delayed start g g') :
    g'.request = g.request.map (Point.delay start) := by
  unfold Gathering.request request?
  rw [h.cancels]
  have hfirst : (g.cancels.map start.delay).map (⟨·, 0⟩ : Moment → Point)
      = (g.cancels.map (⟨·, 0⟩ : Moment → Point)).map (Point.delay start) := by
    cases g.cancels <;> rfl
  rw [hfirst]
  have hmembers := h.members
  generalize g.cancels.map (⟨·, 0⟩ : Moment → Point) = p
  generalize g.members = xs at hmembers ⊢
  generalize g'.members = xs' at hmembers ⊢
  induction hmembers generalizing p with
  | nil => rfl
  | @cons x x' _ _ hx _ ih =>
    have hcancels : x'.cancels = x.cancels.map (Point.delay start) := by
      unfold Placed.cancels
      rw [hx.run.cancels, hx.place]
      cases x.run.cancels <;> rfl
    have hearliest : Point.earliest? (p.map (Point.delay start)) x'.cancels
        = (Point.earliest? p x.cancels).map (Point.delay start) := by
      rw [hcancels]
      cases p with
      | none => cases x.cancels <;> rfl
      | some p =>
        cases x.cancels with
        | none => rfl
        | some q =>
          simp only [Option.map_some, Point.earliest?, Point.delay_le_iff]
          split <;> rfl
    rw [List.foldl_cons, List.foldl_cons, hearliest, ih]

theorem heard (h : Delayed start g g') :
    g'.heard = g.heard.map (Point.delay start) := by
  unfold Gathering.heard
  rw [h.request, h.called, h.runs.length_eq]
  cases g.request with
  | none => rfl
  | some p =>
    simp only [Option.map_some, Group.heard, Point.delay]
    rw [← Moment.delay_next, ← Moment.delay_next]
    simp only [Moment.delay_le_iff]
    split <;> rfl

theorem hears (h : Delayed start g g') (p : Point) :
    g'.hears (p.delay start) = g.hears p := by
  unfold Gathering.hears
  rw [h.heard]
  cases g.heard <;> simp

theorem ends (h : Delayed start g g') :
    g'.ends = g.ends.map (Point.delay start) := by
  have hfinish : g'.members.map Placed.finish
      = (g.members.map Placed.finish).map (Point.delay start) := by
    have hmembers := h.members
    generalize g.members = xs at hmembers ⊢
    generalize g'.members = xs' at hmembers ⊢
    induction hmembers with
    | nil => rfl
    | cons hx _ ih =>
      rw [List.map_cons, List.map_cons, List.map_cons, hx.finish, ih]
  unfold Gathering.ends
  dsimp only
  rw [hfinish, h.heard, List.map_append]
  congr 1
  cases g.heard with
  | none => rfl
  | some p =>
    simp only [Option.map_some, Option.toList_some, List.filter_singleton,
      List.any_map, Function.comp_def, Point.delay_le_iff]
    cases g.members.any fun x => decide (p ≤ x.finish) <;> rfl

theorem failed? (h : Delayed start g g') (look : Point) :
    Group.failed? g'.members (look.delay start)
      = Group.failed? g.members look := by
  have hmembers := h.members
  unfold Group.failed? Group.found?
  generalize g.members = xs at hmembers ⊢
  generalize g'.members = xs' at hmembers ⊢
  induction hmembers with
  | nil => rfl
  | cons hx _ ih =>
    rw [List.findSome?_cons, List.findSome?_cons, ih]
    simp only [hx.finish, hx.run.outcome, Point.delay_le_iff]

theorem seen? (h : Delayed start g g') (look : Point) :
    g'.seen? (look.delay start) = g.seen? look := by
  unfold Gathering.seen?
  rw [h.hears, h.failed?, h.cancelled]

theorem called_point (h : Delayed start g g') :
    (⟨g'.called, 0⟩ : Point) = Point.delay start ⟨g.called, 0⟩ := by
  rw [h.called]
  rfl

theorem watched (h : Delayed start g g') :
    g'.watched = (g.look.delay start, g.watched.2) := by
  unfold Gathering.watched
  rw [h.ends, delay_earliestFirst, h.called_point]
  exact delay_watch h.seen? _ _

theorem look (h : Delayed start g g') : g'.look = g.look.delay start :=
  congrArg Prod.fst h.watched

theorem outcome (h : Delayed start g g') : g'.outcome = g.outcome := by
  have hresults : results g'.runs = results g.runs := by
    have hruns := h.runs
    generalize g.runs = runs at hruns ⊢
    generalize g'.runs = runs' at hruns ⊢
    induction hruns with
    | nil => rfl
    | cons hr _ ih => rw [results, results, hr.outcome, ih]
  have hrequest : g'.request.map Point.moment
      = (g.request.map Point.moment).map start.delay := by
    rw [h.request]
    cases g.request <;> rfl
  unfold Gathering.outcome
  rw [h.watched, h.look, hrequest, hresults, h.cancelled]
  simp only [Point.delay, Moment.delay_reached]

theorem due (h : Delayed start g g') (c : Cut) :
    g'.due (c.delay start) = (g.due c).delay start := by
  unfold Gathering.due
  rw [h.ends, delay_earliestFirst, h.called_point]
  refine congrArg Prod.fst (delay_watch (fun p => ?_) _ _)
  unfold told?
  simp only [Point.delay, Cut.delay_precedes]

theorem passed (h : Delayed start g g') (c : Cut) (place : Nat) :
    g'.passed (c.delay start) place = (g.passed c place).delay start := by
  unfold Gathering.passed
  rw [h.due]
  simp only [Point.delay, Cut.moment_delay, ← Moment.delay_next,
    Moment.delay_lt_iff]
  split <;> rfl

theorem courseAt (h : Delayed start g g') (closed : Moment) (ended : Bool)
    {part part' : Placed α → Course}
    (hpart : ∀ x x', Placed.Delayed start x x' →
      part' x' = (part x).delay start) :
    g'.courseAt (start.delay closed) ended part'
      = (g.courseAt closed ended part).delay start := by
  have hparts : g'.members.map part'
      = (g.members.map part).map (Course.delay start) := by
    have hmembers := h.members
    generalize g.members = xs at hmembers ⊢
    generalize g'.members = xs' at hmembers ⊢
    induction hmembers with
    | nil => rfl
    | cons hx _ ih =>
      rw [List.map_cons, List.map_cons, List.map_cons, hpart _ _ hx, ih]
  have hrequest : g'.request.map Point.moment
      = (g.request.map Point.moment).map start.delay := by
    rw [h.request]
    cases g.request <;> rfl
  unfold Gathering.courseAt
  rw [hparts, hrequest, h.cancellable, delay_gathered]

theorem stop (h : Delayed start g g') (c : Cut) :
    g'.stop (c.delay start) = (g.stop c).delay start := by
  have hended : (g'.heard.any fun h =>
        !decide ((g'.passed (c.delay start) h.place).Precedes h.moment))
      = g.heard.any fun h =>
        !decide ((g.passed c h.place).Precedes h.moment) := by
    rw [h.heard]
    cases g.heard with
    | none => rfl
    | some p => simp [Point.delay, h.passed]
  unfold Gathering.stop
  rw [hended, h.due]
  simp only [Point.delay, Cut.delay_arrival]
  refine h.courseAt _ _ fun x x' hx => ?_
  rw [hx.place, h.passed, hx.run.upTo]

/-- **A group does the same later.** -/
theorem run (h : Delayed start g g') : Run.Delayed start g.run g'.run := by
  unfold Gathering.run
  rw [h.outcome]
  refine Run.delayed_settled ?_ ?_ fun c _ => h.stop c
  · unfold Gathering.course
    rw [h.look, h.hears]
    refine h.courseAt _ _ fun x x' hx => ?_
    unfold Placed.upTo
    rw [hx.place, Point.delay_cut, hx.run.upTo]
  · rw [h.look]
    rfl

end Gathering.Delayed

end Group

/-! ## Expansions -/

namespace Session

variable {s : Session} {expander : Invocation → Expander}

theorem delayed_invokeAll (s : Session) (depth : Nat)
    (he : ∀ inv, (expander inv).Steady start) (invs : List Invocation)
    (now : Moment) (cancels : Option Moment) :
    Run.Delayed start (s.invokeAll invs depth expander now cancels)
      (s.invokeAll invs depth expander (start.delay now)
        (cancels.map start.delay)) := by
  cases invs with
  | nil => exact Run.delayed_now _ _
  | cons inv rest =>
    unfold invokeAll
    dsimp only
    rw [Moment.delay_reached]
    split
    · exact Run.delayed_now _ _
    · refine Group.Gathering.Delayed.run ⟨rfl, rfl, rfl, rfl, rfl, ?_⟩
      dsimp only
      rw [← Moment.delay_next]
      refine Group.delayed_members ?_ _ _ _ []
      rw [List.forall₂_map_left_iff, List.forall₂_map_right_iff]
      exact List.forall₂_same.mpr fun inv _ m known =>
        delayed_member s depth he now inv m known

theorem delayed_splice (he : ∀ inv, (expander inv).Steady start)
    (ps : List Part) (now : Moment) (cancels : Option Moment) :
    Run.Delayed start (splice expander ps now cancels)
      (splice expander ps (start.delay now) (cancels.map start.delay)) := by
  induction ps generalizing now cancels with
  | nil => exact Run.delayed_now _ _
  | cons part rest ih =>
    cases part with
    | ready t => exact (ih now cancels).mapResult _
    | pending inv t =>
      exact (he inv t now cancels).andThen fun t m known =>
        (ih m known).mapResult _

theorem delayed_expandSegments (s : Session) (depth : Nat)
    (he : ∀ inv, (expander inv).Steady start) (segments : List Segment)
    (now : Moment) (cancels : Option Moment) :
    Run.Delayed start (s.expandSegments expander depth segments now cancels)
      (s.expandSegments expander depth segments (start.delay now)
        (cancels.map start.delay)) := by
  have hgroup := delayed_invokeAll s depth (fun inv text m known =>
    (he inv text m known).mapFailure Failure.escape)
    (Segment.invocations segments) now cancels
  unfold expandSegments
  exact hgroup.andThen fun produced m known =>
    (delayed_splice he (parts segments produced) m known).mapResult concat

/-- **An expansion does the same later**, on any level. -/
theorem steady_expandFrom (s : Session) (start : Moment)
    (levels depth : Nat) (trigger : Option Text) (origin : Int) :
    Expander.Steady start (s.expandFrom levels depth trigger origin) := by
  induction levels generalizing depth trigger origin with
  | zero =>
    intro text now cancels
    unfold expandFrom
    rw [Moment.delay_reached]
    split
    · exact Run.delayed_now _ _
    · cases text with
      | none => exact Run.delayed_now _ _
      | some t =>
        dsimp only
        split
        · exact Run.delayed_now _ _
        · exact Run.delayed_tooDeep _ _
  | succ levels ih =>
    intro text now cancels
    unfold expandFrom
    rw [Moment.delay_reached]
    split
    · exact Run.delayed_now _ _
    · cases text with
      | none => exact Run.delayed_now _ _
      | some t =>
        dsimp only
        split
        · exact Run.delayed_now _ _
        · split
          · exact Run.delayed_now _ _
          · exact delayed_expandSegments s depth
              (fun inv text => ih _ _ _ text) _ now cancels

/-- **Starting later changes nothing else**: the expansion of a document
that starts at some moment is the one that starts at the very beginning,
moved to that moment. -/
theorem delayed_expand (s : Session) (text : Text) (start : Moment)
    (cancels : Option Moment) :
    Run.Delayed start (s.expand text ⟨0, 0⟩ cancels)
      (s.expand text start (cancels.map start.delay)) := by
  unfold expand
  split
  · exact Run.delayed_now _ _
  · exact steady_expandFrom s start (s.settings.maxDepth + 1) 0 none 0
      (some text) ⟨0, 0⟩ cancels

end Session

end Shortcode
