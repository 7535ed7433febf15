import Shortcode.Run

/-!
# Groups

The members of a group run side by side, as far as the group's limit
lets them. They start in order; one that finds no free slot takes the
next slot that becomes free. `Group.start` says when that is: of the
members before it, all but `limit - 1` have ended.

The group itself waits. It *looks* at its members whenever one has ended
that it has not found so before, and what it does then depends on all
that it finds: it fails with the failure of the first member, in order,
that has failed by then, whichever failed first. So it is not enough to
know the instants at which members fail. Within an instant a member may
fail and be found so, or fail some steps later and be too late.

If the group can be cancelled, one more waits beside its members, until
the cancellation is asked for. The group looks when that one has ended,
too, and then fails as cancelled, whatever else it finds. It also does so
if the cancellation has been asked for when all members have ended and it
looks for the last time.

A group that is over cuts what is still running, and goes on when
everything has ended: this takes some steps, and the group does not look
again whether it was cancelled.

## Steps and places

How many steps pass is a matter of how tasks are woken. A task that ends
has those told that wait for it in the next step, and they go on in the
step behind that one. This is said once, in `noticing` and `gathering`;
the rest is made of these two.

Within one step the members do what they do in the order of their
*places*. A member that starts at once has its own place; one that takes
another one's slot goes on where that one ended. A group looks in the
place of the member that it looks for. So of two members that end in one
step the look finds one ended and the other one not, and of two members
that are cut in one step one does what is due and the other one does not.
-/

namespace Shortcode.Group

/-! ## Order -/

/-- Put something into its place, in front of what it may stand in front
of. -/
def insert {α : Type} (before : α → α → Bool) (a : α) : List α → List α
  | [] => [a]
  | b :: rest =>
    if before a b then a :: b :: rest else b :: insert before a rest

/-- Things in order. -/
def inOrder {α : Type} (before : α → α → Bool) (as : List α) : List α :=
  as.foldr (insert before) []

/-! ## Starting -/

/-- The moments in the order from the latest to the earliest. -/
def latestFirst (ms : List Moment) : List Moment :=
  inOrder (fun a b => decide (b ≤ a)) ms

/-- When the next member starts, in a group that could start its first
member at `first` and whose earlier members end at `ends`. -/
def start (limit : Nat) (first : Moment) (ends : List Moment) : Moment :=
  if limit = 0 then first
  else
    match (latestFirst ends)[limit - 1]? with
    | none => first
    | some free => if free ≤ first then first else free.next

/-- No member starts before the first one could. -/
theorem first_le_start (limit : Nat) (first : Moment) (ends : List Moment) :
    first ≤ start limit first ends := by
  unfold start
  split
  · exact first.le_refl
  · split
    · exact first.le_refl
    · next free _ =>
      split
      · exact first.le_refl
      · next h =>
        exact Moment.le_trans ((Moment.le_total free first).resolve_left h)
          free.le_next

/-- A member: what it does when it starts at a moment, given when the
cancellation of the expansion was asked for, if it was. -/
abbrev Member (α : Type) := Moment → Option Moment → Run α

/-- The runs of the members, in order. A member knows of the requests
for cancellation made by those before it. -/
def members {α : Type} (limit : Nat) (first : Moment) :
    Option Moment → List Moment → List (Member α) → List (Run α)
  | _, _, [] => []
  | cancels, ends, m :: rest =>
    let r := m (start limit first ends) cancels
    r :: members limit first (Moment.earliest? cancels r.cancels)
      (r.finish :: ends) rest

/-! ## Places -/

/-- How many steps pass until someone who waits looks why: one to be
told, and one to go on. -/
def noticing : Nat := 2

/-- A point: a moment, and a place in it. -/
structure Point where
  moment : Moment
  place : Nat
deriving DecidableEq, Repr, Inhabited

namespace Point

instance : LE Point where
  le a b := a.moment < b.moment ∨ a.moment = b.moment ∧ a.place ≤ b.place

theorem le_def {a b : Point} :
    a ≤ b ↔ a.moment < b.moment ∨ a.moment = b.moment ∧ a.place ≤ b.place :=
  Iff.rfl

instance (a b : Point) : Decidable (a ≤ b) :=
  decidable_of_iff _ le_def.symm

theorem le_refl (p : Point) : p ≤ p := .inr ⟨rfl, Nat.le_refl _⟩

theorem le_trans {p q r : Point} (h : p ≤ q) (h' : q ≤ r) : p ≤ r := by
  simp only [le_def, Moment.lt_def, Moment.ext_iff] at *
  omega

theorem le_total (p q : Point) : p ≤ q ∨ q ≤ p := by
  simp only [le_def, Moment.lt_def, Moment.ext_iff]
  omega

theorem moment_le {p q : Point} (h : p ≤ q) : p.moment ≤ q.moment := by
  rcases h with h | ⟨h, -⟩
  · exact Moment.le_of_lt h
  · exact h ▸ Moment.le_refl _

/-- The earlier of two points that may not come; of two that are the same,
the first. -/
def earliest? : Option Point → Option Point → Option Point
  | none, p | p, none => p
  | some a, some b => if a ≤ b then some a else some b

/-- The look of someone who waits, soon after something has ended. -/
def noticed (p : Point) : Point where
  moment := p.moment.skip noticing
  place := p.place

theorem lt_noticed (p : Point) : p.moment < p.noticed.moment :=
  p.moment.lt_skip (by decide)

theorem le_noticed (p : Point) : p ≤ p.noticed := .inl p.lt_noticed

/-- The cut that is made at a point of a member in some place: it comes
before what is due then, unless the member's place is before it. -/
def cut (p : Point) (place : Nat) : Cut where
  moment := p.moment
  first := decide (p.place < place)

/-- Of two points of a member the cut at the first one comes first. -/
theorem cut_mono {p q : Point} (h : p ≤ q) (place : Nat) :
    p.cut place ≤ q.cut place := by
  rcases h with h | ⟨h, h'⟩
  · exact .inl h
  · refine .inr ⟨h, fun hq => ?_⟩
    simp only [cut, decide_eq_true_eq] at hq ⊢
    omega

end Point

/-- The points in the order from the earliest to the latest. -/
def earliestFirst (ps : List Point) : List Point :=
  inOrder (fun a b => decide (a ≤ b)) ps

/-- The place of the next member, in a group that could start its first
member at `first` and whose earlier members end at `ends`. -/
def place (limit : Nat) (first : Moment) (ends : List Point) : Nat :=
  if limit = 0 then ends.length
  else
    match (earliestFirst ends).reverse[limit - 1]? with
    | none => ends.length
    | some free => if free.moment ≤ first then ends.length else free.place

/-- A member's run, and its place. -/
structure Placed (α : Type) where
  place : Nat
  run : Run α
deriving Inhabited

namespace Placed

variable {α : Type}

/-- The point at which a member ends. -/
def finish (x : Placed α) : Point := ⟨x.run.finish, x.place⟩

/-- The point at which a member asks for the cancellation, if it does. -/
def cancels (x : Placed α) : Option Point := x.run.cancels.map (⟨·, x.place⟩)

/-- What is left of a member that is cut at a point. -/
def upTo (p : Point) (x : Placed α) : Course := x.run.upTo (p.cut x.place)

end Placed

/-- The runs of the members in their places. -/
def placed {α : Type} (limit : Nat) (first : Moment) :
    List Point → List (Run α) → List (Placed α)
  | _, [] => []
  | ends, r :: rest =>
    let x : Placed α := ⟨place limit first ends, r⟩
    x :: placed limit first (x.finish :: ends) rest

/-! ## Looking -/

/-- **Someone who waits.** What can be waited for has some ends, from the
earliest on; the last look was taken at `last`. A look is taken soon after
an end that the last one came too early for. The wait is over with the
first look that shows something; else the last look is told. -/
def watch {β : Type} (seen : Point → Option β) :
    Point → List Point → Point × Option β
  | last, [] => (last, none)
  | last, e :: rest =>
    if e ≤ last then watch seen last rest
    else
      match seen e.noticed with
      | some f => (e.noticed, some f)
      | none => watch seen e.noticed rest

/-- No look comes before the one that was taken last. -/
theorem le_watch {β : Type} (seen : Point → Option β) (last : Point)
    (ends : List Point) : last ≤ (watch seen last ends).1 := by
  induction ends generalizing last with
  | nil => exact last.le_refl
  | cons e rest ih =>
    rw [watch]
    split
    · exact ih last
    · next h =>
      have hle := Point.le_trans ((Point.le_total e last).resolve_left h)
        e.le_noticed
      split
      · exact hle
      · exact Point.le_trans hle (ih e.noticed)

/-- What a look shows to someone who is cut: that he is, if the cut precedes
the look. -/
def told? (c : Cut) (look : Point) : Option Unit :=
  if c.Precedes look.moment then some () else none

/-- Someone who is cut before his last look is told so at the first look that
the cut precedes, and takes no look behind that one. -/
theorem watch_told {β : Type} {seen : Point → Option β} {c : Cut}
    {last : Point} {ends : List Point}
    (h : c.Precedes (watch seen last ends).1.moment) :
    c.Precedes (watch (told? c) last ends).1.moment
      ∧ (watch (told? c) last ends).1 ≤ (watch seen last ends).1 := by
  induction ends generalizing last with
  | nil => exact ⟨h, Point.le_refl _⟩
  | cons e rest ih =>
    rw [watch] at h ⊢
    rw [watch]
    split at h
    · next hle =>
      rw [if_pos hle, if_pos hle]
      exact ih h
    · next hle =>
      rw [if_neg hle, if_neg hle]
      by_cases hc : c.Precedes e.noticed.moment
      · unfold told?
        rw [if_pos hc]
        refine ⟨hc, ?_⟩
        dsimp only
        split
        · exact Point.le_refl _
        · exact le_watch seen e.noticed rest
      · have hnone : told? c e.noticed = none := if_neg hc
        rw [hnone]
        split at h
        · exact absurd h hc
        · exact ih h

/-- Of two cuts the first one is told of at the same look, or at one that
the other does not precede. -/
theorem watch_told_eq_or {c d : Cut} (h : c ≤ d) (last : Point)
    (ends : List Point) :
    (watch (told? c) last ends).1 = (watch (told? d) last ends).1
      ∨ ¬d.Precedes (watch (told? c) last ends).1.moment := by
  induction ends generalizing last with
  | nil => exact .inl rfl
  | cons e rest ih =>
    rw [watch, watch]
    split
    · exact ih last
    · by_cases hc : c.Precedes e.noticed.moment
      · have hsome : told? c e.noticed = some () := if_pos hc
        rw [hsome]
        by_cases hd : d.Precedes e.noticed.moment
        · have hsome' : told? d e.noticed = some () := if_pos hd
          rw [hsome']
          exact .inl rfl
        · exact .inr hd
      · have hnone : told? c e.noticed = none := if_neg hc
        have hnone' : told? d e.noticed = none :=
          if_neg fun hd => hc (hd.of_le h)
        rw [hnone, hnone']
        exact ih e.noticed

/-- What is found at a look, among the members that have ended: what is told
of the first one, in order, of which something is told. -/
def found? {α β : Type} (told : Run α → Option β) (xs : List (Placed α))
    (look : Point) : Option β :=
  xs.findSome? fun x => if x.finish ≤ look then told x.run else none

/-- The first failure, in order, among the members that have ended. -/
def failed? {α : Type} (xs : List (Placed α)) (look : Point) :
    Option Failure :=
  found? (fun r => r.outcome.failure?) xs look

/-! ## Cancellation -/

/-- When a cancellation is first asked for. -/
def cancellation? {α : Type} (cancels : Option Moment) (runs : List (Run α)) :
    Option Moment :=
  runs.foldl (fun m r => Moment.earliest? m r.cancels) cancels

/-- The point at which a cancellation is first asked for, from outside or
by a member. -/
def request? {α : Type} (cancels : Option Moment) (xs : List (Placed α)) :
    Option Point :=
  xs.foldl (fun p x => Point.earliest? p x.cancels)
    (cancels.map (⟨·, 0⟩))

/-- When the one who waits for the cancellation has ended. He starts
together with the members of the group, behind them, and is told of a
request in the step that follows it. -/
def heard (called : Moment) (size : Nat) (request : Point) : Point :=
  if request.moment ≤ called.next then ⟨called.next, size⟩
  else ⟨request.moment.next, request.place⟩

/-! ## Ending -/

/-- The latest of some moments, none of which is before a first one. -/
def latest (first : Moment) (ms : List Moment) : Moment :=
  ms.foldl Moment.latter first

/-- The results of the members, in order, when none has failed; an
interrupted member interrupts the group. -/
def results {α : Type} : List (Run α) → Outcome (List α)
  | [] => .returned []
  | r :: rest =>
    match r.outcome with
    | .interrupted m => .interrupted m
    | .failed f => .failed f
    | .returned a => (results rest).bind fun as => .ok (a :: as)

/-- How many steps pass until a group goes on whose members have ended. -/
def gathering : Nat := 2

/-- How many steps pass, at most, until a group goes on that is over when
all members have ended: the one who waits for the cancellation ends in the
step that follows. -/
def collecting : Nat := gathering + 1

/-- What becomes of a group that is over at a moment, by what is left of
its members then. It is called until everything has ended, and nothing is
called behind the request for its cancellation. -/
def gathered (closed : Moment) (waiting : Bool) (request : Option Moment)
    (parts : List Course) : Course where
  finish :=
    (latest (if waiting then closed.next else closed)
      (parts.map Course.finish)).skip gathering
  calls := (parts.flatMap Course.calls).filter fun c =>
    request.all fun m => c.cleared ≤ m
  cancels := parts.foldl (fun m k => Moment.earliest? m k.cancels) none
  exceeds := parts.any Course.exceeds

theorem le_latest (first : Moment) (ms : List Moment) :
    first ≤ latest first ms := by
  induction ms generalizing first with
  | nil => exact first.le_refl
  | cons m ms ih =>
    exact Moment.le_trans (first.le_latter_left m) (ih (first.latter m))

/-- The latest of some moments that belong to an instant, or are before it,
belongs to the instant of the first one if that does. -/
theorem instant_latest {first : Moment} {ms : List Moment}
    (h : ∀ m ∈ ms, m.instant ≤ first.instant) :
    (latest first ms).instant = first.instant := by
  induction ms generalizing first with
  | nil => rfl
  | cons m ms ih =>
    have hm := h m List.mem_cons_self
    have hi : (first.latter m).instant = first.instant := by
      unfold Moment.latter
      split
      · next hle => exact Nat.le_antisymm hm (Moment.instant_le hle)
      · rfl
    refine (ih fun n hn => ?_).trans hi
    rw [hi]
    exact h n (List.mem_cons_of_mem m hn)

theorem le_gathered (closed : Moment) (waiting : Bool)
    (request : Option Moment) (parts : List Course) :
    closed ≤ (gathered closed waiting request parts).finish := by
  refine Moment.le_trans ?_ (Moment.le_trans (le_latest _ _)
    (Moment.le_skip _ gathering))
  split
  · exact closed.le_next
  · exact closed.le_refl

theorem instant_gathered {closed : Moment} {waiting : Bool}
    {request : Option Moment} {parts : List Course}
    (h : ∀ k ∈ parts, k.finish.instant ≤ closed.instant) :
    (gathered closed waiting request parts).finish.instant = closed.instant := by
  have hi : (if waiting then closed.next else closed).instant = closed.instant := by
    split <;> rfl
  refine Eq.trans (instant_latest ?_) hi
  rw [hi]
  simpa using h

/-- The first request of a group is the first one of its members. -/
theorem notAfter_foldl {m : Moment} {first : Option Moment}
    {parts : List Course} :
    m.NotAfter (parts.foldl (fun m k => Moment.earliest? m k.cancels) first)
      ↔ m.NotAfter first ∧ ∀ k ∈ parts, m.NotAfter k.cancels := by
  induction parts generalizing first with
  | nil => simp
  | cons k parts ih => simp [ih, and_assoc]

/-- Where no cancellation was asked for, all calls are kept. -/
theorem calls_gathered_none (closed : Moment) (waiting : Bool)
    (parts : List Course) :
    (gathered closed waiting none parts).calls
      = parts.flatMap Course.calls :=
  List.filter_eq_self.mpr fun _ _ => rfl

/-- What is left of the members is left of the group. -/
theorem within_gathered {ι : Type} {xs : List ι} {f g : ι → Course}
    {closed closed' : Moment} {waiting waiting' : Bool} {request : Option Moment}
    (h : ∀ x ∈ xs, (f x).Within (g x)) :
    (gathered closed waiting request (xs.map f)).Within
      (gathered closed' waiting' request (xs.map g)) where
  calls := by
    unfold gathered
    dsimp only
    clear closed closed' waiting waiting'
    induction xs with
    | nil => exact .nil
    | cons x xs ih =>
      simp only [List.map_cons, List.flatMap_cons, List.filter_append]
      refine ((h x List.mem_cons_self).calls.filter ?_).append
        (ih fun y hy => h y (List.mem_cons_of_mem x hy))
      -- it was looked for a cancellation before a call was cut
      rintro d c (rfl | ⟨m, -, rfl⟩) <;> rfl
  cancels m hm := by
    have hm := notAfter_foldl.mp hm
    refine notAfter_foldl.mpr ⟨hm.1, fun k hk => ?_⟩
    obtain ⟨x, hx, rfl⟩ := List.mem_map.mp hk
    exact (h x hx).cancels m (hm.2 _ (List.mem_map_of_mem hx))
  exceeds hk := by
    obtain ⟨k, hmem, hk⟩ := List.any_eq_true.mp hk
    obtain ⟨x, hx, rfl⟩ := List.mem_map.mp hmem
    exact List.any_eq_true.mpr
      ⟨g x, List.mem_map_of_mem hx, (h x hx).exceeds hk⟩

/-! ## Groups -/

/-- A group that was called at a moment. -/
structure Gathering (α : Type) where
  /-- How many members run at once; 0 is no limit. -/
  limit : Nat
  /-- The group can be cancelled. -/
  cancellable : Bool
  called : Moment
  /-- What the group fails with when it is cancelled. -/
  cancelled : Failure
  /-- When its cancellation was asked for before, if it was. -/
  cancels : Option Moment
  /-- What its members do if nobody interferes. -/
  runs : List (Run α)

namespace Gathering

variable {α : Type} (g : Gathering α)

/-- The members in their places. -/
def members : List (Placed α) :=
  placed g.limit g.called.next [] g.runs

/-- The point at which the cancellation is first asked for. -/
def request : Option Point :=
  request? g.cancels g.members

/-- When the one who waits for the cancellation has ended. -/
def heard : Option Point :=
  g.request.map (Group.heard g.called g.runs.length)

/-- The group finds the one who waits for the cancellation ended. -/
def hears (p : Point) : Bool :=
  g.heard.any fun h => h ≤ p

/-- The points at which something ends that the group waits for. A request
that is heard of when all members have ended wakes nobody. -/
def ends : List Point :=
  let ends := g.members.map Placed.finish
  ends ++ g.heard.toList.filter fun h => ends.any fun e => h ≤ e

/-- What a look shows that ends the group. -/
def seen? (look : Point) : Option Failure :=
  if g.hears look then some g.cancelled else failed? g.members look

/-- The last look that the group takes, and what it shows. -/
def watched : Point × Option Failure :=
  watch g.seen? ⟨g.called, 0⟩ (earliestFirst g.ends)

/-- The last look that the group takes. -/
def look : Point :=
  g.watched.1

/-- How the group ends. When nothing has ended it before, it is looked once
more whether it was cancelled. -/
def outcome : Outcome (List α) :=
  match g.watched.2 with
  | some f => .failed f
  | none =>
    if Moment.reached (g.request.map Point.moment) g.look.moment then
      .failed g.cancelled
    else results g.runs

/-- What becomes of the group if it is over at a moment, by what is left of
its members. The one who waits for the cancellation may have ended. -/
def courseAt (closed : Moment) (ended : Bool) (part : Placed α → Course) :
    Course :=
  gathered closed (g.cancellable && !ended) (g.request.map Point.moment)
    (g.members.map part)

/-- When the group is told that it is cut: at the first look that the cut
precedes, at the latest. -/
def due (c : Cut) : Point :=
  (watch (told? c) ⟨g.called, 0⟩ (earliestFirst g.ends)).1

/-- A cut of the group, as it is passed on to a member in some place. A group
that would look just then does so in the place in which it looks. -/
def passed (c : Cut) (place : Nat) : Cut :=
  if c.moment.next < (g.due c).moment then ⟨c.moment.next, c.first⟩
  else (g.due c).cut place

/-- What is left of the group if it is cut. -/
def stop (c : Cut) : Course :=
  g.courseAt (c.arrival (g.due c).moment)
    (g.heard.any fun h => !decide ((g.passed c h.place).Precedes h.moment))
    fun x => x.run.upTo (g.passed c x.place)

/-- What the group does if nobody interferes. -/
def course : Course :=
  g.courseAt g.look.moment (g.hears g.look) (Placed.upTo g.look)

section

variable {g} {c d : Cut}

theorem precedes_due (h : c.Precedes g.look.moment) :
    c.Precedes (g.due c).moment ∧ g.due c ≤ g.look :=
  watch_told h

theorem moment_passed (g : Gathering α) (c : Cut) (place : Nat) :
    (g.passed c place).moment = c.arrival (g.due c).moment := by
  unfold passed Cut.arrival Moment.earlier
  split
  · next h => rw [if_pos (Moment.le_of_lt h)]
  · next h =>
    have hle := Moment.not_lt.mp h
    split
    · next hle' => exact Moment.le_antisymm hle hle'
    · rfl

theorem le_passed (h : c.Precedes g.look.moment) (place : Nat) :
    c ≤ g.passed c place := by
  unfold passed
  split
  · exact .inl (Moment.lt_next_iff.mpr (Moment.le_refl _))
  · rcases (precedes_due h).1 with h | ⟨hf, h⟩
    · exact .inl h
    · exact .inr ⟨h, fun _ => hf⟩

theorem instant_arrival (h : c.Precedes g.look.moment) :
    (c.arrival (g.due c).moment).instant = c.moment.instant :=
  Cut.instant_arrival (precedes_due h).1.moment_le

/-- A cut that is passed on comes before what the last look cuts. -/
theorem passed_le (h : c.Precedes g.look.moment) (place : Nat) :
    g.passed c place ≤ g.look.cut place := by
  have hle := (precedes_due h).2
  unfold passed
  split
  · next hlt => exact .inl (Moment.lt_of_lt_of_le hlt (Point.moment_le hle))
  · exact Point.cut_mono hle place

/-- Cuts are passed on in order. -/
theorem passed_mono (h : c ≤ d) (hd : d.Precedes g.look.moment)
    (place : Nat) : g.passed c place ≤ g.passed d place := by
  rcases watch_told_eq_or h ⟨g.called, 0⟩ (earliestFirst g.ends) with
    heq | hlate
  · have hdue : g.due c = g.due d := heq
    have hle := Moment.next_mono (Cut.moment_le_of_le h)
    unfold passed
    rw [hdue]
    split
    · split
      · rcases h with h | ⟨h, hf⟩
        · exact .inl (Moment.next_lt_next h)
        · exact .inr ⟨congrArg Moment.next h, hf⟩
      · next hlt _ => exact .inl hlt
    · next hlt =>
      rw [if_neg fun h => hlt (Moment.lt_of_le_of_lt hle h)]
      exact Cut.le_refl _
  · -- the group is told of the first cut before the other one is made
    refine .inl ?_
    rw [moment_passed, moment_passed]
    refine Moment.lt_of_le_of_lt (c.arrival_le _)
      (Cut.lt_arrival hlate (precedes_due hd).1)

end

theorem instant_courseAt {closed : Moment} (ended : Bool)
    {part : Placed α → Course}
    (h : ∀ x, (part x).finish.instant ≤ closed.instant) :
    (g.courseAt closed ended part).finish.instant = closed.instant :=
  instant_gathered (List.forall_mem_map.mpr fun x _ => h x)

theorem instant_course : g.course.finish.instant = g.look.moment.instant :=
  g.instant_courseAt _ fun x => x.run.instant_upTo_le _

theorem stops : Stops (g.course.endingAt g.look.moment) g.stop where
  moment_le hc :=
    Moment.le_trans (Cut.le_arrival (precedes_due hc).1.moment_le)
      (le_gathered _ _ _ _)
  instant_eq {c} hc := by
    refine (g.instant_courseAt _ fun x => ?_).trans (instant_arrival hc)
    rw [← g.moment_passed c x.place]
    exact x.run.instant_upTo_le _
  within {c} hc :=
    have h : (g.stop c).Within g.course :=
      within_gathered fun x _ => x.run.upTo_mono (passed_le hc x.place)
    h.endingAt
  mono hcd hd :=
    within_gathered fun x _ => x.run.upTo_mono (passed_mono hcd hd x.place)

/-- The run of the group. -/
def run : Run (List α) :=
  .settled g.course g.outcome g.look.moment g.stop g.stops g.instant_course

end Gathering

end Shortcode.Group
