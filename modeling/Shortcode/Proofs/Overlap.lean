import Shortcode.Build.Shared
import Shortcode.Proofs.Foresight

/-!
# Builds that overlap

All builds on one pipeline share a set of events (`Pipeline.Shared`), in
which a cancellation of the pipeline finds those that it sets. What one
action does to it is said for one build at a time. The events of a build
change only by what concerns it, and by a cancellation only while it is in
flight. So the set holds the builds that are in flight
(`Pipeline.Shared.mem_active_after`), and a build cannot tell what the others
do.

A build of its own is told when it is cancelled (`Pipeline.runJob`), without
any set: at the first instant behind its start at which the pipeline is. The
two accounts are one (`Pipeline.builds_overlap`): builds are those that are
run each by itself if and only if each is the build that is asked to stop
when the shared set makes it. This needs that a build that is over before it
is asked to stop does not foresee that it will be.
-/

namespace Shortcode.Pipeline

/-! ## The shared set -/

/-- **A build is in flight**: it has begun, and has not ended since. -/
def InFlight (h : History) (i : Nat) : Prop :=
  ∃ front m back, h = front ++ (m, .begins i) :: back
    ∧ ∀ x ∈ back, ∀ o, x.2 ≠ .ends i o

/-- The build that does it. -/
def Action.build? : Action → Option Nat
  | .begins i | .stops i | .ends i _ => some i
  | .cancel => none

/-- A cancellation of the pipeline concerns every build, the rest only the
build that does it. -/
def Action.concerns (i : Nat) (a : Action) : Bool :=
  a.build?.all (· == i)

variable {h hist front back : History} {x : Moment × Action} {m : Moment}
  {i : Nat}

theorem not_inFlight_nil : ¬InFlight [] i := by
  rintro ⟨front, m, back, hnil, -⟩
  simp at hnil

/-- One more action: a build is in flight if it begins, or if it has been
and does not end. -/
theorem inFlight_concat :
    InFlight (h ++ [x]) i ↔
      x.2 = .begins i ∨ InFlight h i ∧ ∀ o, x.2 ≠ .ends i o := by
  constructor
  · rintro ⟨front, m, back, heq, hno⟩
    rcases List.eq_nil_or_concat back with rfl | ⟨back, y, rfl⟩
    · obtain ⟨-, hx⟩ := List.append_inj' heq rfl
      exact .inl (by rw [List.singleton_inj.mp hx])
    · rw [List.concat_eq_append, ← List.cons_append, ← List.append_assoc]
        at heq
      rw [List.concat_eq_append] at hno
      obtain ⟨rfl, hx⟩ := List.append_inj' heq rfl
      obtain rfl := List.singleton_inj.mp hx
      exact .inr ⟨⟨front, m, back, rfl, fun z hz =>
        hno z (List.mem_append_left _ hz)⟩, hno _ (by simp)⟩
  · rintro (hx | ⟨⟨front, m, back, rfl, hno⟩, hx⟩)
    · exact ⟨h, x.1, [], by rw [← hx], List.forall_mem_nil _⟩
    · refine ⟨front, m, back ++ [x], by simp, ?_⟩
      exact List.forall_mem_append.mpr ⟨hno, List.forall_mem_singleton.mpr hx⟩

namespace Shared

section

variable (s : Shared) (m : Moment) (i j : Nat) (o : Outcome Report)

@[simp] theorem active_step_begins :
    (s.step (m, .begins j)).active = insert j s.active := rfl

@[simp] theorem active_step_ends :
    (s.step (m, .ends j o)).active = s.active.erase j := rfl

@[simp] theorem active_step_stops :
    (s.step (m, .stops j)).active = s.active := rfl

@[simp] theorem active_step_cancel :
    (s.step (m, .cancel)).active = s.active := rfl

@[simp] theorem events_step_begins :
    (s.step (m, .begins j)).events = s.events := rfl

@[simp] theorem events_step_ends :
    (s.step (m, .ends j o)).events = s.events := rfl

@[simp] theorem events_step_stops :
    (s.step (m, .stops j)).events i =
      if i = j then
        { s.events i with stopped := (s.events i).stopped.or (some m) }
      else s.events i := by
  by_cases hj : i = j
  · subst hj
    simp [step]
  · simp [step, hj]

@[simp] theorem events_step_cancel :
    (s.step (m, .cancel)).events i =
      if i ∈ s.active then
        { s.events i with asked := (s.events i).asked.or (some m) }
      else s.events i := rfl

end

theorem after_concat (h : History) (x : Moment × Action) :
    after (h ++ [x]) = (after h).step x := by
  rw [after, List.foldl_append]
  rfl

/-- **The active events are those of the builds in flight.** -/
theorem mem_active_after (h : History) (i : Nat) :
    i ∈ (after h).active ↔ InFlight h i := by
  induction h using List.reverseRecOn with
  | nil => simpa [after] using not_inFlight_nil
  | append_singleton h x ih =>
    rw [after_concat, inFlight_concat, ← ih]
    obtain ⟨m, a⟩ := x
    cases a with
    | begins j => simp [eq_comm]
    | ends j o =>
      simp only [active_step_ends, Finset.mem_erase, reduceCtorEq, false_or]
      constructor
      · rintro ⟨hne, hi⟩
        exact ⟨hi, fun o h => hne (Action.ends.inj h).1.symm⟩
      · rintro ⟨hi, hne⟩
        exact ⟨fun h => hne o (h ▸ rfl), hi⟩
    | stops j => simp
    | cancel => simp

/-! ### What a build can tell -/

/-- Two states are the same to a build. -/
structure SameFor (i : Nat) (s s' : Shared) : Prop where
  active : i ∈ s.active ↔ i ∈ s'.active
  event : s.events i = s'.events i

variable {s s' : Shared}

theorem SameFor.refl (i : Nat) (s : Shared) : SameFor i s s :=
  ⟨Iff.rfl, rfl⟩

theorem SameFor.trans {s'' : Shared} (h : SameFor i s s')
    (h' : SameFor i s' s'') : SameFor i s s'' :=
  ⟨h.active.trans h'.active, h.event.trans h'.event⟩

/-- What an action changes for a build, it changes by what the build can
tell. -/
theorem SameFor.step (h : SameFor i s s') (x : Moment × Action) :
    SameFor i (s.step x) (s'.step x) := by
  obtain ⟨m, a⟩ := x
  obtain ⟨ha, he⟩ := h
  cases a with
  | begins j | ends j o => exact ⟨by simp [ha], he⟩
  | stops j => exact ⟨ha, by simp [he]⟩
  | cancel => exact ⟨ha, by simp [ha, he]⟩

theorem SameFor.foldl (h : SameFor i s s') (hist : History) :
    SameFor i (hist.foldl Shared.step s) (hist.foldl Shared.step s') := by
  induction hist generalizing s s' with
  | nil => exact h
  | cons x hist ih => exact ih (h.step x)

/-- What does not concern a build it cannot tell. -/
theorem sameFor_step (s : Shared) (hx : x.2.concerns i = false) :
    SameFor i (s.step x) s := by
  obtain ⟨m, a⟩ := x
  cases a with
  | cancel => simp [Action.concerns, Action.build?] at hx
  | begins j | ends j o | stops j =>
    have hj : ¬j = i := by simpa [Action.concerns, Action.build?] using hx
    exact ⟨by simp [Ne.symm hj], by simp [Ne.symm hj]⟩

/-- A build that is not active cannot tell that the pipeline is
cancelled. -/
theorem sameFor_step_cancel (m : Moment) (hi : i ∉ s.active) :
    SameFor i (s.step (m, .cancel)) s :=
  ⟨Iff.rfl, if_neg hi⟩

/-- **A cancellation leaves nothing behind** for a build that is not in
flight. -/
theorem sameFor_after_cancel (m : Moment) (back : History)
    (hi : ¬InFlight front i) :
    SameFor i (after (front ++ (m, .cancel) :: back))
      (after (front ++ back)) := by
  unfold after
  rw [List.foldl_append, List.foldl_append, List.foldl_cons]
  exact (sameFor_step_cancel m
    (mt (mem_active_after front i).mp hi)).foldl back

/-- **What the other builds do leaves nothing behind** for a build. -/
theorem sameFor_after_filter (h : History) (i : Nat) :
    SameFor i (after h) (after (h.filter fun x => x.2.concerns i)) := by
  induction h using List.reverseRecOn with
  | nil => exact .refl i _
  | append_singleton h x ih =>
    rw [after_concat, List.filter_append]
    cases hx : x.2.concerns i with
    | true =>
      rw [List.filter_singleton, hx, cond_true, after_concat]
      exact ih.step x
    | false =>
      rw [List.filter_singleton, hx, cond_false, List.append_nil]
      exact (sameFor_step _ hx).trans ih

/-! ### Who sets an event -/

theorem isSet_step_cancel (m : Moment) :
    ((s.step (m, .cancel)).events i).IsSet ↔
      (s.events i).IsSet ∨ i ∈ s.active := by
  by_cases hi : i ∈ s.active
  · simp [hi, Event.IsSet]
  · rw [(sameFor_step_cancel m hi).event]
    simp [hi]

/-- An event that the pipeline has not set is set by a cancellation while the
build is active, and by nothing else; one that it has set stays so. -/
theorem asked_step_cases (s : Shared) (x : Moment × Action) (i : Nat) :
    ((s.step x).events i).asked = (s.events i).asked
      ∨ x.2 = .cancel ∧ i ∈ s.active ∧ (s.events i).asked = none
        ∧ ((s.step x).events i).asked = some x.1 := by
  obtain ⟨m, a⟩ := x
  cases a with
  | begins j | ends j o => exact .inl rfl
  | stops j =>
    rw [events_step_stops]
    split_ifs <;> exact .inl rfl
  | cancel =>
    by_cases hi : i ∈ s.active
    · cases he : (s.events i).asked with
      | none => exact .inr ⟨rfl, hi, rfl, by simp [hi, he]⟩
      | some m' => exact .inl (by simp [hi, he])
    · exact .inl (by rw [(sameFor_step_cancel m hi).event])

/-- An event that the pipeline has set was set first by a cancellation while
the build was in flight. -/
theorem exists_of_asked (ha : ((after h).events i).asked = some m) :
    ∃ front back, h = front ++ (m, .cancel) :: back ∧ InFlight front i
      ∧ ((after front).events i).asked = none := by
  induction h using List.reverseRecOn with
  | nil => simp [after] at ha
  | append_singleton h x ih =>
    rw [after_concat] at ha
    rcases asked_step_cases (after h) x i with hs | ⟨hx, hi, hnone, hs⟩
    · obtain ⟨front, back, rfl, hfront⟩ := ih (hs.symm.trans ha)
      exact ⟨front, back ++ [x], by simp, hfront⟩
    · obtain rfl := Option.some.inj (hs.symm.trans ha)
      exact ⟨h, [], by rw [← hx], (mem_active_after h i).mp hi, hnone⟩

/-- A cancellation while a build is in flight sets its event. -/
theorem asked_ne_none (m : Moment) (back : History) (hi : InFlight front i) :
    ((after (front ++ (m, .cancel) :: back)).events i).asked ≠ none := by
  induction back using List.reverseRecOn with
  | nil =>
    have hactive := (mem_active_after front i).mpr hi
    rw [after_concat]
    simp [hactive]
  | append_singleton back x ih =>
    rw [← List.cons_append, ← List.append_assoc, after_concat]
    rcases asked_step_cases (after (front ++ (m, .cancel) :: back)) x i with
      hs | ⟨-, -, -, hs⟩
    · rwa [hs]
    · simp [hs]

theorem stopped_step (s : Shared) (x : Moment × Action) (i : Nat) :
    ((s.step x).events i).stopped ≠ none ↔
      (s.events i).stopped ≠ none ∨ x.2 = .stops i := by
  obtain ⟨m, a⟩ := x
  cases a with
  | begins j | ends j o => simp
  | stops j => by_cases hj : i = j <;> simp [hj, eq_comm]
  | cancel => by_cases hi : i ∈ s.active <;> simp [hi]

/-- A build's own event is set by it where it stops. -/
theorem stopped_after (h : History) (i : Nat) :
    ((after h).events i).stopped ≠ none ↔ ∃ m, (m, .stops i) ∈ h := by
  induction h using List.reverseRecOn with
  | nil => simp [after]
  | append_singleton h x ih =>
    rw [after_concat, stopped_step, ih]
    simp only [List.mem_append, List.mem_singleton, exists_or]
    refine or_congr_right ⟨fun hx => ⟨x.1, by rw [← hx]⟩, ?_⟩
    rintro ⟨m, rfl⟩
    rfl

/-- **Who sets an event**: whoever cancels the pipeline while the build is in
flight, or the build. -/
theorem isSet_after (h : History) (i : Nat) :
    ((after h).events i).IsSet ↔
      (∃ front m back, h = front ++ (m, .cancel) :: back ∧ InFlight front i)
        ∨ ∃ m, (m, .stops i) ∈ h := by
  unfold Event.IsSet
  rw [stopped_after]
  refine or_congr_left ⟨fun ha => ?_, ?_⟩
  · obtain ⟨m, hm⟩ := Option.ne_none_iff_exists'.mp ha
    obtain ⟨front, back, rfl, hi, -⟩ := exists_of_asked hm
    exact ⟨front, m, back, rfl, hi⟩
  · rintro ⟨front, m, back, rfl, hi⟩
    exact asked_ne_none m back hi

end Shared

/-! ## Builds that are requested -/

theorem runJob_eq (p : Pipeline) (times : List Nat) (j : Job)
    (requested : Nat) :
    p.runJob times j requested
      = p.launched ⟨j, requested⟩ (cancelledAt times (requested + j.delay)) :=
  rfl

/-- A build is cancelled when the pipeline is for the first time after its
start. -/
theorem cancelledAt_eq_some_iff {times : List Nat} {start : Nat} :
    cancelledAt times start = some m ↔
      ∃ t ∈ times, start < t ∧ m = ⟨t, 0⟩
        ∧ ∀ t' ∈ times, start < t' → t ≤ t' := by
  unfold cancelledAt
  rw [Option.map_eq_some_iff]
  simp only [List.min?_eq_some_iff, List.mem_filter, decide_eq_true_eq]
  constructor
  · rintro ⟨t, ⟨⟨ht, hlt⟩, hmin⟩, rfl⟩
    exact ⟨t, ht, hlt, rfl, fun t' ht' hlt' => hmin t' ⟨ht', hlt'⟩⟩
  · rintro ⟨t, ht, hlt, rfl, hmin⟩
    exact ⟨t, ⟨⟨ht, hlt⟩, fun t' h => hmin t' h.1 h.2⟩, rfl⟩

/-- Whatever happens on a pipeline that is cancelled at some instants. What
handlers ask for stays in their builds and is not told. -/
def happenings (times : List Nat) (launches : List Launch)
    (runs : List (Run Report)) : History :=
  times.map (fun t => (⟨t, 0⟩, .cancel))
    ++ (launches.zip runs).zipIdx.flatMap fun x => x.1.1.actions x.2 x.1.2

/-- What comes first of what happens at one moment. -/
def Action.rank : Action → Nat
  | .cancel => 0
  | .begins _ => 1
  | .stops _ => 2
  | .ends _ _ => 3

/-- One action does not come behind another one. -/
def Precedes (x y : Moment × Action) : Prop :=
  x.1 < y.1 ∨ x.1 = y.1 ∧ x.2.rank ≤ y.2.rank

/-- **A history records runs**: it holds whatever happens, in order. -/
structure Records (times : List Nat) (launches : List Launch)
    (runs : List (Run Report)) (h : History) : Prop where
  perm : h.Perm (happenings times launches runs)
  sorted : h.Pairwise Precedes

theorem mem_actions {l : Launch} {r : Run Report} {i : Nat} :
    x ∈ l.actions i r ↔ l.start ≤ r.finish.instant
      ∧ (x = (⟨l.start, 0⟩, .begins i)
        ∨ aborts r = true ∧ x = (r.finish, .stops i)
        ∨ x = (r.finish, .ends i r.outcome)) := by
  unfold Launch.actions
  split
  · next hle =>
    cases aborts r <;> simp [hle]
  · next hle => simp [hle]

theorem mem_happenings {times : List Nat} {launches : List Launch}
    {runs : List (Run Report)} :
    x ∈ happenings times launches runs ↔
      (∃ t ∈ times, x = (⟨t, 0⟩, .cancel))
        ∨ ∃ (i : Nat) (l : Launch) (r : Run Report), launches[i]? = some l
          ∧ runs[i]? = some r ∧ x ∈ l.actions i r := by
  unfold happenings
  rw [List.mem_append, List.mem_map, List.mem_flatMap]
  refine or_congr (by simp only [eq_comm]) ⟨?_, ?_⟩
  · rintro ⟨⟨⟨l, r⟩, i⟩, hmem, hx⟩
    obtain ⟨hl, hr⟩ := List.getElem?_zip_eq_some.mp
      (List.mem_zipIdx_iff_getElem?.mp hmem)
    exact ⟨i, l, r, hl, hr, hx⟩
  · rintro ⟨i, l, r, hl, hr, hx⟩
    exact ⟨((l, r), i), List.mem_zipIdx_iff_getElem?.mpr
      (List.getElem?_zip_eq_some.mpr ⟨hl, hr⟩), hx⟩

theorem Precedes.le {x y : Moment × Action} (h : Precedes x y) : x.1 ≤ y.1 :=
  h.elim Moment.le_of_lt fun h => h.1 ▸ x.1.le_refl

/-- Where the order at one moment says otherwise, what precedes is earlier. -/
theorem Precedes.lt {x y : Moment × Action} (h : Precedes x y)
    (hr : y.2.rank < x.2.rank) : x.1 < y.1 :=
  h.resolve_right fun h => Nat.not_le.mpr hr h.2

instance : DecidableRel Precedes := fun x y =>
  inferInstanceAs (Decidable (x.1 < y.1 ∨ x.1 = y.1 ∧ x.2.rank ≤ y.2.rank))

theorem precedes_trans {x y z : Moment × Action} (h : Precedes x y)
    (h' : Precedes y z) : Precedes x z := by
  obtain ⟨⟨_, _⟩, _⟩ := x
  obtain ⟨⟨_, _⟩, _⟩ := y
  obtain ⟨⟨_, _⟩, _⟩ := z
  simp only [Precedes, Moment.lt_def, Moment.mk.injEq] at *
  omega

theorem precedes_total (x y : Moment × Action) :
    Precedes x y ∨ Precedes y x := by
  obtain ⟨⟨_, _⟩, _⟩ := x
  obtain ⟨⟨_, _⟩, _⟩ := y
  simp only [Precedes, Moment.lt_def, Moment.mk.injEq]
  omega

/-- Whatever happens can be recorded. -/
theorem exists_records (times : List Nat) (launches : List Launch)
    (runs : List (Run Report)) : ∃ h, Records times launches runs h := by
  refine ⟨(happenings times launches runs).mergeSort
    fun x y => decide (Precedes x y), List.mergeSort_perm _ _, ?_⟩
  refine (List.pairwise_mergeSort (fun x y z h h' => ?_) (fun x y => ?_)
    _).imp of_decide_eq_true
  · exact decide_eq_true
      (precedes_trans (of_decide_eq_true h) (of_decide_eq_true h'))
  · simpa using precedes_total x y

namespace Records

variable {times : List Nat} {launches : List Launch} {runs : List (Run Report)}
  {l : Launch} {r : Run Report} {t : Nat}

/-- Of what is recorded, what stands in front of something does not come
behind it. -/
theorem precedes (h : Records times launches runs (front ++ x :: back)) :
    (∀ y ∈ front, Precedes y x) ∧ ∀ y ∈ back, Precedes x y := by
  have hs := List.pairwise_append.mp h.sorted
  exact ⟨fun y hy => hs.2.2 y hy x (List.mem_cons_self ..),
    (List.pairwise_cons.mp hs.2.1).1⟩

theorem mem_iff (h : Records times launches runs hist) :
    x ∈ hist ↔ x ∈ happenings times launches runs :=
  h.perm.mem_iff

theorem mem_cancel_iff (h : Records times launches runs hist) :
    (m, Action.cancel) ∈ hist ↔ ∃ t ∈ times, m = ⟨t, 0⟩ := by
  rw [h.mem_iff, mem_happenings]
  constructor
  · rintro (⟨t, ht, hx⟩ | ⟨i, l, r, -, -, hx⟩)
    · exact ⟨t, ht, (Prod.mk.inj hx).1⟩
    · simp [mem_actions] at hx
  · rintro ⟨t, ht, rfl⟩
    exact .inl ⟨t, ht, rfl⟩

/-- What is recorded of a build is what it does. -/
theorem mem_iff_mem_actions (h : Records times launches runs hist)
    (hl : launches[i]? = some l) (hr : runs[i]? = some r)
    (hx : x.2.build? = some i) : x ∈ hist ↔ x ∈ l.actions i r := by
  rw [h.mem_iff, mem_happenings]
  constructor
  · rintro (⟨t, -, rfl⟩ | ⟨j, l', r', hl', hr', hj⟩)
    · cases hx
    · obtain rfl : j = i := by
        rcases (mem_actions.mp hj).2 with rfl | ⟨-, rfl⟩ | rfl <;>
          exact Option.some.inj hx
      obtain rfl := Option.some.inj (hl.symm.trans hl')
      obtain rfl := Option.some.inj (hr.symm.trans hr')
      exact hj
  · exact fun hj => .inr ⟨i, l, r, hl, hr, hj⟩

theorem mem_begins_iff (h : Records times launches runs hist)
    (hl : launches[i]? = some l) (hr : runs[i]? = some r) :
    (m, Action.begins i) ∈ hist ↔
      l.start ≤ r.finish.instant ∧ m = ⟨l.start, 0⟩ := by
  rw [h.mem_iff_mem_actions hl hr rfl, mem_actions]
  simp

theorem mem_ends_iff {o : Outcome Report}
    (h : Records times launches runs hist) (hl : launches[i]? = some l)
    (hr : runs[i]? = some r) :
    (m, Action.ends i o) ∈ hist ↔
      l.start ≤ r.finish.instant ∧ m = r.finish ∧ o = r.outcome := by
  rw [h.mem_iff_mem_actions hl hr rfl, mem_actions]
  simp

/-- **When a build is in flight**: it is so at a cancellation behind its
start and not behind its end. -/
theorem inFlight_iff
    (h : Records times launches runs (front ++ (⟨t, 0⟩, .cancel) :: back))
    (hl : launches[i]? = some l) (hr : runs[i]? = some r) :
    InFlight front i ↔ l.start < t ∧ ⟨t, 0⟩ ≤ r.finish := by
  obtain ⟨hfront, hback⟩ := h.precedes
  constructor
  · rintro ⟨f, m, b, rfl, hno⟩
    have hbegins : (m, Action.begins i) ∈ f ++ (m, .begins i) :: b := by simp
    obtain ⟨hle, rfl⟩ := (h.mem_begins_iff hl hr).mp
      (List.mem_append_left _ hbegins)
    have hlt : (⟨l.start, 0⟩ : Moment) < ⟨t, 0⟩ :=
      (hfront _ hbegins).lt (by simp [Action.rank])
    refine ⟨by simpa [Moment.lt_def] using hlt, ?_⟩
    -- the end of the build stands behind the cancellation
    have hends := (h.mem_ends_iff hl hr).mpr ⟨hle, rfl, rfl⟩
    rw [List.append_assoc, List.cons_append] at h hends
    rcases List.mem_append.mp hends with hmem | hmem
    · have hlate : r.finish < ⟨l.start, 0⟩ :=
        (h.precedes.1 _ hmem).lt (by simp [Action.rank])
      simp only [Moment.lt_def] at hlate
      omega
    · simp only [List.mem_cons, List.mem_append, Prod.mk.injEq, reduceCtorEq,
        and_false, false_or] at hmem
      rcases hmem with hmem | hmem
      · exact absurd rfl (hno _ hmem r.outcome)
      · exact (hback _ hmem).le
  · rintro ⟨hlt, hle⟩
    have hstart : l.start ≤ r.finish.instant :=
      Nat.le_trans (Nat.le_of_lt hlt) (Moment.instant_le hle)
    have hbegins := (h.mem_begins_iff hl hr).mpr ⟨hstart, rfl⟩
    simp only [List.mem_append, List.mem_cons, Prod.mk.injEq, reduceCtorEq,
      and_false, false_or] at hbegins
    rcases hbegins with hmem | hmem
    · obtain ⟨f, b, rfl⟩ := List.append_of_mem hmem
      refine ⟨f, _, b, rfl, fun y hy o ho => ?_⟩
      obtain ⟨m, a⟩ := y
      obtain rfl : a = .ends i o := ho
      have hfirst :
          (m, Action.ends i o) ∈ f ++ (⟨l.start, 0⟩, .begins i) :: b :=
        List.mem_append_right _ (List.mem_cons_of_mem _ hy)
      obtain ⟨-, rfl, -⟩ := (h.mem_ends_iff hl hr).mp
        (List.mem_append_left _ hfirst)
      exact absurd ((hfront _ hfirst).lt (by simp [Action.rank]))
        (Moment.not_lt.mpr hle)
    · have hle' : (⟨t, 0⟩ : Moment) ≤ ⟨l.start, 0⟩ := (hback _ hmem).le
      have := Moment.instant_le hle'
      dsimp only at this
      omega

/-- **When the shared set asks a build to stop**: when the pipeline is
cancelled for the first time after its start, if it has not ended by then. -/
theorem asked_eq (h : Records times launches runs hist)
    (hl : launches[i]? = some l) (hr : runs[i]? = some r) :
    ((Shared.after hist).events i).asked
      = (cancelledAt times l.start).filter fun m => m ≤ r.finish := by
  cases ha : ((Shared.after hist).events i).asked with
  | none =>
    symm
    refine Option.filter_eq_none_iff.mpr fun m hm hle => ?_
    obtain ⟨t, ht, hlt, rfl, -⟩ := cancelledAt_eq_some_iff.mp hm
    obtain ⟨front, back, rfl⟩ :=
      List.append_of_mem (h.mem_cancel_iff.mpr ⟨t, ht, rfl⟩)
    exact Shared.asked_ne_none _ _
      ((h.inFlight_iff hl hr).mpr ⟨hlt, of_decide_eq_true hle⟩) ha
  | some m =>
    symm
    obtain ⟨front, back, rfl, hi, hnone⟩ := Shared.exists_of_asked ha
    obtain ⟨t, ht, rfl⟩ := h.mem_cancel_iff.mp
      (List.mem_append_right front (List.mem_cons_self ..))
    obtain ⟨hlt, hle⟩ := (h.inFlight_iff hl hr).mp hi
    refine Option.filter_eq_some_iff.mpr
      ⟨cancelledAt_eq_some_iff.mpr ⟨t, ht, hlt, rfl, fun t' ht' hlt' => ?_⟩,
        decide_eq_true hle⟩
    -- an earlier one would have set the event before
    by_contra hearly
    rw [Nat.not_le] at hearly
    have hmem := h.mem_cancel_iff.mpr ⟨t', ht', rfl⟩
    rcases List.mem_append.mp hmem with hmem | hmem
    · obtain ⟨f, b, rfl⟩ := List.append_of_mem hmem
      refine Shared.asked_ne_none _ b ?_ hnone
      rw [List.append_assoc, List.cons_append] at h
      have hle' : (⟨t', 0⟩ : Moment) ≤ ⟨t, 0⟩ := .inl hearly
      exact (h.inFlight_iff hl hr).mpr ⟨hlt', Moment.le_trans hle' hle⟩
    · rcases List.mem_cons.mp hmem with heq | hmem
      · have : t' = t := by simpa using heq
        omega
      · have hle' : (⟨t, 0⟩ : Moment) ≤ ⟨t', 0⟩ := (h.precedes.2 _ hmem).le
        have := Moment.instant_le hle'
        dsimp only at this
        omega

end Records

/-! ## Two accounts of one thing -/

/-- A build that is over before it is asked to stop is the build that nobody
asks. -/
theorem launched_filter_iff (p : Pipeline) (l : Launch) (r : Run Report)
    (times : List Nat) :
    r = p.launched l ((cancelledAt times l.start).filter
        fun m => m ≤ r.finish)
      ↔ r = p.launched l (cancelledAt times l.start) := by
  cases hm : cancelledAt times l.start with
  | none => rfl
  | some m =>
    by_cases hle : m ≤ r.finish
    · rw [Option.filter_some_pos (by simpa using hle)]
    · rw [Option.filter_some_neg (by simpa using hle)]
      obtain ⟨t, -, hstart, rfl, -⟩ := cancelledAt_eq_some_iff.mp hm
      have hlt : r.finish.instant < t := by
        simp only [Moment.le_def] at hle
        omega
      have halike : Moment.Alike t none (some ⟨t, 0⟩) :=
        .inr ⟨Moment.notBefore_none, Moment.notBefore_some.mpr t.le_refl⟩
      constructor
      · intro hr
        rw [hr] at hlt
        exact hr.trans (killedAt_build_eq hstart halike hlt).symm
      · intro hr
        rw [hr] at hlt
        exact hr.trans (killedAt_build_eq hstart halike.symm hlt).symm

/-- **Builds that are conducted by a history**: each is the build that is
asked to stop when the shared set makes it. -/
def Conducted (p : Pipeline) (h : History) (launches : List Launch)
    (runs : List (Run Report)) : Prop :=
  runs = launches.mapIdx fun i l =>
    p.launched l ((Shared.after h).events i).asked

/-- The builds on a pipeline, each run by itself. -/
def runEach (p : Pipeline) (times : List Nat) (launches : List Launch) :
    List (Run Report) :=
  launches.map fun l => p.runJob times l.job l.requested

/-- **Builds that overlap are run each by itself**, and the other way
round. -/
theorem Records.conducted_iff {times : List Nat} {launches : List Launch}
    {runs : List (Run Report)} (h : Records times launches runs hist)
    (p : Pipeline) :
    Conducted p hist launches runs ↔ runs = p.runEach times launches := by
  have hone : ∀ i : Nat, runs[i]? = (launches.mapIdx fun i l =>
        p.launched l ((Shared.after hist).events i).asked)[i]?
      ↔ runs[i]? = (p.runEach times launches)[i]? := by
    intro i
    rw [runEach, List.getElem?_mapIdx, List.getElem?_map]
    cases hl : launches[i]? with
    | none => rfl
    | some l =>
      cases hr : runs[i]? with
      | none => simp
      | some r =>
        rw [Option.map_some, Option.map_some, Option.some_inj, Option.some_inj,
          h.asked_eq hl hr]
        exact p.launched_filter_iff l r times
  exact List.ext_getElem?_iff.trans
    ((forall_congr' hone).trans List.ext_getElem?_iff.symm)

/-- Only the cancellations count that fall between the start and the end. -/
theorem cancelledAt_filter (times : List Nat) (start : Nat) (finish : Moment) :
    cancelledAt (times.filter fun t => start < t ∧ ⟨t, 0⟩ ≤ finish) start
      = (cancelledAt times start).filter fun m => m ≤ finish := by
  ext m
  rw [cancelledAt_eq_some_iff, Option.filter_eq_some_iff,
    cancelledAt_eq_some_iff]
  simp only [List.mem_filter, decide_eq_true_eq]
  constructor
  · rintro ⟨t, ⟨ht, -, hle⟩, hlt, rfl, hmin⟩
    refine ⟨⟨t, ht, hlt, rfl, fun t' ht' hlt' => ?_⟩, hle⟩
    by_cases hle' : (⟨t', 0⟩ : Moment) ≤ finish
    · exact hmin t' ⟨ht', hlt', hle'⟩ hlt'
    · simp only [Moment.le_def] at hle hle'
      omega
  · rintro ⟨⟨t, ht, hlt, rfl, hmin⟩, hle⟩
    exact ⟨t, ⟨ht, hlt, hle⟩, hlt, rfl, fun t' ht' hlt' => hmin t' ht'.1 hlt'⟩

theorem runJob_eq_filter (p : Pipeline) (times : List Nat) (j : Job)
    (requested : Nat) {r : Run Report} (hr : r = p.runJob times j requested) :
    r = p.runJob (times.filter fun t =>
      requested + j.delay < t ∧ ⟨t, 0⟩ ≤ r.finish) j requested := by
  rw [runJob_eq, cancelledAt_filter]
  exact (p.launched_filter_iff ⟨j, requested⟩ r times).mpr hr

/-- Builds that are requested at once are conducted by what they do. -/
theorem conducted_runTogether (p : Pipeline) (times : List Nat)
    (jobs : List Job)
    (h : Records times (jobs.map fun j => ⟨j, 0⟩) (p.runTogether times jobs)
      hist) :
    Conducted p hist (jobs.map fun j => ⟨j, 0⟩) (p.runTogether times jobs) := by
  rw [h.conducted_iff, runEach, List.map_map]
  rfl

/-- Builds that follow one another: each is requested when the one before it
has ended. -/
def inTurn (jobs : List Job) (requested : Nat) (runs : List (Run Report)) :
    List Launch :=
  List.zipWith Launch.mk jobs
    (requested :: runs.map fun r => r.finish.instant)

/-- Builds that follow one another are conducted by what they do. -/
theorem conducted_runInTurn (p : Pipeline) (times : List Nat)
    (jobs : List Job) (requested : Nat)
    (h : Records times
      (inTurn jobs requested (p.runInTurn times jobs requested))
      (p.runInTurn times jobs requested) hist) :
    Conducted p hist (inTurn jobs requested (p.runInTurn times jobs requested))
      (p.runInTurn times jobs requested) := by
  rw [h.conducted_iff]
  clear h
  induction jobs generalizing requested with
  | nil => rfl
  | cons j jobs ih =>
    rw [runInTurn]
    exact congrArg (_ :: ·) (ih _)

/-- **Builds that overlap.** Whatever begins, ends, stops itself and is
cancelled on a pipeline, in whatever order: the active events are those of
the builds that have begun and not ended. Cancelling the pipeline sets the
events of these builds and of no others; an event that has been set was set
like that, or by its own build. A cancellation leaves nothing behind for a
build that is not in flight, as it has ended or begins only later, and what
other builds do leaves nothing behind either, also where they stop. Builds
whose runs are recorded in such a history are asked to stop when the shared
set says so if and only if they are the builds that are run each by itself;
and such a build is what it comes to without the cancellations before its
start and behind its end. -/
theorem builds_overlap (p : Pipeline) :
    (∀ (h : History) (i : Nat),
      (i ∈ (Shared.after h).active ↔ InFlight h i)
        ∧ (∀ m, ((Shared.after (h ++ [(m, .cancel)])).events i).IsSet ↔
          ((Shared.after h).events i).IsSet ∨ InFlight h i)
        ∧ (((Shared.after h).events i).IsSet ↔
          (∃ front m back, h = front ++ (m, .cancel) :: back
            ∧ InFlight front i) ∨ ∃ m, (m, .stops i) ∈ h)
        ∧ (∀ m back, ¬InFlight h i →
          Shared.SameFor i (Shared.after (h ++ (m, .cancel) :: back))
            (Shared.after (h ++ back)))
        ∧ Shared.SameFor i (Shared.after h)
          (Shared.after (h.filter fun x => x.2.concerns i)))
      ∧ (∀ times launches runs h, Records times launches runs h →
        (Conducted p h launches runs ↔ runs = p.runEach times launches))
      ∧ ∀ times j requested,
        let r := p.runJob times j requested
        r = p.runJob (times.filter fun t =>
          requested + j.delay < t ∧ ⟨t, 0⟩ ≤ r.finish) j requested := by
  refine ⟨fun h i => ⟨Shared.mem_active_after h i, fun m => ?_,
      Shared.isSet_after h i, fun m back => Shared.sameFor_after_cancel m back,
      Shared.sameFor_after_filter h i⟩,
    fun times launches runs h hrec => hrec.conducted_iff p,
    fun times j requested => p.runJob_eq_filter times j requested rfl⟩
  rw [Shared.after_concat, Shared.isSet_step_cancel, Shared.mem_active_after]

/-- Three builds on a pipeline that is cancelled at the instant `1`: one that
is in flight then, one that has stopped itself before, and one that begins
later. -/
theorem builds_overlap_strict :
    let nap : Document := ⟨['a'], "<%nap/%>".toList, []⟩
    let gone : Document := ⟨['b'], "<%gone/%>".toList, []⟩
    let launches : List Launch :=
      [⟨⟨[nap], 0, none⟩, 0⟩, ⟨⟨[nap, gone], 0, none⟩, 0⟩,
        ⟨⟨[nap], 2, none⟩, 0⟩]
    let runs := strict.runEach [1] launches
    ∃ h, Records [1] launches runs h
      ∧ Conducted strict h launches runs
      ∧ runs.map (fun r => r.finish.instant) = [1, 0, 5]
      ∧ runs.map aborts = [false, true, false]
      ∧ runs.map (fun r => (r.outcome.result?.map Report.cancelled))
        = [some [['a']], none, some []]
      ∧ ¬InFlight [] 2
      ∧ Shared.SameFor 2 (Shared.after ((⟨1, 0⟩, .cancel) :: h))
        (Shared.after h) := by
  intro nap gone launches runs
  obtain ⟨hshared, hruns, -⟩ := builds_overlap strict
  obtain ⟨h, hrec⟩ := exists_records [1] launches runs
  refine ⟨h, hrec, (hruns _ _ _ h hrec).mpr rfl, ?_, ?_, ?_, not_inFlight_nil,
    (hshared [] 2).2.2.2.1 ⟨1, 0⟩ h not_inFlight_nil⟩
  all_goals
    unfold runs launches nap gone
    cbv

end Shortcode.Pipeline
