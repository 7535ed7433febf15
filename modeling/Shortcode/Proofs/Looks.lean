import Mathlib.Data.List.Forall2
import Mathlib.Data.List.Sort
import Shortcode.Proofs.Cuts

/-!
# What a group finds

A group that waits looks at its members again and again, and what becomes of
it depends on what it finds at one of these looks. `Group.watch` goes from
one look to the next. Which looks it takes is no matter to those who want to
know how the group ends; what they need is this. If the group finds nothing,
it looks for the last time when everything has ended (`Group.Waited`).
Otherwise the look at which it finds something follows an end that the look
before came too early for, and everything that has ended before that end was
seen at that look already (`Group.Found`).

From this follows at which instant a group ends whose members fail
(`Group.Gathering.Failing`): at the first instant at which one of them does.
Nothing more can be said without the steps within that instant. The failure
need not be that of the first member that fails then, nor of the one that
fails first: it is that of the first one, in order, among those that have
failed when the group looks.
-/

namespace Shortcode.Group

/-! ## Points -/

namespace Point

variable {p q : Point}

theorem map_moment_earliest? (p q : Option Point) :
    (earliest? p q).map Point.moment
      = Moment.earliest? (p.map Point.moment) (q.map Point.moment) := by
  cases p with
  | none => cases q <;> rfl
  | some p =>
    cases q with
    | none => rfl
    | some q =>
      simp only [earliest?, Option.map_some, Moment.earliest?, Moment.earlier]
      by_cases h : p ≤ q
      · rw [if_pos h, if_pos (moment_le h)]
        rfl
      · rw [if_neg h]
        split
        · next hle =>
          -- the moments are the same, and only the places differ
          have hqp := moment_le ((le_total p q).resolve_left h)
          exact congrArg some (Moment.le_antisymm hqp hle)
        · rfl

end Point

/-! ## Order -/

section

variable {ι : Type} {before : ι → ι → Bool}

theorem inOrder_eq_insertionSort (before : ι → ι → Bool) (as : List ι) :
    inOrder before as = as.insertionSort fun a b => before a b := by
  have hinsert (a : ι) (as : List ι) :
      insert before a as = as.orderedInsert (fun a b => before a b) a := by
    induction as with
    | nil => rfl
    | cons b rest ih => rw [insert, List.orderedInsert, ih]
  unfold inOrder
  induction as with
  | nil => rfl
  | cons a as ih => rw [List.foldr_cons, ih, hinsert, List.insertionSort_cons]

theorem perm_inOrder (before : ι → ι → Bool) (as : List ι) :
    (inOrder before as).Perm as := by
  rw [inOrder_eq_insertionSort]
  exact List.perm_insertionSort _ as

theorem pairwise_inOrder
    (htrans : ∀ a b c, before a b → before b c → before a c)
    (htotal : ∀ a b, before a b ∨ before b a) (as : List ι) :
    (inOrder before as).Pairwise fun a b => before a b := by
  have : IsTrans ι fun a b => before a b := ⟨htrans⟩
  have : Std.Total fun a b : ι => (before a b : Prop) := ⟨htotal⟩
  rw [inOrder_eq_insertionSort]
  exact List.pairwise_insertionSort _ as

end

theorem pairwise_earliestFirst (ps : List Point) :
    (earliestFirst ps).Pairwise fun a b => a ≤ b := by
  refine (pairwise_inOrder (fun a b c hab hbc => ?_) (fun a b => ?_) ps).imp
    fun hab => by simpa using hab
  · simpa using Point.le_trans (by simpa using hab) (by simpa using hbc)
  · simpa using Point.le_total a b

theorem mem_earliestFirst {p : Point} {ps : List Point} :
    p ∈ earliestFirst ps ↔ p ∈ ps :=
  (perm_inOrder _ ps).mem_iff

theorem pairwise_latestFirst (ms : List Moment) :
    (latestFirst ms).Pairwise fun a b => b ≤ a := by
  refine (pairwise_inOrder (fun a b c hab hbc => ?_) (fun a b => ?_) ms).imp
    fun hab => by simpa using hab
  · simpa using Moment.le_trans (by simpa using hbc) (by simpa using hab)
  · simpa using Moment.le_total b a

theorem mem_latestFirst {m : Moment} {ms : List Moment} :
    m ∈ latestFirst ms ↔ m ∈ ms :=
  (perm_inOrder _ ms).mem_iff

/-! ## Waiting -/

variable {β : Type}

/-- **Someone has waited for everything**: the last look was taken when all
had ended, and showed nothing. -/
structure Waited (seen : Point → Option β) (last : Point)
    (ends : List Point) (look : Point) : Prop where
  le : last ≤ look
  ended : ∀ e ∈ ends, e ≤ look
  missed : look = last ∨ seen look = none
  /-- A look is taken only when something has ended. -/
  soon : look = last ∨ ∃ e ∈ ends, ¬e ≤ last ∧ look = e.noticed

/-- **Someone has found something** at a look that follows an end. What has
ended sooner was seen before, and showed nothing. -/
structure Found (seen : Point → Option β) (last : Point)
    (ends : List Point) (look : Point) (f : β) : Prop where
  seen_eq : seen look = some f
  cause : ∃ e ∈ ends, ∃ before, look = e.noticed ∧ ¬e ≤ before
    ∧ last ≤ before ∧ (before = last ∨ seen before = none)
    ∧ ∀ e' ∈ ends, e' ≤ before ∨ e ≤ e'

/-- **How waiting ends.** The induction is on the ends that are left, in
their order. -/
theorem watch_cases (seen : Point → Option β) {ends : List Point}
    (h : ends.Pairwise fun a b => a ≤ b) (last : Point) :
    ((watch seen last ends).2 = none
        ∧ Waited seen last ends (watch seen last ends).1)
      ∨ ∃ f, (watch seen last ends).2 = some f
        ∧ Found seen last ends (watch seen last ends).1 f := by
  induction ends generalizing last with
  | nil =>
    exact .inl ⟨rfl, last.le_refl, List.forall_mem_nil _, .inl rfl, .inl rfl⟩
  | cons e rest ih =>
    obtain ⟨he, hrest⟩ := List.pairwise_cons.mp h
    rw [watch]
    by_cases hle : e ≤ last
    · rw [if_pos hle]
      rcases ih hrest last with ⟨hn, hw⟩ | ⟨f, hs, hf⟩
      · refine .inl ⟨hn, hw.le, List.forall_mem_cons.mpr
          ⟨Point.le_trans hle hw.le, hw.ended⟩, hw.missed, ?_⟩
        rcases hw.soon with heq | ⟨e', he', h'⟩
        · exact .inl heq
        · exact .inr ⟨e', List.mem_cons_of_mem e he', h'⟩
      · obtain ⟨e', he', before, hlook, hnot, hlast, hmissed, hall⟩ := hf.cause
        exact .inr ⟨f, hs, hf.seen_eq, e', List.mem_cons_of_mem e he', before,
          hlook, hnot, hlast, hmissed, List.forall_mem_cons.mpr
            ⟨.inl (Point.le_trans hle hlast), hall⟩⟩
    · rw [if_neg hle]
      have hlast : last ≤ e := (Point.le_total e last).resolve_left hle
      have hnoticed : last ≤ e.noticed := Point.le_trans hlast e.le_noticed
      cases hseen : seen e.noticed with
      | some f =>
        exact .inr ⟨f, rfl, hseen, e, List.mem_cons_self, last, rfl, hle,
          last.le_refl, .inl rfl, List.forall_mem_cons.mpr
            ⟨.inr e.le_refl, fun e' he' => .inr (he e' he')⟩⟩
      | none =>
        dsimp only
        rcases ih hrest e.noticed with ⟨hn, hw⟩ | ⟨f, hs, hf⟩
        · refine .inl ⟨hn, Point.le_trans hnoticed hw.le,
            List.forall_mem_cons.mpr
              ⟨Point.le_trans e.le_noticed hw.le, hw.ended⟩, ?_, ?_⟩
          · exact .inr (hw.missed.elim (fun h => by rw [h]; exact hseen) id)
          · refine .inr ?_
            rcases hw.soon with h | ⟨e', he', hnot, h⟩
            · exact ⟨e, List.mem_cons_self, hle, h⟩
            · exact ⟨e', List.mem_cons_of_mem e he',
                fun h => hnot (Point.le_trans h hnoticed), h⟩
        · obtain ⟨e', he', before, hlook, hnot, hlast', hmissed, hall⟩ :=
            hf.cause
          refine .inr ⟨f, hs, hf.seen_eq, e', List.mem_cons_of_mem e he',
            before, hlook, hnot, Point.le_trans hnoticed hlast',
            .inr (hmissed.elim (fun h => h ▸ hseen) id),
            List.forall_mem_cons.mpr
              ⟨.inl (Point.le_trans e.le_noticed hlast'), hall⟩⟩

section

variable {seen : Point → Option β} {last look : Point} {ends : List Point}
  {b : β} {Shown : Point → Prop}

/-- Someone who has waited for everything has missed nothing that a look
shows once it has ended. -/
theorem Waited.not_shown (h : Waited seen last ends look)
    (hends : ∀ p, Shown p → p ∈ ends ∧ ¬p ≤ last)
    (hseen : ∀ l, seen l = none → ∀ p, Shown p → ¬p ≤ l) (p : Point) :
    ¬Shown p := by
  intro hp
  have hle := h.ended p (hends p hp).1
  rcases h.missed with heq | hnone
  · exact (hends p hp).2 (heq ▸ hle)
  · exact hseen _ hnone p hp hle

/-- Who has found something was woken by the end of something, and nothing
that a look shows had ended before that. -/
theorem Found.soon (h : Found seen last ends look b)
    (hends : ∀ p, Shown p → p ∈ ends ∧ ¬p ≤ last)
    (hseen : ∀ l, seen l = none → ∀ p, Shown p → ¬p ≤ l) :
    ∃ e ∈ ends, look = e.noticed ∧ ∀ p, Shown p → e ≤ p := by
  obtain ⟨e, he, before, hlook, -, -, hmissed, hall⟩ := h.cause
  refine ⟨e, he, hlook, fun p hp => ?_⟩
  refine (hall p (hends p hp).1).resolve_left fun hle => ?_
  -- it was seen at the look before, which showed nothing
  rcases hmissed with heq | hnone
  · exact (hends p hp).2 (heq ▸ hle)
  · exact hseen _ hnone p hp hle

end

/-! ## Members -/

variable {α : Type} {first : Moment} {runs : List (Run α)}

/-- **Members start when the group lets them**, and know what those before
them have asked for. What holds of that at the beginning, and goes on to
hold with what a member asks for, holds at every start. -/
theorem exists_start (limit : Nat) (first : Moment)
    (cancels : Option Moment) (ms : List (Member α))
    (known : Option Moment → Prop) (h : known cancels)
    (hm : ∀ m ∈ ms, ∀ start cancels, first ≤ start →
      (limit = 0 → start = first) → known cancels →
      known (Moment.earliest? cancels (m start cancels).cancels))
    (ends : List Moment) :
    List.Forall₂ (fun m r => ∃ start cancels, first ≤ start
        ∧ (limit = 0 → start = first) ∧ known cancels ∧ r = m start cancels)
      ms (members limit first cancels ends ms) := by
  induction ms generalizing cancels ends with
  | nil => exact .nil
  | cons m ms ih =>
    obtain ⟨hm, hms⟩ := List.forall_mem_cons.mp hm
    have hle := first_le_start limit first ends
    have hzero : limit = 0 → start limit first ends = first := fun h => by
      rw [start, if_pos h]
    exact .cons ⟨_, cancels, hle, hzero, h, rfl⟩
      (ih _ (hm _ _ hle hzero h) hms _)

/-- What is paired with something is paired with one of the others. -/
theorem exists_of_forall₂ {ι κ : Type} {R : ι → κ → Prop} {xs : List ι}
    {ys : List κ} (h : List.Forall₂ R xs ys) : ∀ y ∈ ys, ∃ x ∈ xs, R x y := by
  induction h with
  | nil => simp
  | @cons x y xs ys hxy _ ih =>
    refine List.forall_mem_cons.mpr ⟨⟨x, List.mem_cons_self, hxy⟩, ?_⟩
    intro y hy
    obtain ⟨x, hx, hxy⟩ := ih y hy
    exact ⟨x, List.mem_cons_of_mem _ hx, hxy⟩

/-- Every run of a group is that of a member, from some moment on. -/
theorem exists_of_mem_members {limit : Nat} {cancels : Option Moment}
    {ends : List Moment} {ms : List (Member α)} {r : Run α}
    (h : r ∈ members limit first cancels ends ms) :
    ∃ m ∈ ms, ∃ start known, first ≤ start ∧ r = m start known := by
  have hstart := exists_start limit first cancels ms (fun _ => True) trivial
    (fun _ _ _ _ _ _ _ => trivial) ends
  obtain ⟨m, hm, start, known, hle, -, -, hr⟩ := exists_of_forall₂ hstart r h
  exact ⟨m, hm, start, known, hle, hr⟩

/-- Members that ask for no cancellation do not know of one. -/
theorem exists_start_none {ms : List (Member α)}
    (hm : ∀ m ∈ ms, ∀ start, (m start none).cancels = none) (limit : Nat)
    (first : Moment) (ends : List Moment) :
    List.Forall₂ (fun m r => ∃ start, first ≤ start ∧ r = m start none) ms
      (members limit first none ends ms) := by
  refine (exists_start limit first none ms (· = none) rfl ?_ ends).imp ?_
  · intro m hmem start cancels _ _ hc
    subst hc
    rw [hm m hmem start]
    rfl
  · rintro m _ ⟨start, _, hle, -, rfl, rfl⟩
    exact ⟨start, hle, rfl⟩

/-- Members that all have results give them in order. -/
theorem results_of_returned
    (h : ∀ r ∈ runs, ∃ a, r.outcome = .returned a) :
    ∃ as, results runs = .returned as
      ∧ List.Forall₂ (fun r a => r.outcome = .returned a) runs as := by
  induction runs with
  | nil => exact ⟨[], rfl, .nil⟩
  | cons r rest ih =>
    obtain ⟨⟨a, ha⟩, hrest⟩ := List.forall_mem_cons.mp h
    obtain ⟨as, has, hf⟩ := ih hrest
    refine ⟨a :: as, ?_, .cons ha hf⟩
    rw [results, ha]
    dsimp only
    rw [has]
    rfl

/-- Results are those of the members, in order. -/
theorem returned_of_results {as : List α} (h : results runs = .returned as) :
    List.Forall₂ (fun r a => r.outcome = .returned a) runs as := by
  induction runs generalizing as with
  | nil =>
    obtain rfl := Outcome.returned.inj h
    exact .nil
  | cons r rest ih =>
    rw [results] at h
    split at h
    · simp at h
    · simp at h
    · next a ha =>
      obtain ⟨bs, hrest, he⟩ := Outcome.bind_eq_returned_iff.mp h
      obtain rfl := Except.ok.inj he
      exact .cons ha (ih hrest)

theorem exists_of_results_failed {f : Failure}
    (h : results runs = .failed f) : ∃ r ∈ runs, r.outcome = .failed f := by
  induction runs with
  | nil => simp [results] at h
  | cons r rest ih =>
    rw [results] at h
    split at h
    · simp at h
    · next g hg =>
      obtain rfl := Outcome.failed.inj h
      exact ⟨r, List.mem_cons_self, hg⟩
    · rcases Outcome.bind_eq_failed_iff.mp h with hrest | ⟨_, _, he⟩
      · obtain ⟨x, hx, ho⟩ := ih hrest
        exact ⟨x, List.mem_cons_of_mem _ hx, ho⟩
      · simp at he

/-- The latest of moments is one of them, and no other is later. -/
theorem latest_spec (first : Moment) (ms : List Moment) :
    (∀ m ∈ first :: ms, m ≤ latest first ms)
      ∧ latest first ms ∈ first :: ms := by
  unfold latest
  induction ms generalizing first with
  | nil => simp [Moment.le_refl]
  | cons m ms ih =>
    obtain ⟨hle, hmem⟩ := ih (first.latter m)
    rw [List.foldl_cons]
    obtain ⟨hl, hrest⟩ := List.forall_mem_cons.mp hle
    refine ⟨List.forall_mem_cons.mpr
      ⟨Moment.le_trans (first.le_latter_left m) hl,
        List.forall_mem_cons.mpr
          ⟨Moment.le_trans (first.le_latter_right m) hl, hrest⟩⟩, ?_⟩
    rcases List.mem_cons.mp hmem with he | hmem
    · rw [he]
      unfold Moment.latter
      split <;> simp
    · simp [hmem]

/-- What no moment comes after is not before the latest of them. -/
theorem latest_le {first m : Moment} {ms : List Moment} (h : first ≤ m)
    (hms : ∀ n ∈ ms, n ≤ m) : latest first ms ≤ m := by
  rcases List.mem_cons.mp (latest_spec first ms).2 with he | hmem
  · rwa [he]
  · exact hms _ hmem

/-- What is no later than the first request is no later than each. -/
theorem notAfter_cancellation? {a : Moment} {cancels : Option Moment} :
    a.NotAfter (cancellation? cancels runs)
      ↔ a.NotAfter cancels ∧ ∀ r ∈ runs, a.NotAfter r.cancels := by
  unfold cancellation?
  induction runs generalizing cancels with
  | nil => simp
  | cons r rest ih => simp [ih, and_assoc]

/-! ## Members in their places -/

@[simp] theorem map_run_placed (limit : Nat) (first : Moment)
    (ends : List Point) (runs : List (Run α)) :
    (placed limit first ends runs).map Placed.run = runs := by
  induction runs generalizing ends with
  | nil => rfl
  | cons r rest ih => rw [placed, List.map_cons, ih]

/-- A member has ended at a point, or it can be cut there. -/
theorem Placed.precedes_iff {x : Placed α} {p : Point} :
    (p.cut x.place).Precedes x.run.finish ↔ ¬x.finish ≤ p := by
  simp only [Cut.Precedes, Point.cut, Point.le_def, Placed.finish,
    decide_eq_true_eq, Moment.lt_def, Moment.ext_iff]
  omega

theorem Placed.upTo_of_le {x : Placed α} {p : Point} (h : x.finish ≤ p) :
    x.upTo p = x.run.whole :=
  Run.upTo_of_not_precedes fun hc => Placed.precedes_iff.mp hc h

/-- What is found is told of a member that has ended, and nothing is told of
those before it that have. -/
theorem found?_eq_some_iff {told : Run α → Option β} {xs : List (Placed α)}
    {look : Point} {b : β} :
    found? told xs look = some b
      ↔ ∃ front x back, xs = front ++ x :: back ∧ x.finish ≤ look
        ∧ told x.run = some b
        ∧ ∀ y ∈ front, y.finish ≤ look → told y.run = none := by
  unfold found?
  rw [List.findSome?_eq_some_iff]
  constructor
  · rintro ⟨front, x, back, hxs, hx, hfront⟩
    split at hx
    · next hle =>
      refine ⟨front, x, back, hxs, hle, hx, fun y hy hyle => ?_⟩
      have hnone := hfront y hy
      rwa [if_pos hyle] at hnone
    · cases hx
  · rintro ⟨front, x, back, hxs, hle, hx, hfront⟩
    refine ⟨front, x, back, hxs, (if_pos hle).trans hx, fun y hy => ?_⟩
    split
    · next hyle => exact hfront y hy hyle
    · rfl

theorem found?_eq_none_iff {told : Run α → Option β} {xs : List (Placed α)}
    {look : Point} :
    found? told xs look = none
      ↔ ∀ x ∈ xs, x.finish ≤ look → told x.run = none := by
  unfold found?
  rw [List.findSome?_eq_none_iff]
  refine forall₂_congr fun x _ => ?_
  split
  · next hle => exact ⟨fun h _ => h, fun h => h hle⟩
  · next hle => exact ⟨fun _ h => absurd h hle, fun _ => rfl⟩

theorem failure?_eq_none_iff {o : Outcome α} :
    o.failure? = none ↔ ∀ f, o ≠ .failed f := by
  cases o <;> simp [Outcome.failure?]

theorem failed?_eq_some_iff {xs : List (Placed α)} {look : Point}
    {f : Failure} :
    failed? xs look = some f
      ↔ ∃ front x back, xs = front ++ x :: back ∧ x.finish ≤ look
        ∧ x.run.outcome = .failed f
        ∧ ∀ y ∈ front, y.finish ≤ look → ∀ g, y.run.outcome ≠ .failed g := by
  unfold failed?
  rw [found?_eq_some_iff]
  simp only [Outcome.failure?_eq_some_iff, failure?_eq_none_iff]

theorem failed?_eq_none_iff {xs : List (Placed α)} {look : Point} :
    failed? xs look = none
      ↔ ∀ x ∈ xs, x.finish ≤ look → ∀ f, x.run.outcome ≠ .failed f := by
  unfold failed?
  rw [found?_eq_none_iff]
  simp only [failure?_eq_none_iff]

/-- What is gathered of calls is what is left of them. -/
theorem kept_gathered {ι : Type} {xs : List ι} {f : ι → Course}
    {calls : ι → List Call} (closed : Moment) (waiting : Bool)
    (request : Option Moment)
    (h : ∀ x ∈ xs, Call.Kept (f x).calls (calls x)) :
    Call.Kept (gathered closed waiting request (xs.map f)).calls
      (xs.flatMap calls) := by
  refine (Call.Kept.of_sublist List.filter_sublist).trans ?_
  induction xs with
  | nil => exact .nil
  | cons x xs ih =>
    exact (h x List.mem_cons_self).append
      (ih fun y hy => h y (List.mem_cons_of_mem x hy))

/-- Where no member asks for the cancellation, nobody does. -/
theorem cancellation?_eq_none (h : ∀ r ∈ runs, r.cancels = none) :
    cancellation? none runs = none :=
  Moment.eq_none_of_notAfter fun _ => notAfter_cancellation?.mpr
    ⟨Moment.notAfter_none _, fun r hr => by
      rw [h r hr]
      exact Moment.notAfter_none _⟩

/-! ## Groups -/

namespace Gathering

variable {g : Gathering α}

@[simp] theorem map_run_members (g : Gathering α) :
    g.members.map Placed.run = g.runs :=
  map_run_placed _ _ _ _

theorem run_mem {x : Placed α} (hx : x ∈ g.members) : x.run ∈ g.runs := by
  rw [← g.map_run_members]
  exact List.mem_map_of_mem hx

theorem exists_placed {r : Run α} (hr : r ∈ g.runs) :
    ∃ x ∈ g.members, x.run = r := by
  rw [← g.map_run_members] at hr
  exact List.mem_map.mp hr

theorem finish_mem_ends {x : Placed α} (hx : x ∈ g.members) :
    x.finish ∈ g.ends :=
  List.mem_append_left _ (List.mem_map_of_mem hx)

/-- What ends is a member, or the one who waits for the cancellation. -/
theorem mem_ends {e : Point} (he : e ∈ g.ends) :
    (∃ x ∈ g.members, x.finish = e)
      ∨ g.heard = some e ∧ ∃ x ∈ g.members, e ≤ x.finish := by
  rcases List.mem_append.mp he with he | he
  · exact .inl (List.mem_map.mp he)
  · obtain ⟨he, hle⟩ := List.mem_filter.mp he
    refine .inr ⟨Option.mem_toList.mp he, ?_⟩
    obtain ⟨e', he', hle⟩ := List.any_eq_true.mp hle
    obtain ⟨x, hx, rfl⟩ := List.mem_map.mp he'
    exact ⟨x, hx, by simpa using hle⟩

/-- **How a group waits.** -/
theorem watched_cases (g : Gathering α) :
    (g.watched.2 = none ∧ Waited g.seen? ⟨g.called, 0⟩ g.ends g.look)
      ∨ ∃ f, g.watched.2 = some f
        ∧ Found g.seen? ⟨g.called, 0⟩ g.ends g.look f := by
  rcases watch_cases g.seen? (pairwise_earliestFirst g.ends) ⟨g.called, 0⟩ with
    ⟨hn, hw⟩ | ⟨f, hs, hf⟩
  · refine .inl ⟨hn, hw.le, fun e he => hw.ended e (mem_earliestFirst.mpr he),
      hw.missed, hw.soon.imp_right ?_⟩
    exact fun ⟨e, he, h⟩ => ⟨e, mem_earliestFirst.mp he, h⟩
  · obtain ⟨e, he, before, hlook, hnot, hlast, hmissed, hall⟩ := hf.cause
    exact .inr ⟨f, hs, hf.seen_eq, e, mem_earliestFirst.mp he, before, hlook,
      hnot, hlast, hmissed, fun e' he' => hall e' (mem_earliestFirst.mpr he')⟩

/-- A group learns of the first request, from outside or by a member. -/
theorem map_moment_request (g : Gathering α) :
    g.request.map Point.moment = cancellation? g.cancels g.runs := by
  have hfold (xs : List (Placed α)) (p : Option Point) :
      (xs.foldl (fun p x => Point.earliest? p x.cancels) p).map Point.moment
        = cancellation? (p.map Point.moment) (xs.map Placed.run) := by
    unfold cancellation?
    induction xs generalizing p with
    | nil => rfl
    | cons x xs ih =>
      have hx : x.cancels.map Point.moment = x.run.cancels := by
        unfold Placed.cancels
        cases x.run.cancels <;> rfl
      rw [List.foldl_cons, ih, Point.map_moment_earliest?, hx]
      rfl
  have hcancels : (g.cancels.map (⟨·, 0⟩ : Moment → Point)).map Point.moment
      = g.cancels := by
    cases g.cancels <;> rfl
  unfold request request?
  rw [hfold, g.map_run_members, hcancels]

/-- Where nobody asks for the cancellation, nobody hears of it. -/
theorem request_eq_none (hc : g.cancels = none)
    (hr : ∀ r ∈ g.runs, r.cancels = none) : g.request = none := by
  have hmap := g.map_moment_request
  rw [hc, cancellation?_eq_none hr] at hmap
  exact Option.map_eq_none_iff.mp hmap

theorem hears_eq_false (h : g.request = none) (p : Point) :
    g.hears p = false := by
  unfold hears heard
  rw [h]
  rfl

theorem exists_member_of_mem_ends (h : g.request = none) {e : Point}
    (he : e ∈ g.ends) : ∃ x ∈ g.members, x.finish = e := by
  rcases mem_ends he with hx | ⟨hh, -⟩
  · exact hx
  · unfold heard at hh
    rw [h] at hh
    cases hh

/-- The group is called before its members end. -/
def Called (g : Gathering α) : Prop :=
  ∀ r ∈ g.runs, g.called < r.finish

theorem Called.not_le (hg : g.Called) {x : Placed α} (hx : x ∈ g.members) :
    ¬x.finish ≤ ⟨g.called, 0⟩ := fun h =>
  Moment.not_lt.mpr (Point.moment_le h) (hg _ (run_mem hx))

/-- What a look shows that ends the group: that it was cancelled, or a
failure. -/
theorem seen?_eq_some_iff {look : Point} {f : Failure} :
    g.seen? look = some f
      ↔ g.hears look = true ∧ f = g.cancelled
        ∨ g.hears look = false ∧ failed? g.members look = some f := by
  unfold seen?
  cases g.hears look <;> simp [eq_comm]

theorem seen?_eq_none_iff {look : Point} :
    g.seen? look = none
      ↔ g.hears look = false ∧ failed? g.members look = none := by
  unfold seen?
  cases g.hears look <;> simp

theorem called_le_look (g : Gathering α) : g.called ≤ g.look.moment := by
  rcases g.watched_cases with ⟨-, hw⟩ | ⟨f, -, hf⟩
  · exact Point.moment_le hw.le
  · obtain ⟨e, -, before, hlook, hnot, hlast, -, -⟩ := hf.cause
    rw [hlook]
    have he := (Point.le_total e before).resolve_left hnot
    exact Moment.le_skip_of_le
      (Moment.le_trans (Point.moment_le hlast) (Point.moment_le he)) noticing

/-- **A group that fails with the failure of a member**: with that of the
first one, in order, that has failed when the group looks. -/
structure Failing (g : Gathering α) (f : Failure) : Prop where
  hears : g.hears g.look = false
  failed : failed? g.members g.look = some f
  /-- The group looks when something has ended that no failure comes
  before. -/
  cause : ∃ e ∈ g.ends, g.look = e.noticed
    ∧ ∀ x ∈ g.members, ∀ f, x.run.outcome = .failed f → e ≤ x.finish
  /-- No member fails at an earlier instant. -/
  earliest : ∀ r ∈ g.runs, ∀ f, r.outcome = .failed f →
    g.look.moment.instant ≤ r.finish.instant

/-- The failures of members, as something that a look shows. -/
theorem shown_failed (hg : g.Called) :
    let Fails (p : Point) : Prop :=
      ∃ x ∈ g.members, ∃ f, x.run.outcome = .failed f ∧ p = x.finish
    (∀ p, Fails p → p ∈ g.ends ∧ ¬p ≤ ⟨g.called, 0⟩)
      ∧ ∀ l, g.seen? l = none → ∀ p, Fails p → ¬p ≤ l := by
  refine ⟨?_, ?_⟩
  · rintro p ⟨x, hx, -, -, rfl⟩
    exact ⟨finish_mem_ends hx, hg.not_le hx⟩
  · rintro l hl p ⟨x, hx, f, hxf, rfl⟩ hle
    exact failed?_eq_none_iff.mp (seen?_eq_none_iff.mp hl).2 x hx hle f hxf

/-- **A group does not miss a failure**: none comes at an earlier instant than
its last look, whatever that shows. -/
theorem look_le_of_failed (hg : g.Called) {r : Run α} (hr : r ∈ g.runs)
    {f : Failure} (hrf : r.outcome = .failed f) :
    g.look.moment.instant ≤ r.finish.instant := by
  obtain ⟨hends, hseen⟩ := shown_failed hg
  obtain ⟨x, hx, rfl⟩ := exists_placed hr
  rcases g.watched_cases with ⟨-, hw⟩ | ⟨b, -, hf⟩
  · exact absurd ⟨x, hx, f, hrf, rfl⟩ (hw.not_shown hends hseen x.finish)
  · obtain ⟨e, -, hlook, hall⟩ := hf.soon hends hseen
    have hle := hall x.finish ⟨x, hx, f, hrf, rfl⟩
    rw [hlook]
    have hinstant := Moment.instant_le (Point.moment_le hle)
    exact hinstant

/-- The last look is taken because of an end, and does not come later than
its members end. -/
theorem exists_le_finish (hg : g.Called) (hne : g.runs ≠ []) :
    ∃ r ∈ g.runs, g.look.moment.instant ≤ r.finish.instant := by
  have hcause : ∀ e ∈ g.ends, g.look = e.noticed →
      ∃ r ∈ g.runs, g.look.moment.instant ≤ r.finish.instant := by
    intro e he hlook
    have hx : ∃ x ∈ g.members, e ≤ x.finish := by
      rcases mem_ends he with ⟨x, hx, rfl⟩ | ⟨-, hx⟩
      · exact ⟨x, hx, Point.le_refl _⟩
      · exact hx
    obtain ⟨x, hx, hle⟩ := hx
    refine ⟨x.run, run_mem hx, ?_⟩
    rw [hlook]
    have hinstant := Moment.instant_le (Point.moment_le hle)
    exact hinstant
  rcases g.watched_cases with ⟨-, hw⟩ | ⟨b, -, hf⟩
  · rcases hw.soon with hlook | ⟨e, he, -, hlook⟩
    · -- no member ends before the group has been called
      obtain ⟨r, rest, hruns⟩ := List.exists_cons_of_ne_nil hne
      obtain ⟨x, hx, -⟩ := exists_placed (g := g) (r := r) (by simp [hruns])
      exact absurd (hlook ▸ hw.ended _ (finish_mem_ends hx)) (hg.not_le hx)
    · exact hcause e he hlook
  · obtain ⟨e, he, -, hlook, -⟩ := hf.cause
    exact hcause e he hlook

/-- **How a group is over**: all members have ended and none of them has
failed, or it finds that it was cancelled, or it finds a failure. -/
theorem over_cases (hg : g.Called) :
    (g.watched.2 = none ∧ Waited g.seen? ⟨g.called, 0⟩ g.ends g.look
        ∧ ∀ r ∈ g.runs, ∀ f, r.outcome ≠ .failed f)
      ∨ (g.watched.2 = some g.cancelled ∧ g.hears g.look = true)
      ∨ ∃ f, g.watched.2 = some f ∧ g.Failing f := by
  obtain ⟨hends, hseen⟩ := shown_failed hg
  rcases g.watched_cases with ⟨hn, hw⟩ | ⟨f, hs, hf⟩
  · refine .inl ⟨hn, hw, fun r hr f hrf => ?_⟩
    obtain ⟨x, hx, rfl⟩ := exists_placed hr
    exact hw.not_shown hends hseen x.finish ⟨x, hx, f, hrf, rfl⟩
  · rcases seen?_eq_some_iff.mp hf.seen_eq with ⟨hh, rfl⟩ | ⟨hh, hfailed⟩
    · exact .inr (.inl ⟨hs, hh⟩)
    · obtain ⟨e, he, hlook, hall⟩ := hf.soon hends hseen
      have hsooner : ∀ x ∈ g.members, ∀ f, x.run.outcome = .failed f →
          e ≤ x.finish := fun x hx f' hxf =>
        hall x.finish ⟨x, hx, f', hxf, rfl⟩
      exact .inr (.inr ⟨f, hs, hh, hfailed, ⟨e, he, hlook, hsooner⟩,
        fun r hr f' hrf => look_le_of_failed hg hr hrf⟩)

/-- The member whose failure it is ends at the instant of the look. -/
theorem Failing.exists_run {f : Failure} (h : g.Failing f) :
    ∃ r ∈ g.runs, r.outcome = .failed f ∧ r.finish ≤ g.look.moment
      ∧ r.finish.instant = g.look.moment.instant := by
  obtain ⟨front, x, back, hxs, hle, hx, -⟩ := failed?_eq_some_iff.mp h.failed
  have hmem : x ∈ g.members := by
    rw [hxs]
    simp
  have hfinish := Point.moment_le hle
  exact ⟨x.run, run_mem hmem, hx, hfinish, Nat.le_antisymm
    (Moment.instant_le hfinish) (h.earliest _ (run_mem hmem) f hx)⟩

/-- **What a group ends with**: that it was cancelled, the failure of a member
that has ended by the last look, or the results of all of them, which have
ended by then and before any request. -/
theorem outcome_cases (g : Gathering α) :
    g.outcome = .failed g.cancelled
      ∨ (∃ f, g.outcome = .failed f ∧ failed? g.members g.look = some f)
      ∨ g.outcome = results g.runs
        ∧ Waited g.seen? ⟨g.called, 0⟩ g.ends g.look
        ∧ g.look.moment.next.NotAfter (cancellation? g.cancels g.runs) := by
  unfold outcome
  rcases g.watched_cases with ⟨hw, hwaited⟩ | ⟨f, hw, hf⟩
  · rw [hw]
    dsimp only
    split
    · exact .inl rfl
    · next hreached =>
      refine .inr (.inr ⟨rfl, hwaited, ?_⟩)
      rw [← map_moment_request, ← Moment.reached_eq_false_iff]
      simpa using hreached
  · rw [hw]
    rcases seen?_eq_some_iff.mp hf.seen_eq with ⟨-, rfl⟩ | ⟨-, hfailed⟩
    · exact .inl rfl
    · exact .inr (.inl ⟨f, rfl, hfailed⟩)

/-- A group that has results has waited for all its members, and had not been
cancelled when it looked for the last time. -/
theorem waited_of_returned {as : List α} (h : g.outcome = .returned as) :
    Waited g.seen? ⟨g.called, 0⟩ g.ends g.look
      ∧ g.look.moment.next.NotAfter (cancellation? g.cancels g.runs)
      ∧ List.Forall₂ (fun r a => r.outcome = .returned a) g.runs as := by
  rcases g.outcome_cases with he | ⟨f, he, -⟩ | ⟨he, hwaited, hlook⟩
  · rw [he] at h
    cases h
  · rw [he] at h
    cases h
  · exact ⟨hwaited, hlook, returned_of_results (he.symm.trans h)⟩

/-- A group fails with a failure of one of its members, if it is not
cancelled. -/
theorem exists_of_failed {f : Failure} (h : g.outcome = .failed f) :
    f = g.cancelled ∨ ∃ r ∈ g.runs, r.outcome = .failed f := by
  rcases g.outcome_cases with he | ⟨f', he, hf⟩ | ⟨he, -, -⟩
  · exact .inl (Outcome.failed.inj (h.symm.trans he))
  · obtain rfl := Outcome.failed.inj (h.symm.trans he)
    obtain ⟨front, x, back, hxs, -, hx, -⟩ := failed?_eq_some_iff.mp hf
    refine .inr ⟨x.run, run_mem ?_, hx⟩
    rw [hxs]
    simp
  · exact .inr (exists_of_results_failed (he.symm.trans h))

/-! ### What a group does -/

/-- A group that is cut before its last look does not get there. -/
theorem upTo_run_of_precedes {c : Cut} (h : c.Precedes g.look.moment) :
    g.run.upTo c = g.stop c :=
  Run.upTo_settled_of_precedes h (le_gathered _ _ _ _)

theorem upTo_run_of_not_precedes {c : Cut} (h : ¬c.Precedes g.look.moment) :
    g.run.upTo c = g.course :=
  Run.upTo_settled_of_not_precedes h

theorem look_le_finish (g : Gathering α) : g.look.moment ≤ g.run.finish := by
  show g.look.moment ≤ g.course.finish
  exact le_gathered _ _ _ _

theorem called_le_finish (g : Gathering α) : g.called ≤ g.run.finish :=
  Moment.le_trans g.called_le_look g.look_le_finish

/-- The cut that becomes of a cut of the group for a member in some place. -/
def cutOf (g : Gathering α) (c : Cut) (place : Nat) : Cut :=
  if c.Precedes g.look.moment then g.passed c place else g.look.cut place

/-- **A group that is cut** is what is left of its members, and of these
only what was looked after before a request for the cancellation. -/
theorem exists_upTo_run (g : Gathering α) (c : Cut) :
    ∃ closed waiting, g.run.upTo c = gathered closed waiting
        (g.request.map Point.moment)
        (g.members.map fun x => x.run.upTo (g.cutOf c x.place))
      ∧ ∀ place, closed = (g.cutOf c place).moment := by
  unfold cutOf
  by_cases hc : c.Precedes g.look.moment
  · rw [upTo_run_of_precedes hc]
    simp only [if_pos hc]
    exact ⟨_, _, rfl, fun place => (g.moment_passed c place).symm⟩
  · rw [upTo_run_of_not_precedes hc]
    simp only [if_neg hc]
    exact ⟨_, _, rfl, fun _ => rfl⟩

theorem cutOf_mono {c d : Cut} (h : c ≤ d) (place : Nat) :
    g.cutOf c place ≤ g.cutOf d place := by
  unfold cutOf
  by_cases hd : d.Precedes g.look.moment
  · rw [if_pos hd, if_pos (hd.of_le h)]
    exact passed_mono h hd place
  · rw [if_neg hd]
    split
    · next hc => exact passed_le hc place
    · exact Cut.le_refl _

theorem moment_le_cutOf {c : Cut} (h : c.Precedes g.look.moment)
    (place : Nat) : c.moment ≤ (g.cutOf c place).moment
      ∧ (g.cutOf c place).moment.instant = c.moment.instant := by
  unfold cutOf
  rw [if_pos h]
  refine ⟨Cut.moment_le_of_le (le_passed h place), ?_⟩
  rw [moment_passed]
  exact instant_arrival h

theorem earlier_le_cutOf (c : Cut) (place : Nat) :
    c.moment.earlier g.look.moment ≤ (g.cutOf c place).moment := by
  by_cases h : c.Precedes g.look.moment
  · exact Moment.le_trans (c.moment.earlier_le_left _) (moment_le_cutOf h place).1
  · unfold cutOf
    rw [if_neg h]
    exact c.moment.earlier_le_right _

/-- Members are cut by the instant of the cut. -/
theorem instant_cutOf_le (g : Gathering α) (c : Cut) (place : Nat) :
    (g.cutOf c place).moment.instant ≤ c.moment.instant := by
  by_cases h : c.Precedes g.look.moment
  · exact Nat.le_of_eq (moment_le_cutOf h place).2
  · unfold cutOf
    rw [if_neg h]
    exact Moment.instant_le (Cut.le_moment_of_not_precedes h)

/-- A call of a group that is cut is one of a member that is cut, and was
looked after before a request. -/
theorem mem_upTo_run {c : Cut} {d : Call} :
    d ∈ (g.run.upTo c).calls
      ↔ (∃ x ∈ g.members, d ∈ (x.run.upTo (g.cutOf c x.place)).calls)
        ∧ ∀ p, g.request = some p → d.cleared ≤ p.moment := by
  obtain ⟨closed, waiting, he, -⟩ := g.exists_upTo_run c
  rw [he]
  simp [gathered, Option.all_eq_true]

theorem mem_run {d : Call} :
    d ∈ g.run.calls
      ↔ (∃ x ∈ g.members, d ∈ (x.upTo g.look).calls)
        ∧ ∀ p, g.request = some p → d.cleared ≤ p.moment := by
  have hlate : ¬Cut.Precedes ⟨g.run.finish, false⟩ g.look.moment :=
    Cut.not_precedes_of_le g.look_le_finish rfl
  have h := mem_upTo_run (g := g) (c := ⟨g.run.finish, false⟩) (d := d)
  rw [Run.upTo_finish] at h
  simp only [cutOf, if_neg hlate] at h
  exact h

/-- **A group keeps of the calls of its members what a cut leaves.** -/
theorem kept_run (g : Gathering α) :
    Call.Kept g.run.calls (g.runs.flatMap Run.calls) := by
  rw [← g.map_run_members, List.flatMap_map]
  exact kept_gathered g.look.moment (g.cancellable && !g.hears g.look) _
    fun x _ => (x.run.within_upTo _).calls

/-- Where no member asks for the cancellation, the group does not. -/
theorem cancels_run (h : ∀ r ∈ g.runs, r.cancels = none) :
    g.run.cancels = none := by
  refine Moment.eq_none_of_notAfter fun m => ?_
  refine notAfter_foldl.mpr ⟨by simp, fun k hk => ?_⟩
  obtain ⟨x, hx, rfl⟩ := List.mem_map.mp hk
  refine (x.run.within_upTo _).cancels m ?_
  show m.NotAfter x.run.cancels
  rw [h _ (run_mem hx)]
  simp

/-- Where nothing is cut and nothing was asked for, all calls are kept. -/
theorem calls_run (hended : ∀ x ∈ g.members, x.finish ≤ g.look)
    (hrequest : g.request = none) :
    g.run.calls = g.runs.flatMap Run.calls := by
  show g.course.calls = _
  unfold course courseAt
  rw [hrequest, Option.map_none, calls_gathered_none, List.flatMap_map,
    ← g.map_run_members, List.flatMap_map]
  refine List.flatMap_congr fun x hx => ?_
  rw [Placed.upTo_of_le (hended x hx)]
  rfl

theorem outcome_of_none (hrequest : g.request = none)
    (hw : g.watched.2 = none) : g.outcome = results g.runs := by
  unfold outcome
  rw [hw, hrequest]
  rfl

theorem outcome_of_some {f : Failure} (hw : g.watched.2 = some f) :
    g.outcome = .failed f := by
  unfold outcome
  rw [hw]

end Gathering

/-- **A group whose members have all ended** by its last look: it ends at
the instant at which the last of them does, with all that has become of them,
and every call is as it was. -/
structure Settles (runs : List (Run α)) (r : Run (List α)) : Prop where
  outcome : r.outcome = results runs
  calls : r.calls = runs.flatMap Run.calls
  le : ∀ x ∈ runs, x.finish.instant ≤ r.finish.instant
  /-- It does not wait longer. -/
  last : runs ≠ [] → ∃ x ∈ runs, x.finish.instant = r.finish.instant

namespace Gathering

variable {g : Gathering α}

/-- A group settles if nothing ends it before its members have ended. -/
theorem settles_of_waited (hg : g.Called) (hrequest : g.request = none)
    (hw : g.watched.2 = none)
    (hwaited : Waited g.seen? ⟨g.called, 0⟩ g.ends g.look) :
    Settles g.runs g.run := by
  have hended : ∀ x ∈ g.members, x.finish ≤ g.look := fun x hx =>
    hwaited.ended _ (finish_mem_ends hx)
  have hinstant : g.run.finish.instant = g.look.moment.instant :=
    g.instant_course
  refine ⟨outcome_of_none hrequest hw, calls_run hended hrequest,
    fun r hr => ?_, fun hne => ?_⟩
  · obtain ⟨x, hx, rfl⟩ := exists_placed hr
    rw [hinstant]
    exact Moment.instant_le (Point.moment_le (hended x hx))
  · obtain ⟨r, hr, hle⟩ := exists_le_finish hg hne
    obtain ⟨x, hx, rfl⟩ := exists_placed hr
    refine ⟨x.run, hr, hinstant ▸ ?_⟩
    exact Nat.le_antisymm (Moment.instant_le (Point.moment_le (hended x hx)))
      hle

/-- **A group settles** if none of its members fails, or if there is but one:
then there is nobody whom its failure could cut. -/
theorem settles (hg : g.Called) (hrequest : g.request = none)
    (h : (∀ r ∈ g.runs, ∀ f, r.outcome ≠ .failed f) ∨ ∃ r, g.runs = [r]) :
    Settles g.runs g.run := by
  rcases over_cases hg with ⟨hw, hwaited, -⟩ | ⟨-, hhears⟩ | ⟨f, hw, hf⟩
  · exact settles_of_waited hg hrequest hw hwaited
  · rw [hears_eq_false hrequest] at hhears
    cases hhears
  · obtain ⟨r, hmem, hrf, -, hinstant⟩ := hf.exists_run
    rcases h with hno | ⟨r', hr⟩
    · exact absurd hrf (hno r hmem f)
    · obtain rfl : r = r' := List.mem_singleton.mp (hr ▸ hmem)
      -- the look shows the failure, so the only member has ended
      obtain ⟨front, k, back, hsplit, hle, -, -⟩ :=
        failed?_eq_some_iff.mp hf.failed
      have hended : ∀ x ∈ g.members, x.finish ≤ g.look := by
        have hlength := congrArg List.length (g.map_run_members.trans hr)
        rw [hsplit] at hlength ⊢
        simp only [List.length_map, List.length_append, List.length_cons,
          List.length_nil] at hlength
        rw [List.length_eq_zero_iff.mp (by omega : front.length = 0),
          List.length_eq_zero_iff.mp (by omega : back.length = 0)]
        exact List.forall_mem_singleton.mpr hle
      have hfinish := hinstant.trans g.instant_course.symm
      refine ⟨?_, calls_run hended hrequest, ?_, fun _ => ?_⟩
      · show g.outcome = _
        rw [outcome_of_some hw, hr, results, hrf]
      · rw [hr]
        exact List.forall_mem_singleton.mpr (Nat.le_of_eq hfinish)
      · exact ⟨r, hmem, hfinish⟩

end Gathering

end Shortcode.Group
