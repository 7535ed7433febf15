import Shortcode.Proofs.Cuts

/-!
# Runs that differ in one place

Two invocations that have the same name, body and place, and differ in their
arguments, are given to the same handler. What is told apart here is how far
the difference goes. If the handler takes the same time, asks for the same
and fails in the same way for both, then nobody else sees which of the two
was there (`Run.Twins`). The other members of its group start when they
would and get what they would, and the group ends when it would
(`Group.Gathering.twins_run`): its calls differ in one entry at most, and
its results in the one of that member (`SameBut`, `AtPlace`).

So a difference is carried through a group without being copied. It is left
where it was, with everything in front of it and behind it unchanged.

A member may be cut, and then the group goes on with what is left of it. So
it is not enough that the runs are alike if nobody interferes: they have to
be so after each cut. That is what `Run.Twins.upTo` is for. Nobody asks when
a member is cut, since a group whose members end and fail alike takes the
same looks, and cuts them at the same points.
-/

namespace Shortcode

/-! ## Lists that differ in one entry -/

section

variable {α : Type} {R : α → α → Prop} {xs ys : List α}

/-- **Lists that differ in one entry at most.** -/
inductive SameBut (R : α → α → Prop) : List α → List α → Prop
  | same (xs : List α) : SameBut R xs xs
  | entry (front back : List α) {a b : α} :
      R a b → SameBut R (front ++ a :: back) (front ++ b :: back)

namespace SameBut

theorem append_left (h : SameBut R xs ys) (front : List α) :
    SameBut R (front ++ xs) (front ++ ys) := by
  cases h with
  | same => exact .same _
  | entry more back hab =>
    rw [← List.append_assoc, ← List.append_assoc]
    exact .entry (front ++ more) back hab

theorem append_right (h : SameBut R xs ys) (back : List α) :
    SameBut R (xs ++ back) (ys ++ back) := by
  cases h with
  | same => exact .same _
  | entry front more hab =>
    rw [List.append_assoc, List.append_assoc]
    exact .entry front (more ++ back) hab

theorem mono {R' : α → α → Prop} (h : SameBut R xs ys)
    (hR : ∀ a b, R a b → R' a b) : SameBut R' xs ys := by
  cases h with
  | same => exact .same _
  | entry front back hab => exact .entry front back (hR _ _ hab)

theorem filter {p : α → Bool} (h : SameBut R xs ys)
    (hp : ∀ a b, R a b → p a = p b) :
    SameBut R (xs.filter p) (ys.filter p) := by
  cases h with
  | same => exact .same _
  | @entry front back a b hab =>
    rw [List.filter_append, List.filter_append, List.filter_cons,
      List.filter_cons, hp a b hab]
    split
    · exact .entry _ _ hab
    · exact .same _

/-- Nothing differs if no entries may. -/
theorem eq (h : SameBut (fun _ _ => False) xs ys) : xs = ys := by
  cases h with
  | same => rfl
  | entry _ _ hno => exact hno.elim

end SameBut

/-- **Lists that differ in one entry**, which stands at a place. -/
def AtPlace (R : α → α → Prop) (n : Nat) (xs ys : List α) : Prop :=
  ∃ front a b back, xs = front ++ a :: back ∧ ys = front ++ b :: back
    ∧ front.length = n ∧ R a b

theorem AtPlace.cons {n : Nat} (h : AtPlace R n xs ys) (x : α) :
    AtPlace R (n + 1) (x :: xs) (x :: ys) := by
  obtain ⟨front, a, b, back, rfl, rfl, hn, hab⟩ := h
  exact ⟨x :: front, a, b, back, rfl, rfl, congrArg Nat.succ hn, hab⟩

end

/-! ## Calls that differ in what they are for -/

/-- **Calls of a handler for one invocation and for another**: otherwise
they are the same. -/
structure Call.Swaps (depth : Nat) (inv inv' : Invocation) (c c' : Call) :
    Prop where
  depth : c.depth = depth
  invocation : c.invocation = inv
  eq : c' = { c with invocation := inv' }

/-! ## Runs that differ in their results -/

/-- **Outcomes that differ in their results** only: otherwise they are the
same failure or the same interruption. -/
inductive Outcome.Twins {α : Type} (Q : α → α → Prop) :
    Outcome α → Outcome α → Prop
  | returned {a b : α} : Q a b → Twins Q (.returned a) (.returned b)
  | failed (f : Failure) : Twins Q (.failed f) (.failed f)
  | interrupted (m : Text) : Twins Q (.interrupted m) (.interrupted m)

namespace Outcome.Twins

variable {α β : Type} {Q : α → α → Prop} {Q' : β → β → Prop}
  {o o' : Outcome α}

theorem of_eq (h : ∀ a, Q a a) (o : Outcome α) : Twins Q o o := by
  cases o with
  | returned a => exact .returned (h a)
  | failed f => exact .failed f
  | interrupted m => exact .interrupted m

/-- Results that differ are used alike. -/
theorem bind (h : Twins Q o o') {f g : α → Except Failure β}
    (hf : ∀ a b, Q a b → (∃ e, f a = .error e ∧ g b = .error e)
      ∨ ∃ x y, f a = .ok x ∧ g b = .ok y ∧ Q' x y) :
    Twins Q' (o.bind f) (o'.bind g) := by
  cases h with
  | @returned a b hab =>
    unfold Outcome.bind
    dsimp only
    rcases hf a b hab with ⟨e, ha, hb⟩ | ⟨x, y, ha, hb, hxy⟩
    · rw [ha, hb]
      exact .failed e
    · rw [ha, hb]
      exact .returned hxy
  | failed f => exact .failed f
  | interrupted m => exact .interrupted m

theorem failure?_eq (h : Twins Q o o') : o'.failure? = o.failure? := by
  cases h with
  | returned | failed | interrupted => rfl

end Outcome.Twins

/-- **Courses that differ in one place**: they end at the same moment, ask
for the same, and make the same calls but for one at most. -/
structure Course.Twins (C : Call → Call → Prop) (k k' : Course) : Prop where
  finish : k'.finish = k.finish
  cancels : k'.cancels = k.cancels
  calls : SameBut C k.calls k'.calls

namespace Course.Twins

variable {C : Call → Call → Prop} {k k' l l' : Course}

theorem refl (k : Course) : k.Twins C k := ⟨rfl, rfl, .same _⟩

theorem mono {C' : Call → Call → Prop} (h : k.Twins C k')
    (hC : ∀ c c', C c c' → C' c c') : k.Twins C' k' :=
  ⟨h.finish, h.cancels, h.calls.mono hC⟩

theorem endingAt (h : k.Twins C k') (m : Moment) :
    (k.endingAt m).Twins C (k'.endingAt m) :=
  ⟨rfl, h.cancels, h.calls⟩

theorem append_left (first : Course) (h : k.Twins C k') :
    (first.append k).Twins C (first.append k') :=
  ⟨h.finish, congrArg (Moment.earliest? first.cancels) h.cancels,
    h.calls.append_left first.calls⟩

/-- What follows may differ only in what is not seen of it. -/
theorem append (h : k.Twins C k') (hl : l.Twins (fun _ _ => False) l') :
    (k.append l).Twins C (k'.append l') := by
  refine ⟨hl.finish, ?_, ?_⟩
  · show Moment.earliest? k'.cancels l'.cancels = _
    rw [h.cancels, hl.cancels]
    rfl
  · show SameBut C (k.calls ++ l.calls) (k'.calls ++ l'.calls)
    rw [hl.calls.eq]
    exact h.calls.append_right l'.calls

end Course.Twins

/-- **Runs that differ in one place**: they end at the same moment, ask for
the same, make the same calls but for one at most, and end alike. What is
left of them differs in one place, too, wherever they are cut. -/
structure Run.Twins {α : Type} (C : Call → Call → Prop) (Q : α → α → Prop)
    (r r' : Run α) : Prop where
  finish : r'.finish = r.finish
  cancels : r'.cancels = r.cancels
  calls : SameBut C r.calls r'.calls
  outcome : r.outcome.Twins Q r'.outcome
  upTo : ∀ c, (r.upTo c).Twins C (r'.upTo c)

namespace Run.Twins

variable {α β : Type} {C : Call → Call → Prop} {Q : α → α → Prop}
  {Q' : β → β → Prop} {r r' : Run α} {x x' : Run β}

theorem whole (h : r.Twins C Q r') : r.whole.Twins C r'.whole :=
  ⟨h.finish, h.cancels, h.calls⟩

/-- Runs are twins if they end alike and all that can be left of them is. -/
theorem of_upTo (ho : r.outcome.Twins Q r'.outcome)
    (hw : r.whole.Twins C r'.whole)
    (h : ∀ c, (r.upTo c).Twins C (r'.upTo c)) : r.Twins C Q r' :=
  ⟨hw.finish, hw.cancels, hw.calls, ho, h⟩

theorem of_eq (h : ∀ a, Q a a) (r : Run α) : r.Twins C Q r :=
  ⟨rfl, rfl, .same _, .of_eq h _, fun _ => .refl _⟩

theorem now {o o' : Outcome α} (ho : o.Twins Q o') (m : Moment) :
    (Run.now m o).Twins C Q (Run.now m o') :=
  ⟨rfl, rfl, .same _, ho, fun _ => .refl _⟩

theorem now_failed (m : Moment) (f : Failure) :
    (Run.now m (.failed f)).Twins C Q (Run.now m (.failed f)) :=
  now (.failed f) m

theorem mono {C' : Call → Call → Prop} (h : r.Twins C Q r')
    (hC : ∀ c c', C c c' → C' c c') : r.Twins C' Q r' :=
  ⟨h.finish, h.cancels, h.calls.mono hC, h.outcome,
    fun c => (h.upTo c).mono hC⟩

theorem withOutcome (h : r.Twins C Q r') {o o' : Outcome β}
    (ho : o.Twins Q' o') :
    (r.withOutcome o).Twins C Q' (r'.withOutcome o') :=
  ⟨h.finish, h.cancels, h.calls, ho, h.upTo⟩

theorem mapResult (h : r.Twins C Q r') {f g : α → Except Failure β}
    (hf : ∀ a b, Q a b → (∃ e, f a = .error e ∧ g b = .error e)
      ∨ ∃ x y, f a = .ok x ∧ g b = .ok y ∧ Q' x y) :
    (r.mapResult f).Twins C Q' (r'.mapResult g) :=
  h.withOutcome (h.outcome.bind hf)

/-- What follows runs that differ may differ in its result, and does the
same. -/
theorem after (h : r.Twins C Q r') (hx : x.Twins (fun _ _ => False) Q' x') :
    (r.after x).Twins C Q' (r'.after x') := by
  refine of_upTo hx.outcome (h.whole.append hx.whole) fun c => ?_
  rw [Run.upTo_after, Run.upTo_after, hx.finish, h.finish]
  split
  · exact h.upTo c
  · exact h.whole.append (hx.upTo c)

theorem behind (h : r.Twins C Q r') (start : Moment) :
    (r.behind start).Twins C Q (r'.behind start) := by
  have hwhole := h.whole.append_left (Run.now start (.returned ())).whole
  refine of_upTo h.outcome hwhole fun c => ?_
  unfold Run.behind
  rw [Run.upTo_after, Run.upTo_after, h.finish]
  split
  · exact .refl _
  · exact (h.upTo c).append_left _

theorem andThen (h : r.Twins C Q r') {cancels : Option Moment}
    {next next' : α → Moment → Option Moment → Run β}
    (hn : ∀ a b, Q a b → ∀ now known,
      (next a now known).Twins (fun _ _ => False) Q' (next' b now known)) :
    (r.andThen cancels next).Twins C Q' (r'.andThen cancels next') := by
  unfold Run.andThen
  have ho := h.outcome
  generalize r.outcome = o at ho
  generalize r'.outcome = o' at ho
  rw [h.finish, h.cancels]
  cases ho with
  | @returned a b hab => exact h.after (hn a b hab _ _)
  | failed f => exact h.withOutcome (.failed f)
  | interrupted m => exact h.withOutcome (.interrupted m)

/-- Calls of a handler in which the same is done for one invocation and for
another. -/
theorem inside (h : r.Twins (fun _ _ => False) Q r') {self self' : Call}
    (hself : ∀ m e, C { self with left := m, ending := e }
      { self' with left := m, ending := e })
    (he : self'.ending = self.ending) :
    (r.inside self).Twins C Q (r'.inside self') := by
  have hleft : C { self with left := r.finish }
      { self' with left := r.finish } := by
    have h := hself r.finish self.ending
    rw [← he] at h
    rwa [show ({ self with left := r.finish } : Call)
      = { self with left := r.finish, ending := self'.ending } by rw [he]]
  have hcons {c c' : Call} {cs cs' : List Call} (hc : C c c')
      (hcs : SameBut (fun _ _ => False) cs cs') :
      SameBut C (c :: cs) (c' :: cs') := by
    rw [hcs.eq]
    exact .entry [] cs' hc
  refine of_upTo h.outcome ⟨h.finish, h.cancels, ?_⟩ fun c => ?_
  · show SameBut C ({ self with left := r.finish } :: r.calls)
      ({ self' with left := r'.finish } :: r'.calls)
    rw [h.finish]
    exact hcons hleft h.calls
  · have hc := h.upTo c
    rw [Run.upTo_inside, Run.upTo_inside, h.finish]
    refine ⟨hc.finish, hc.cancels, ?_⟩
    split
    · exact hcons (hself c.moment .cancelled) hc.calls
    · exact hcons hleft hc.calls

/-! ### Tasks that wait -/

theorem relay (h : r.Twins C Q r') (due : Moment) (c : Cut) :
    (r.relay due c).Twins C (r'.relay due c) := by
  have hcut := h.upTo (c.passed due)
  unfold Run.relay
  dsimp only
  by_cases hc : (c.passed due).Precedes r.finish
  · have hc' : (c.passed due).Precedes r'.finish := by rwa [h.finish]
    rw [Run.upTo_of_precedes hc, Run.upTo_of_precedes hc'] at hcut
    rw [if_pos hc, if_pos hc', hcut.finish]
    exact hcut.endingAt _
  · rw [if_neg hc, if_neg (by rwa [h.finish])]
    exact h.whole.endingAt _

theorem heard (h : r.Twins C Q r') : r.heard.Twins C Q r'.heard := by
  have hwhole : r.heard.whole.Twins C r'.heard.whole :=
    ⟨congrArg (Moment.skip · hearing) h.finish, h.cancels, h.calls⟩
  refine of_upTo h.outcome hwhole fun c => ?_
  have hfinish : r'.finish.skip hearing = r.finish.skip hearing := by
    rw [h.finish]
  by_cases hc : c.Precedes (r.finish.skip hearing)
  · rw [Run.upTo_heard_of_precedes hc,
      Run.upTo_heard_of_precedes (hfinish ▸ hc), hfinish]
    exact h.relay _ c
  · rw [Run.upTo_heard_of_not_precedes hc,
      Run.upTo_heard_of_not_precedes (hfinish ▸ hc)]
    exact hwhole

/-- Runs that are over when the same is due. -/
theorem settled {k k' : Course} {o o' : Outcome α} {due : Moment}
    {stop stop' : Cut → Course} {hs : Stops (k.endingAt due) stop}
    {hs' : Stops (k'.endingAt due) stop'}
    {hi : k.finish.instant = due.instant}
    {hi' : k'.finish.instant = due.instant} (ho : o.Twins Q o')
    (hk : k.Twins C k')
    (hstop : ∀ c, c.Precedes due → (stop c).Twins C (stop' c)) :
    (Run.settled k o due stop hs hi).Twins C Q
      (Run.settled k' o' due stop' hs' hi') := by
  refine of_upTo ho hk fun c => ?_
  rw [Run.upTo_settled, Run.upTo_settled, hk.finish]
  split
  · next hc => exact hstop c hc.2
  · exact hk

theorem waitedFor (h : r.Twins C Q r') (now : Moment) (time : Nat)
    {late : Outcome α} (hlate : late.Twins Q late) :
    (r.waitedFor now time late).Twins C Q (r'.waitedFor now time late) := by
  have hbehind := h.behind now.next
  unfold Run.waitedFor
  by_cases hin : r.finish.instant < now.instant + time
  · rw [dif_pos hin, dif_pos (by rwa [h.finish])]
    exact hbehind.heard
  · rw [dif_neg hin, dif_neg (by rwa [h.finish])]
    refine settled hlate ?_ fun c _ => hbehind.relay _ c
    have hcut := hbehind.upTo ⟨now.later time, true⟩
    unfold Run.overdueCourse
    rw [hcut.finish]
    exact hcut.endingAt _

end Run.Twins

/-! ## Groups -/

namespace Group

variable {α : Type} {level : Nat} {inv inv' : Invocation}
  {C : Call → Call → Prop} {Q : α → α → Prop} {r r' : Run α}

/-- **Members that differ in one place**: if the one there does as the other
would, so does everyone. -/
theorem exists_members_twins {m m' : Member α}
    (h : ∀ start known, (m start known).Twins C Q (m' start known))
    (limit : Nat) (first : Moment) (before after : List (Member α))
    (known : Option Moment) (ends : List Moment) :
    ∃ front r r' back, front.length = before.length
      ∧ members limit first known ends (before ++ m :: after)
          = front ++ r :: back
      ∧ members limit first known ends (before ++ m' :: after)
          = front ++ r' :: back
      ∧ r.Twins C Q r' := by
  induction before generalizing known ends with
  | nil =>
    have hm := h (start limit first ends) known
    refine ⟨[], _, _, _, rfl, rfl, ?_, hm⟩
    rw [List.nil_append, members]
    rw [hm.finish, hm.cancels]
    rfl
  | cons x before ih =>
    obtain ⟨front, r, r', back, hlen, hr, hr', htwins⟩ :=
      ih (Moment.earliest? known (x (start limit first ends) known).cancels)
        ((x (start limit first ends) known).finish :: ends)
    refine ⟨x (start limit first ends) known :: front, r, r', back,
      congrArg Nat.succ hlen, ?_, ?_, htwins⟩
    · rw [List.cons_append, members]
      rw [hr]
      rfl
    · rw [List.cons_append, members]
      rw [hr']
      rfl

/-- Runs that end together take the same place. -/
theorem exists_placed_twins (h : r'.finish = r.finish) (limit : Nat)
    (first : Moment) (front back : List (Run α)) (ends : List Point) :
    ∃ xs n ys, placed limit first ends (front ++ r :: back) = xs ++ ⟨n, r⟩ :: ys
      ∧ placed limit first ends (front ++ r' :: back)
          = xs ++ ⟨n, r'⟩ :: ys := by
  induction front generalizing ends with
  | nil =>
    refine ⟨[], _, _, rfl, ?_⟩
    show _ :: placed limit first (⟨r'.finish, _⟩ :: ends) back = _
    rw [h]
    rfl
  | cons x front ih =>
    obtain ⟨xs, n, ys, hr, hr'⟩ :=
      ih ((⟨place limit first ends, x⟩ : Placed α).finish :: ends)
    refine ⟨⟨place limit first ends, x⟩ :: xs, n, ys, ?_, ?_⟩
    · exact congrArg (List.cons _) hr
    · exact congrArg (List.cons _) hr'

/-- The results of members that differ in one differ in its result. -/
theorem results_twins (h : r.Twins C Q r') (front back : List (Run α)) :
    (results (front ++ r :: back)).Twins (AtPlace Q front.length)
      (results (front ++ r' :: back)) := by
  induction front with
  | nil =>
    rw [List.nil_append, List.nil_append, results, results]
    have houtcome := h.outcome
    generalize r.outcome = o at houtcome
    generalize r'.outcome = o' at houtcome
    cases houtcome with
    | @returned a b hab =>
      refine (Outcome.Twins.of_eq (Q := fun as bs => as = bs) (fun _ => rfl)
        _).bind ?_
      rintro as _ rfl
      exact .inr ⟨_, _, rfl, rfl, [], a, b, as, rfl, rfl, rfl, hab⟩
    | failed f => exact .failed f
    | interrupted m => exact .interrupted m
  | cons x front ih =>
    rw [List.cons_append, List.cons_append, results, results]
    cases x.outcome with
    | returned a =>
      exact ih.bind fun as bs hab => .inr ⟨_, _, rfl, rfl, hab.cons a⟩
    | failed f => exact .failed f
    | interrupted m => exact .interrupted m

/-- What is left of a group whose members are left with the same, but for one
of them. -/
theorem twins_gathered {k k' : Course}
    (h : k.Twins (Call.Swaps level inv inv') k') (closed : Moment)
    (waiting : Bool) (request : Option Moment) (front back : List Course) :
    (gathered closed waiting request (front ++ k :: back)).Twins
      (Call.Swaps level inv inv')
      (gathered closed waiting request (front ++ k' :: back)) := by
  refine ⟨?_, ?_, ?_⟩
  · unfold gathered
    dsimp only
    rw [List.map_append, List.map_append, List.map_cons, List.map_cons,
      h.finish]
  · unfold gathered
    dsimp only
    rw [List.foldl_append, List.foldl_append, List.foldl_cons,
      List.foldl_cons, h.cancels]
  · unfold gathered
    dsimp only
    rw [List.flatMap_append, List.flatMap_append, List.flatMap_cons,
      List.flatMap_cons]
    refine ((h.calls.append_right _).append_left _).filter ?_
    rintro c _ ⟨-, -, rfl⟩
    rfl

namespace Gathering

/-- The group with other members. -/
def withRuns (g : Gathering α) (runs : List (Run α)) : Gathering α :=
  { g with runs := runs }

variable {g : Gathering α} {front back : List (Run α)}

section

variable (h : r.Twins (Call.Swaps level inv inv') Q r')
  (hg : g.runs = front ++ r :: back)

include h hg

theorem exists_members_withRuns : ∃ xs n ys, g.members = xs ++ ⟨n, r⟩ :: ys
    ∧ (g.withRuns (front ++ r' :: back)).members = xs ++ ⟨n, r'⟩ :: ys := by
  unfold Gathering.members withRuns
  rw [hg]
  exact exists_placed_twins h.finish _ _ front back []

theorem request_withRuns :
    (g.withRuns (front ++ r' :: back)).request = g.request := by
  obtain ⟨xs, n, ys, hx, hx'⟩ := exists_members_withRuns h hg
  have hcancels : (⟨n, r'⟩ : Placed α).cancels
      = (⟨n, r⟩ : Placed α).cancels :=
    congrArg (Option.map fun m => (⟨m, n⟩ : Point)) h.cancels
  unfold Gathering.request request?
  rw [hx, hx', List.foldl_append, List.foldl_append, List.foldl_cons,
    List.foldl_cons, hcancels]
  rfl

theorem heard_withRuns :
    (g.withRuns (front ++ r' :: back)).heard = g.heard := by
  unfold Gathering.heard
  rw [request_withRuns h hg, hg]
  simp [withRuns]

theorem ends_withRuns :
    (g.withRuns (front ++ r' :: back)).ends = g.ends := by
  obtain ⟨xs, n, ys, hx, hx'⟩ := exists_members_withRuns h hg
  have hfinish : (⟨n, r'⟩ : Placed α).finish = (⟨n, r⟩ : Placed α).finish :=
    congrArg (Point.mk · n) h.finish
  unfold Gathering.ends
  rw [heard_withRuns h hg, hx, hx', List.map_append, List.map_append,
    List.map_cons, List.map_cons, hfinish]

/-- The group finds the same at each look. -/
theorem seen?_withRuns :
    (g.withRuns (front ++ r' :: back)).seen? = g.seen? := by
  obtain ⟨xs, n, ys, hx, hx'⟩ := exists_members_withRuns h hg
  funext look
  have hfinish : (⟨n, r'⟩ : Placed α).finish = (⟨n, r⟩ : Placed α).finish :=
    congrArg (Point.mk · n) h.finish
  unfold Gathering.seen? Gathering.hears failed? found?
  rw [heard_withRuns h hg, hx, hx', List.findSome?_append,
    List.findSome?_append, List.findSome?_cons, List.findSome?_cons,
    hfinish]
  dsimp only
  rw [h.outcome.failure?_eq]
  rfl

theorem watched_withRuns :
    (g.withRuns (front ++ r' :: back)).watched = g.watched := by
  unfold Gathering.watched
  rw [ends_withRuns h hg, seen?_withRuns h hg]
  rfl

theorem due_withRuns (c : Cut) :
    (g.withRuns (front ++ r' :: back)).due c = g.due c := by
  unfold Gathering.due
  rw [ends_withRuns h hg]
  rfl

theorem twins_outcome :
    g.outcome.Twins (AtPlace Q front.length)
      (g.withRuns (front ++ r' :: back)).outcome := by
  unfold Gathering.outcome Gathering.look
  rw [watched_withRuns h hg, request_withRuns h hg]
  split
  · exact .failed _
  · split
    · exact .failed _
    · rw [hg]
      exact results_twins h front back

/-- What is left of the group differs in what is left of that member. -/
theorem twins_courseAt (closed : Moment) (ended : Bool)
    {cut : Nat → Cut} :
    (g.courseAt closed ended fun x => x.run.upTo (cut x.place)).Twins
      (Call.Swaps level inv inv')
      ((g.withRuns (front ++ r' :: back)).courseAt closed ended
        fun x => x.run.upTo (cut x.place)) := by
  obtain ⟨xs, n, ys, hx, hx'⟩ := exists_members_withRuns h hg
  unfold Gathering.courseAt
  rw [request_withRuns h hg, hx, hx', List.map_append, List.map_append,
    List.map_cons, List.map_cons]
  exact twins_gathered (h.upTo (cut n)) _ _ _ _ _

/-- **A group does not see** which of the two a member does. -/
theorem twins_run :
    g.run.Twins (Call.Swaps level inv inv') (AtPlace Q front.length)
      (g.withRuns (front ++ r' :: back)).run := by
  have hlook : (g.withRuns (front ++ r' :: back)).look = g.look :=
    congrArg Prod.fst (watched_withRuns h hg)
  have hpassed (c : Cut) (n : Nat) :
      (g.withRuns (front ++ r' :: back)).passed c n = g.passed c n := by
    unfold Gathering.passed
    rw [due_withRuns h hg]
  have hcourse : g.course.Twins (Call.Swaps level inv inv')
      (g.withRuns (front ++ r' :: back)).course := by
    unfold Gathering.course Gathering.hears
    rw [hlook, heard_withRuns h hg]
    exact twins_courseAt h hg _ _
  have hstop (c : Cut) : (g.stop c).Twins (Call.Swaps level inv inv')
      ((g.withRuns (front ++ r' :: back)).stop c) := by
    unfold Gathering.stop
    rw [due_withRuns h hg, heard_withRuns h hg]
    simp only [hpassed]
    exact twins_courseAt h hg _ _
  refine .of_upTo (twins_outcome h hg) hcourse fun c => ?_
  unfold Gathering.run
  rw [Run.upTo_settled, Run.upTo_settled, hlook, hcourse.finish]
  split
  · exact hstop c
  · exact hcourse

end

end Gathering

end Group

end Shortcode
