import Shortcode.Proofs.Elapsed
import Shortcode.Proofs.Horizon

/-!
# Runs that concur

Within an instant it may take more steps or fewer until something happens.
A task of its own that runs a handler begins a step later, and is heard of two
steps after it has ended. Whoever looks at instants only sees no difference,
as long as the steps decide nothing. Two runs *concur* if they make the same
calls at the same instants and end alike (`Run.Concurs`).

Steps do decide something where several things are done side by side at one
instant. Of the failures that come then it is the first at a look that is
told; a member that is cut may have got somewhere by then, or not; and of a
request for a cancellation it matters who has heard of it. So nobody may ask
for a cancellation in runs that concur. And if a member of a group fails, and
the others are cut, these must not have anything to do at that instant
(`Run.Still`): neither may one of them end or ask for a cancellation, nor may
anything in it be entered or left. Otherwise nothing is asked of a group. One
that waits for all of its members ends when the last of them does, and the
order in which they end within an instant is lost again in the order of the
results.

Members that are cut bring a difficulty. A group is told by what its members
would do if nobody interfered, and beyond the instant of the cut they may do
different things in the two runs: a limit may be met in one of them that is
never met, because the call is cut before. So runs are followed up to an
instant only (`Run.ConcursBefore`), and those of the members of a group no
further than to the end of the group. What they do until then they do in the
group as well, in both directions: a call that is made in the group is one of a
member, and of a call of a member the group shows as much as there is
(`Group.Gathering.Regular.exists_call`). A request for a cancellation that would be made
by a member is made in the group, unless the member is cut before
(`Group.Gathering.Regular.quietBefore`). So what is assumed of a run can be
handed down to the members of its groups.

The relation is carried from what is done to what is made of it, as a run is
made: programs, groups, and the texts that are put together. Which requests
are met on the way is told by the first run alone, so whatever is assumed of
expansions is assumed of those that the first run asks for.
-/

namespace Shortcode

/-! ## Sights -/

/-- What is seen of a call by someone whose clock tells instants only. -/
structure Sight where
  invocation : Invocation
  depth : Nat
  entered : Nat
  left : Nat
  ending : Ending
deriving DecidableEq

def Call.sight (c : Call) : Sight :=
  ⟨c.invocation, c.depth, c.entered.instant, c.left.instant, c.ending⟩

/-- What has been seen before an instant. A call that is in progress then is
seen to be cut. -/
def Sight.before (t : Nat) (x : Sight) : Option Sight :=
  if x.entered < t then
    some (if x.left < t then x else { x with left := t, ending := .cancelled })
  else none

section

variable {t : Nat} {x : Sight}

theorem Sight.before_of_lt (h : x.entered < t) (h' : x.left < t) :
    x.before t = some x := by
  unfold before
  rw [if_pos h, if_pos h']

theorem Sight.before_of_le (h : x.entered < t) (h' : t ≤ x.left) :
    x.before t = some { x with left := t, ending := .cancelled } := by
  unfold before
  rw [if_pos h, if_neg (Nat.not_lt.mpr h')]

/-- What is left of a sight. -/
theorem Sight.of_before_eq_some {y : Sight} (h : x.before t = some y) :
    y.invocation = x.invocation ∧ y.entered = x.entered
      ∧ y.left = min x.left t := by
  unfold before at h
  split at h
  · obtain rfl := Option.some.inj h
    split
    · next hl => exact ⟨rfl, rfl, (Nat.min_eq_left (Nat.le_of_lt hl)).symm⟩
    · next hl => exact ⟨rfl, rfl, (Nat.min_eq_right (Nat.not_lt.mp hl)).symm⟩
  · cases h

theorem Sight.before_eq_none (h : t ≤ x.entered) : x.before t = none :=
  if_neg (Nat.not_lt.mpr h)

end

/-- What is seen of calls before an instant. -/
def sightsBefore (t : Nat) (calls : List Call) : List Sight :=
  (callsBefore t calls).map Call.sight

section

variable {t u : Nat} {c : Call} {calls calls' : List Call}

theorem Call.map_sight_before (t : Nat) (c : Call) :
    (c.before t).map Call.sight = c.sight.before t := by
  unfold before Sight.before
  by_cases he : c.entered.instant < t
  · by_cases hl : c.left.instant < t
    · simp [Call.sight, he, hl]
    · simp [Call.sight, he, hl, Call.cutAt]
  · simp [Call.sight, he]

/-- What is seen before an instant is told by what is seen at all. -/
theorem sightsBefore_eq (t : Nat) (calls : List Call) :
    sightsBefore t calls
      = (calls.map Call.sight).filterMap (Sight.before t) := by
  unfold sightsBefore callsBefore
  rw [List.map_filterMap, List.filterMap_map]
  exact List.filterMap_congr fun c _ => c.map_sight_before t

@[simp] theorem sightsBefore_nil : sightsBefore t [] = [] := rfl

@[simp] theorem sightsBefore_append : sightsBefore t (calls ++ calls')
    = sightsBefore t calls ++ sightsBefore t calls' := by
  simp [sightsBefore]

theorem sightsBefore_cons : sightsBefore t (c :: calls)
    = (c.sight.before t).toList ++ sightsBefore t calls := by
  rw [sightsBefore_eq, sightsBefore_eq, List.map_cons, List.filterMap_cons]
  cases c.sight.before t <;> rfl

theorem sightsBefore_flatMap {ι : Type} (xs : List ι) (f : ι → List Call) :
    sightsBefore t (xs.flatMap f)
      = xs.flatMap fun x => sightsBefore t (f x) := by
  induction xs with
  | nil => rfl
  | cons x xs ih => simp [ih]

/-- What is seen before an instant is told by what is seen before a later
one. -/
theorem sightsBefore_mono (hle : t ≤ u)
    (h : sightsBefore u calls = sightsBefore u calls') :
    sightsBefore t calls = sightsBefore t calls' := by
  have hseen (calls : List Call) : sightsBefore t calls
      = (sightsBefore u calls).filterMap (Sight.before t) := by
    show _ = ((callsBefore u calls).map Call.sight).filterMap _
    rw [← sightsBefore_eq]
    unfold sightsBefore
    rw [callsBefore_callsBefore hle]
  rw [hseen calls, hseen calls', h]

/-- Calls that are cut at the instant, or were left before, are seen as they
are. -/
theorem sightsBefore_eq_self
    (h : ∀ c ∈ calls, c.entered.instant < t
      ∧ (c.left.instant < t
        ∨ c.left.instant = t ∧ c.ending = .cancelled)) :
    sightsBefore t calls = calls.map Call.sight := by
  induction calls with
  | nil => rfl
  | cons c calls ih =>
    obtain ⟨⟨he, hl⟩, hcalls⟩ := List.forall_mem_cons.mp h
    have hself : c.sight.before t = some c.sight := by
      rcases hl with hl | ⟨hl, hending⟩
      · exact Sight.before_of_lt he hl
      · rw [Sight.before_of_le he (Nat.le_of_eq hl.symm), ← hl, ← hending]
        rfl
    rw [sightsBefore_cons, hself, ih hcalls]
    rfl

/-- Calls that have all been left are seen as they are. -/
theorem sightsBefore_of_ended {finish : Moment}
    (h : ∀ c ∈ calls, c.entered ≤ c.left ∧ c.left ≤ finish)
    (hlt : finish.instant < t) : sightsBefore t calls = calls.map Call.sight := by
  unfold sightsBefore
  rw [callsBefore_eq_self (fun c hc => (h c hc).1) fun c hc =>
    Nat.lt_of_le_of_lt (Moment.instant_le (h c hc).2) hlt]

/-- Of calls that are seen alike each has its counterpart. -/
theorem exists_of_sightsBefore_eq
    (h : sightsBefore t calls = sightsBefore t calls') {c' : Call}
    (hc : c' ∈ calls') (he : c'.entered.instant < t) :
    ∃ c ∈ calls, c.invocation = c'.invocation
      ∧ c.entered.instant = c'.entered.instant
      ∧ min c.left.instant t = min c'.left.instant t := by
  obtain ⟨x, hx⟩ : ∃ x, c'.sight.before t = some x := ⟨_, if_pos he⟩
  have hmem : x ∈ sightsBefore t calls := by
    rw [h, sightsBefore_eq]
    exact List.mem_filterMap.mpr ⟨_, List.mem_map_of_mem hc, hx⟩
  rw [sightsBefore_eq] at hmem
  obtain ⟨y, hy, hyx⟩ := List.mem_filterMap.mp hmem
  obtain ⟨c, hc, rfl⟩ := List.mem_map.mp hy
  have hsight := Sight.of_before_eq_some hyx
  have hsight' := Sight.of_before_eq_some hx
  exact ⟨c, hc, hsight.1.symm.trans hsight'.1,
    hsight.2.1.symm.trans hsight'.2.1, hsight.2.2.symm.trans hsight'.2.2⟩

end

/-! ## Runs -/

/-- **Moments of one instant**, as far as that comes before another one. -/
def Moment.Concurs (t : Nat) (m m' : Moment) : Prop :=
  min m.instant t = min m'.instant t

namespace Moment.Concurs

variable {t u : Nat} {m m' : Moment}

theorem of_eq (h : m.instant = m'.instant) : m.Concurs t m' :=
  congrArg (min · t) h

theorem of_le (h : t ≤ m.instant) (h' : t ≤ m'.instant) : m.Concurs t m' := by
  unfold Concurs
  omega

theorem eq_of_lt (h : m.Concurs t m') (hlt : m.instant < t) :
    m.instant = m'.instant := by
  unfold Concurs at h
  omega

theorem le_of_le (h : m.Concurs t m') (hle : t ≤ m.instant) :
    t ≤ m'.instant := by
  unfold Concurs at h
  omega

theorem symm (h : m.Concurs t m') : m'.Concurs t m := Eq.symm h

end Moment.Concurs

/-- **Runs that concur**: they end alike and at the same instant, after calls
that are seen alike, and ask for no cancellation. -/
structure Run.Concurs {α : Type} (r r' : Run α) : Prop where
  instant : r.finish.instant = r'.finish.instant
  outcome : r.outcome = r'.outcome
  calls : r.calls.map Call.sight = r'.calls.map Call.sight
  quiet : r.cancels = none
  quiet' : r'.cancels = none

/-- **Runs that concur before an instant.** -/
structure Run.ConcursBefore {α : Type} (t : Nat) (r r' : Run α) : Prop where
  finish : r.finish.Concurs t r'.finish
  outcome : r.finish.instant < t → r.outcome = r'.outcome
  calls : sightsBefore t r.calls = sightsBefore t r'.calls
  quiet : Moment.NotBefore t r.cancels
  quiet' : Moment.NotBefore t r'.cancels

namespace Run

variable {α β : Type} {t : Nat} {now now' : Moment} {r r' : Run α}

/-- Runs that begin later concur. -/
theorem concursBefore_of_le (hr : r.Firm now) (hr' : r'.Firm now')
    (ht : t ≤ now.instant) (ht' : t ≤ now'.instant) :
    ConcursBefore t r r' where
  finish := .of_le (Nat.le_trans ht (Moment.instant_le hr.le))
    (Nat.le_trans ht' (Moment.instant_le hr'.le))
  outcome hlt := absurd (Nat.le_trans ht (Moment.instant_le hr.le))
    (Nat.not_le.mpr hlt)
  calls := by
    unfold sightsBefore
    rw [hr.callsBefore_eq_nil ht, hr'.callsBefore_eq_nil ht']
  quiet := hr.since.notBefore ht
  quiet' := hr'.since.notBefore ht'

theorem concursBefore_now (h : now.Concurs t now') (o : Outcome α) :
    ConcursBefore t (Run.now now o) (Run.now now' o) :=
  ⟨h, fun _ => rfl, rfl, Moment.notBefore_none, Moment.notBefore_none⟩

theorem concursBefore_tooDeep (h : now.Concurs t now') (f : Failure) :
    ConcursBefore t (tooDeep now f : Run α) (tooDeep now' f) :=
  ⟨h, fun _ => rfl, rfl, Moment.notBefore_none, Moment.notBefore_none⟩

theorem ConcursBefore.withOutcome (h : ConcursBefore t r r')
    {o o' : Outcome β} (ho : r.finish.instant < t → o = o') :
    ConcursBefore t (r.withOutcome o) (r'.withOutcome o') :=
  ⟨h.finish, ho, h.calls, h.quiet, h.quiet'⟩

theorem ConcursBefore.mapResult (h : ConcursBefore t r r')
    (f : α → Except Failure β) :
    ConcursBefore t (r.mapResult f) (r'.mapResult f) :=
  h.withOutcome fun hlt => congrArg (·.bind f) (h.outcome hlt)

theorem ConcursBefore.mapFailure (h : ConcursBefore t r r')
    (f : Failure → Failure) :
    ConcursBefore t (r.mapFailure f) (r'.mapFailure f) :=
  h.withOutcome fun hlt => congrArg (·.mapFailure f) (h.outcome hlt)

theorem ConcursBefore.after {x x' : Run β} (h : ConcursBefore t r r')
    (hx : x.Firm r.finish) (hx' : x'.Firm r'.finish)
    (hnext : r.finish.instant < t → ConcursBefore t x x') :
    ConcursBefore t (r.after x) (r'.after x') := by
  have hrest : ConcursBefore t x x' := by
    by_cases hlt : r.finish.instant < t
    · exact hnext hlt
    · have hle := Nat.not_lt.mp hlt
      exact concursBefore_of_le hx hx' hle (h.finish.le_of_le hle)
  refine ⟨hrest.finish, hrest.outcome, ?_,
    Moment.notBefore_earliest?.mpr ⟨h.quiet, hrest.quiet⟩,
    Moment.notBefore_earliest?.mpr ⟨h.quiet', hrest.quiet'⟩⟩
  show sightsBefore t (r.calls ++ x.calls) = sightsBefore t (r'.calls ++ x'.calls)
  rw [sightsBefore_append, sightsBefore_append, h.calls, hrest.calls]

/-- How long a task waits before it begins does not matter: that is told by
the moments of the run. -/
theorem ConcursBefore.behind (h : ConcursBefore t r r')
    (start start' : Moment) :
    ConcursBefore t (r.behind start) (r'.behind start') :=
  ⟨h.finish, h.outcome, h.calls,
    Moment.notBefore_earliest?.mpr ⟨Moment.notBefore_none, h.quiet⟩,
    Moment.notBefore_earliest?.mpr ⟨Moment.notBefore_none, h.quiet'⟩⟩

/-- It takes some steps until a task of its own begins, and until its end is
heard of, and no time. -/
theorem ConcursBefore.heard (h : ConcursBefore t r r') (start : Moment) :
    ConcursBefore t r (r'.behind start).heard :=
  ⟨h.finish, h.outcome, h.calls, h.quiet,
    Moment.notBefore_earliest?.mpr ⟨Moment.notBefore_none, h.quiet'⟩⟩

/-- **A task that is stopped later** has done the same before. -/
theorem ConcursBefore.overdue (h : ConcursBefore t r r')
    (hr' : r'.Firm now'.next) {time : Nat} (late : Outcome α)
    (hlate : ¬r'.finish.instant < now'.instant + time)
    (ht : t ≤ now'.instant + time) :
    ConcursBefore t r (r'.waitedFor now' time late) := by
  have hdue : t ≤ (now'.later time).instant := by
    rwa [Moment.instant_later]
  have hb : (r'.behind now'.next).Firm now'.next :=
    hr'.behind (Moment.le_refl _)
  have hcourse : t ≤ (r'.waitedFor now' time late).finish.instant := by
    have hle := due_le_finish_waitedFor hr'.le time late
    unfold due at hle
    rw [if_neg hlate] at hle
    exact Nat.le_trans hdue (Moment.instant_le hle)
  have hfinish : t ≤ r.finish.instant :=
    h.finish.symm.le_of_le (Nat.le_trans ht (Nat.not_lt.mp hlate))
  unfold waitedFor at hcourse ⊢
  rw [dif_neg hlate] at hcourse ⊢
  refine ⟨.of_le hfinish hcourse, fun hlt =>
    absurd hfinish (Nat.not_le.mpr hlt), ?_, h.quiet, ?_⟩
  · show _ = sightsBefore t ((r'.behind now'.next).upTo ⟨_, true⟩).calls
    rw [h.calls]
    unfold sightsBefore
    rw [hb.calls hdue]
    rfl
  · have hwithin := (r'.behind now'.next).within_upTo ⟨now'.later time, true⟩
    refine Moment.notBefore_iff_notAfter.mpr (hwithin.cancels _ ?_)
    exact Moment.notAfter_earliest?.mpr
      ⟨Moment.notAfter_none _, Moment.notBefore_iff_notAfter.mp h.quiet'⟩

/-- What is done inside calls that are seen alike. -/
theorem ConcursBefore.inside (h : ConcursBefore t r r') {self self' : Call}
    (hinvocation : self.invocation = self'.invocation)
    (hdepth : self.depth = self'.depth)
    (hentered : self.entered.Concurs t self'.entered)
    (hending : r.finish.instant < t → self.ending = self'.ending) :
    ConcursBefore t (r.inside self) (r'.inside self') := by
  refine ⟨h.finish, h.outcome, ?_, h.quiet, h.quiet'⟩
  show sightsBefore t (_ :: r.calls) = sightsBefore t (_ :: r'.calls)
  rw [sightsBefore_cons, sightsBefore_cons, h.calls]
  congr 2
  by_cases he : self.entered.instant < t
  · have heq := hentered.eq_of_lt he
    by_cases hl : r.finish.instant < t
    · have hleft := h.finish.eq_of_lt hl
      rw [Sight.before_of_lt (x := Call.sight { self with left := r.finish })
          he hl,
        Sight.before_of_lt (x := Call.sight { self' with left := r'.finish })
          (heq ▸ he : self'.entered.instant < t)
          (hleft ▸ hl : r'.finish.instant < t)]
      unfold Call.sight
      rw [hinvocation, hdepth, heq, hleft, hending hl]
    · have hl := Nat.not_lt.mp hl
      rw [Sight.before_of_le (x := Call.sight { self with left := r.finish })
          he hl,
        Sight.before_of_le (x := Call.sight { self' with left := r'.finish })
          (heq ▸ he : self'.entered.instant < t) (h.finish.le_of_le hl)]
      unfold Call.sight
      rw [hinvocation, hdepth, heq]
  · have he := Nat.not_lt.mp he
    exact (Sight.before_eq_none he).trans
      (Sight.before_eq_none (hentered.le_of_le he)).symm

/-- **A run that goes on where another one has ended**, or is over with it. -/
inductive GoesOn (r : Run α) : Run β → Prop
  | after {x : Run β} (hx : x.Firm r.finish) : GoesOn r (r.after x)
  | withOutcome (o : Outcome β) : GoesOn r (r.withOutcome o)

theorem goesOn_andThen (r : Run α) (known : Option Moment)
    {next : α → Moment → Option Moment → Run β}
    (hs : ∀ a m heard, (next a m heard).Firm m) :
    r.GoesOn (r.andThen known next) := by
  unfold Run.andThen
  split
  · exact .after (hs _ _ _)
  · exact .withOutcome _
  · exact .withOutcome _

/-- What follows comes later, whatever it is. -/
theorem GoesOn.late {x : Run β} (h : r.GoesOn x) (hle : t ≤ r.finish.instant)
    (hq : Moment.NotBefore t r.cancels) :
    t ≤ x.finish.instant ∧ sightsBefore t x.calls = sightsBefore t r.calls
      ∧ Moment.NotBefore t x.cancels := by
  cases h with
  | @after x hx =>
    refine ⟨Nat.le_trans hle (Moment.instant_le hx.le), ?_,
      Moment.notBefore_earliest?.mpr ⟨hq, hx.since.notBefore hle⟩⟩
    show sightsBefore t (r.calls ++ x.calls) = _
    rw [sightsBefore_append]
    unfold sightsBefore
    rw [hx.callsBefore_eq_nil hle, List.map_nil, List.append_nil]
  | withOutcome o => exact ⟨hle, rfl, hq⟩

theorem ConcursBefore.goesOn {x x' : Run β} (h : ConcursBefore t r r')
    (hle : t ≤ r.finish.instant) (hx : r.GoesOn x) (hx' : r'.GoesOn x') :
    ConcursBefore t x x' := by
  obtain ⟨hfinish, hcalls, hquiet⟩ := hx.late hle h.quiet
  obtain ⟨hfinish', hcalls', hquiet'⟩ :=
    hx'.late (h.finish.le_of_le hle) h.quiet'
  exact ⟨.of_le hfinish hfinish', fun hlt => absurd hfinish
    (Nat.not_le.mpr hlt), by rw [hcalls, hcalls', h.calls], hquiet, hquiet'⟩

/-- Neither of two runs, one behind the other, asks for a cancellation before an
instant, if both together do not. -/
theorem notBefore_of_andThen {known : Option Moment}
    {next : α → Moment → Option Moment → Run β}
    (h : Moment.NotBefore t (r.andThen known next).cancels) :
    Moment.NotBefore t r.cancels
      ∧ ∀ a, r.outcome = .returned a → Moment.NotBefore t
        (next a r.finish (Moment.earliest? known r.cancels)).cancels := by
  unfold Run.andThen at h
  cases ho : r.outcome with
  | returned a =>
    rw [ho] at h
    obtain ⟨hr, hnext⟩ := Moment.notBefore_earliest?.mp h
    refine ⟨hr, fun a' ha => ?_⟩
    obtain rfl := Outcome.returned.inj ha
    exact hnext
  | failed f =>
    rw [ho] at h
    exact ⟨h, fun a ha => nomatch ha⟩
  | interrupted m =>
    rw [ho] at h
    exact ⟨h, fun a ha => nomatch ha⟩

theorem ConcursBefore.andThen {known known' : Option Moment}
    {next next' : α → Moment → Option Moment → Run β}
    (h : ConcursBefore t r r')
    (hs : ∀ a m heard, (next a m heard).Firm m)
    (hs' : ∀ a m heard, (next' a m heard).Firm m)
    (hn : ∀ a, r.outcome = .returned a → r.finish.instant < t →
      ConcursBefore t (next a r.finish (Moment.earliest? known r.cancels))
        (next' a r'.finish (Moment.earliest? known' r'.cancels))) :
    ConcursBefore t (r.andThen known next) (r'.andThen known' next') := by
  by_cases hlt : r.finish.instant < t
  · unfold Run.andThen
    rw [← h.outcome hlt]
    cases ho : r.outcome with
    | returned a => exact h.after (hs _ _ _) (hs' _ _ _) fun _ => hn a ho hlt
    | failed f => exact h.withOutcome fun _ => rfl
    | interrupted m => exact h.withOutcome fun _ => rfl
  · exact h.goesOn (Nat.not_lt.mp hlt) (goesOn_andThen r known hs)
      (goesOn_andThen r' known' hs')

end Run

/-! ## Programs -/

/-- An expansion that is asked for concurs before an instant, whenever it is
asked for at the same one, as long as nobody has asked for a cancellation. -/
def Expander.ConcursBefore (t : Nat) (e e' : Expander) (text : Option Text)
    (asked : Moment) (heard : Option Moment) : Prop :=
  Moment.NotBefore t heard → Moment.NotBefore t (e text asked heard).cancels →
    ∀ (asked' : Moment) (heard' : Option Moment),
      asked.instant = asked'.instant → Moment.NotBefore t heard' →
        Run.ConcursBefore t (e text asked heard) (e' text asked' heard')

/-- A program that asks for a text goes on when it has been expanded. -/
theorem Program.goesOn_run_expand {b : Bool} {e : Expander} (he : e.Firm)
    {text : Option Text} {next : Except Failure Text → Program} (now : Moment)
    (known : Option Moment) :
    (e text now known).GoesOn ((Program.expand text next).run b e now known)
    := by
  rw [run]
  split
  · exact .after (firm_run he _ _ _)
  · exact .after (firm_run he _ _ _)
  · exact .withOutcome _

/-- **Programs concur** if what they ask for does. The induction is on the
program; only the requests that the first run comes to are met. -/
theorem Program.concursBefore_run {t : Nat} {b : Bool} {e e' : Expander}
    (hs : e.Firm) (hs' : e'.Firm) (p : Program) {now now' : Moment}
    {known known' : Option Moment} (hnow : now.Concurs t now')
    (hk : Moment.NotBefore t known) (hk' : Moment.NotBefore t known')
    (hq : Moment.NotBefore t (p.run b e now known).cancels)
    (he : ∀ text asked heard, p.Asks b e text asked heard now known →
      asked.instant < t → e.ConcursBefore t e' text asked heard) :
    Run.ConcursBefore t (p.run b e now known) (p.run b e' now' known') := by
  by_cases hlt : now.instant < t
  swap
  · have hle := Nat.not_lt.mp hlt
    exact Run.concursBefore_of_le (p.firm_run hs now known)
      (p.firm_run hs' now' known') hle (hnow.le_of_le hle)
  induction p generalizing now now' known known' with
  | finish | fail | interrupt => exact Run.concursBefore_now hnow _
  | sleep time next ih =>
    have hinstant := hnow.eq_of_lt hlt
    have hnow' : (now.later time).Concurs t (now'.later time) := .of_eq (by
      rw [Moment.instant_later, Moment.instant_later, hinstant])
    have hq : Moment.NotBefore t (Moment.earliest? none
        (next.run b e (now.later time) known).cancels) := hq
    have hq := (Moment.notBefore_earliest?.mp hq).2
    refine Run.ConcursBefore.behind ?_ _ _
    by_cases hlt' : (now.later time).instant < t
    · exact ih hnow' hk hk' hq (fun text asked heard h =>
        he text asked heard (.sleep h)) hlt'
    · have hle := Nat.not_lt.mp hlt'
      exact Run.concursBefore_of_le (next.firm_run hs _ _)
        (next.firm_run hs' _ _) hle (hnow'.le_of_le hle)
  | expand text next ih =>
    have hquiet : Moment.NotBefore t (e text now known).cancels := by
      unfold run at hq
      dsimp only at hq
      split at hq
      · exact (Moment.notBefore_earliest?.mp hq).1
      · exact (Moment.notBefore_earliest?.mp hq).1
      · exact hq
    have hr := he text now known .here hlt hk hquiet now' known'
      (hnow.eq_of_lt hlt) hk'
    by_cases hend : (e text now known).finish.instant < t
    · unfold run at hq ⊢
      dsimp only at hq ⊢
      rw [← hr.outcome hend]
      cases ho : (e text now known).outcome with
      | returned u =>
        rw [ho] at hq
        exact hr.after (firm_run hs _ _ _) (firm_run hs' _ _ _) fun _ =>
          ih (.ok u) hr.finish (Moment.notBefore_earliest?.mpr ⟨hk, hquiet⟩)
            (Moment.notBefore_earliest?.mpr ⟨hk', hr.quiet'⟩)
            (Moment.notBefore_earliest?.mp hq).2
            (fun text' asked heard h =>
              he text' asked heard (.returned ho h)) hend
      | failed f =>
        rw [ho] at hq
        exact hr.after (firm_run hs _ _ _) (firm_run hs' _ _ _) fun _ =>
          ih (.error f) hr.finish (Moment.notBefore_earliest?.mpr ⟨hk, hquiet⟩)
            (Moment.notBefore_earliest?.mpr ⟨hk', hr.quiet'⟩)
            (Moment.notBefore_earliest?.mp hq).2
            (fun text' asked heard h =>
              he text' asked heard (.failed ho h)) hend
      | interrupted m => exact hr.withOutcome fun _ => rfl
    · exact hr.goesOn (Nat.not_lt.mp hend) (goesOn_run_expand hs now known)
        (goesOn_run_expand hs' now' known')
  | cancel next ih =>
    cases b with
    | true =>
      -- a request would be told
      have hasked := (Moment.notBefore_earliest?.mp hq).1
      exact absurd hlt (Nat.not_lt.mpr (Moment.notBefore_some.mp hasked))
    | false =>
      exact ih hnow hk hk' hq (fun text asked heard h =>
        he text asked heard (.cancel h)) hlt
  | askCancelled next ih =>
    have hinstant := hnow.eq_of_lt hlt
    unfold run at hq ⊢
    rw [hk.reached_eq_false hlt] at hq ⊢
    rw [hk'.reached_eq_false (hinstant ▸ hlt)]
    refine ih false hnow hk hk' hq (fun text asked heard h =>
      he text asked heard (.askCancelled ?_)) hlt
    rw [hk.reached_eq_false hlt]
    exact h

/-! ## Groups -/

namespace Group

variable {α ι : Type} {t : Nat}

/-- Moments up to an instant, from the latest on, do not depend on the
steps. -/
theorem map_min_latestFirst {ends ends' : List Moment}
    (h : ends.map (fun m => min m.instant t)
      = ends'.map fun m => min m.instant t) :
    (latestFirst ends).map (fun m => min m.instant t)
      = (latestFirst ends').map fun m => min m.instant t := by
  have hsorted (ms : List Moment) :
      ((latestFirst ms).map fun m => min m.instant t).Pairwise (· ≥ ·) :=
    List.pairwise_map.mpr ((pairwise_latestFirst ms).imp fun hle => by
      have hle := Moment.instant_le hle
      omega)
  have hperm (ms : List Moment) :
      ((latestFirst ms).map fun m => min m.instant t).Perm
        (ms.map fun m => min m.instant t) :=
    (perm_inOrder _ ms).map _
  exact List.Perm.eq_of_pairwise' (hsorted ends) (hsorted ends')
    ((hperm ends).trans (h ▸ (hperm ends').symm))

/-- **When a slot becomes free does not depend on the steps** within the
instants. -/
theorem concurs_start (limit : Nat) {first first' : Moment}
    (hfirst : first.Concurs t first') {ends ends' : List Moment}
    (h : ends.map (fun m => min m.instant t)
      = ends'.map fun m => min m.instant t) :
    (start limit first ends).Concurs t (start limit first' ends') := by
  unfold start
  split
  · exact hfirst
  · have hget := congrArg (fun ts : List Nat => ts[limit - 1]?)
      (map_min_latestFirst h)
    simp only [List.getElem?_map] at hget
    cases hfree : (latestFirst ends)[limit - 1]? with
    | none =>
      rw [hfree, Option.map_none, eq_comm, Option.map_eq_none_iff] at hget
      rw [hget]
      exact hfirst
    | some free =>
      rw [hfree, Option.map_some, eq_comm, Option.map_eq_some_iff] at hget
      obtain ⟨free', hfree', hsame⟩ := hget
      rw [hfree']
      dsimp only
      -- a slot that is free by then is taken at the first instant
      unfold Moment.Concurs at hfirst ⊢
      split <;> split <;>
        simp_all only [Moment.le_def, Moment.next, Moment.skip] <;> omega

/-- **Members concur** if each of them does when it starts at the same
instant. The starts are those of the first group. -/
theorem concursBefore_members {member member' : ι → Member α} (limit : Nat)
    {first first' : Moment} (hfirst : first.Concurs t first')
    (hs : ∀ x start known, first ≤ start → (member x start known).Firm start)
    (hs' : ∀ x start known, first' ≤ start →
      (member' x start known).Firm start)
    {ends ends' : List Moment}
    (h : ends.map (fun m => min m.instant t)
      = ends'.map fun m => min m.instant t)
    {known known' : Option Moment} (hk : Moment.NotBefore t known)
    (hk' : Moment.NotBefore t known') (xs : List ι)
    (hm : ∀ x start heard,
      (x, start, heard) ∈ started limit first member known ends xs →
        start.instant < t → Moment.NotBefore t heard →
        Moment.NotBefore t (member x start heard).cancels
        ∧ ∀ (start' : Moment) (heard' : Option Moment),
          start.instant = start'.instant → Moment.NotBefore t heard' →
            Run.ConcursBefore t (member x start heard)
              (member' x start' heard')) :
    List.Forall₂ (Run.ConcursBefore t)
      (members limit first known ends (xs.map member))
      (members limit first' known' ends' (xs.map member')) := by
  induction xs generalizing ends ends' known known' with
  | nil => exact .nil
  | cons x rest ih =>
    rw [started] at hm
    have hstart := concurs_start limit hfirst h
    have hfirm := hs x _ known (first_le_start limit first ends)
    have hfirm' := hs' x _ known' (first_le_start limit first' ends')
    have hr : Run.ConcursBefore t (member x (start limit first ends) known)
        (member' x (start limit first' ends') known') := by
      by_cases hlt : (start limit first ends).instant < t
      · exact (hm x _ known List.mem_cons_self hlt hk).2 _ known'
          (hstart.eq_of_lt hlt) hk'
      · have hle := Nat.not_lt.mp hlt
        exact Run.concursBefore_of_le hfirm hfirm' hle
          (hstart.le_of_le hle)
    rw [List.map_cons, List.map_cons, members, members]
    refine .cons hr (ih ?_ (Moment.notBefore_earliest?.mpr ⟨hk, hr.quiet⟩)
      (Moment.notBefore_earliest?.mpr ⟨hk', hr.quiet'⟩)
      fun y start heard hy => hm y start heard (List.mem_cons_of_mem _ hy))
    rw [List.map_cons, List.map_cons, hr.finish, h]

end Group

/-- **A run that does nothing at an instant**: it does not end then or ask for
a cancellation, and no call in it is entered or left. -/
structure Run.Still {α : Type} (t : Nat) (r : Run α) : Prop where
  finish : r.finish.instant ≠ t
  asks : ∀ m, r.cancels = some m → m.instant ≠ t
  entered : ∀ c ∈ r.calls, c.entered.instant ≠ t
  left : ∀ c ∈ r.calls, c.left.instant ≠ t

/-- **Only one of some runs does anything** at an instant. -/
def Run.Alone {α : Type} (t : Nat) (runs : List (Run α)) : Prop :=
  ∃ front r back, runs = front ++ r :: back ∧ ∀ x ∈ front ++ back, x.Still t

namespace Run

variable {α : Type} {t : Nat} {now : Moment} {known : Option Moment}
  {s : Session} {r r' : Run α}

/-- **A run that does nothing at an instant** can be cut at any moment of
it: what has happened is what has happened before. -/
theorem Still.sights_upTo (h : r.Still t) (ho : r.Orderly s now known)
    (hs : r.Firm now) {c : Cut} (hc : c.moment.instant = t)
    (hnow : now ≤ c.moment) :
    (r.upTo c).calls.map Call.sight = sightsBefore t r.calls := by
  have hbefore : sightsBefore t (r.upTo c).calls = sightsBefore t r.calls := by
    unfold sightsBefore
    rw [hs.calls (Nat.le_of_eq hc.symm)]
  rw [← hbefore]
  refine (sightsBefore_eq_self fun d hd => ?_).symm
  have hcall := ho.left c hnow d hd
  have hfinish := r.instant_upTo_le c
  have hentered := Moment.instant_le hcall.entered_le
  have hleft := Moment.instant_le hcall.left_le
  rcases (ho.keeps_whole hnow).told d hd with hd | ⟨x, hx, left, -, -, hl, rfl⟩
  · have he := h.entered d hd
    have hne := h.left d hd
    omega
  · have he : x.entered.instant ≠ t := h.entered x hx
    have hentered : x.entered.instant ≤ left.instant := hentered
    refine ⟨?_, .inr ⟨hl.trans hc, rfl⟩⟩
    show x.entered.instant < t
    omega

/-- Runs that concur until an instant is over do nothing at it, if one of
them does not. -/
theorem Still.of_concursBefore (h : r.Still t)
    (hr : ConcursBefore (t + 1) r r')
    (hleft : ∀ c ∈ r'.calls, c.entered ≤ c.left) : r'.Still t := by
  have hcall : ∀ c' ∈ r'.calls, c'.entered.instant < t + 1 →
      c'.entered.instant ≠ t ∧ c'.left.instant ≠ t := by
    intro c' hc' he
    obtain ⟨c, hc, -, hentered, hmin⟩ := exists_of_sightsBefore_eq hr.calls hc' he
    have hne := h.entered c hc
    have hne' := h.left c hc
    omega
  refine ⟨fun heq => h.finish ?_, fun m hm heq => ?_, fun c' hc' heq => ?_,
    fun c' hc' heq => ?_⟩
  · have hfinish := hr.finish.symm.eq_of_lt (by omega)
    omega
  · have hlate := hr.quiet' m hm
    omega
  · exact (hcall c' hc' (by omega)).1 heq
  · have hle := Moment.instant_le (hleft c' hc')
    exact (hcall c' hc' (by omega)).2 heq

end Run

/-! ## Groups whose members concur -/

namespace Group

variable {α : Type}

/-- What is paired with parts of a list consists of such parts. -/
theorem exists_split_of_forall₂ {ι κ : Type} {R : ι → κ → Prop}
    {front back : List ι} {x : ι} {ys : List κ}
    (h : List.Forall₂ R (front ++ x :: back) ys) :
    ∃ front' y back', ys = front' ++ y :: back' ∧ List.Forall₂ R front front'
      ∧ R x y ∧ List.Forall₂ R back back' := by
  induction front generalizing ys with
  | nil =>
    obtain ⟨y, back', hxy, hback, rfl⟩ := List.forall₂_cons_left_iff.mp h
    exact ⟨[], y, back', rfl, .nil, hxy, hback⟩
  | cons z front ih =>
    obtain ⟨w, rest, hzw, hrest, rfl⟩ := List.forall₂_cons_left_iff.mp h
    obtain ⟨front', y, back', rfl, hfront, hxy, hback⟩ := ih hrest
    exact ⟨w :: front', y, back', rfl, .cons hzw hfront, hxy, hback⟩

theorem flatMap_eq_of_forall₂ {ι κ β : Type} {R : ι → κ → Prop}
    {xs : List ι} {ys : List κ} (h : List.Forall₂ R xs ys) {f : ι → List β}
    {g : κ → List β} (hfg : ∀ x y, R x y → f x = g y) :
    xs.flatMap f = ys.flatMap g := by
  induction h with
  | nil => rfl
  | cons hxy _ ih => rw [List.flatMap_cons, List.flatMap_cons, hfg _ _ hxy, ih]

/-- A request is made before it is heard of. -/
theorem le_heard (called : Moment) (size : Nat) (request : Point) :
    request.moment ≤ (heard called size request).moment := by
  unfold heard
  split
  · assumption
  · exact request.moment.le_next

namespace Gathering

/-- **A group as it is in an expansion**: it is called before its members end,
and these run in order and are not changed before a cut. -/
structure Regular (s : Session) (g : Gathering α) : Prop where
  called : g.Called
  orderly : ∀ r ∈ g.runs, r.Orderly s g.called g.cancels
  firm : ∀ r ∈ g.runs, r.Firm g.called

/-- Nobody asks for the cancellation of a group before an instant. -/
structure QuietBefore (t : Nat) (g : Gathering α) : Prop where
  cancels : Moment.NotBefore t g.cancels
  runs : ∀ r ∈ g.runs, Moment.NotBefore t r.cancels

variable {g g' : Gathering α} {s s' : Session} {t : Nat}

theorem QuietBefore.le_request (h : g.QuietBefore t) {p : Point}
    (hp : g.request = some p) : t ≤ p.moment.instant := by
  have hall : Moment.NotBefore t (g.request.map Point.moment) := by
    rw [map_moment_request, Moment.notBefore_iff_notAfter,
      notAfter_cancellation?]
    exact ⟨Moment.notBefore_iff_notAfter.mp h.cancels, fun r hr =>
      Moment.notBefore_iff_notAfter.mp (h.runs r hr)⟩
  rw [hp] at hall
  exact hall p.moment rfl

/-- The group hears of nothing before. -/
theorem QuietBefore.le_of_hears (h : g.QuietBefore t) {look : Point}
    (hh : g.hears look = true) : t ≤ look.moment.instant := by
  unfold hears heard at hh
  cases hp : g.request with
  | none =>
    rw [hp] at hh
    cases hh
  | some p =>
    rw [hp, Option.map_some, Option.any_some, decide_eq_true_eq] at hh
    exact Nat.le_trans (h.le_request hp) (Moment.instant_le
      (Moment.le_trans (le_heard g.called g.runs.length p)
        (Point.moment_le hh)))

/-- **A request that a group hears of** was made before it looks: whoever waits
for it has begun when the group was called, and the group looks when
something else has ended. -/
theorem lt_look_of_hears (hg : g.Called) {f : Failure}
    (hw : g.watched.2 = some f) (hh : g.hears g.look = true) {p : Point}
    (hp : g.request = some p) : p.moment < g.look.moment := by
  have hlate : g.called.next < g.look.moment := by
    rcases g.watched_cases with ⟨hn, -⟩ | ⟨f', -, hf⟩
    · rw [hn] at hw
      cases hw
    · obtain ⟨e, he, -, hlook, -⟩ := hf.cause
      rw [hlook]
      refine Moment.lt_of_le_of_lt ?_ e.lt_noticed
      rcases mem_ends he with ⟨x, hx, rfl⟩ | ⟨hheard, -⟩
      · exact Moment.next_le_iff.mpr (hg _ (run_mem hx))
      · unfold heard at hheard
        rw [hp, Option.map_some, Option.some.injEq] at hheard
        rw [← hheard]
        unfold Group.heard
        split
        · exact Moment.le_refl _
        · next hnot =>
          exact Moment.le_trans (Moment.le_of_lt (Moment.not_le.mp hnot))
            p.moment.le_next
  unfold hears heard at hh
  rw [hp, Option.map_some, Option.any_some, decide_eq_true_eq] at hh
  have hle := Point.moment_le hh
  unfold Group.heard at hle
  split at hle
  · next hsoon => exact Moment.lt_of_le_of_lt hsoon hlate
  · exact Moment.next_le_iff.mp hle

/-- A group that has waited for its members before an instant has their
results. -/
theorem QuietBefore.outcome_eq (h : g.QuietBefore t)
    (hlt : g.look.moment.instant < t) (hw : g.watched.2 = none) :
    g.outcome = results g.runs := by
  have hrequest : Moment.NotBefore t (g.request.map Point.moment) := by
    intro m hm
    obtain ⟨p, hp, rfl⟩ := Option.map_eq_some_iff.mp hm
    exact h.le_request hp
  unfold outcome
  rw [hw, hrequest.reached_eq_false hlt]
  rfl

theorem instant_finish (g : Gathering α) :
    g.run.finish.instant = g.look.moment.instant :=
  g.instant_course

/-- Before the instant nothing is left out of what the members have done. -/
theorem Regular.cleared_lt (hg : g.Regular s) {x : Placed α}
    (hx : x ∈ g.members) : ∀ d ∈ (x.upTo g.look).calls,
      d.cleared.instant < g.look.moment.instant + 1 :=
  (hg.orderly _ (run_mem hx)).cleared_upTo
    (Nat.lt_succ_of_le (Moment.instant_le g.called_le_look))
    (Nat.lt_succ_self _)

theorem Regular.calls_eq (hg : g.Regular s) (hq : g.QuietBefore t)
    (hlt : g.look.moment.instant < t) :
    g.run.calls = g.members.flatMap fun x => (x.upTo g.look).calls := by
  show ((g.members.map (Placed.upTo g.look)).flatMap Course.calls).filter _ = _
  rw [List.flatMap_map]
  refine List.filter_eq_self.mpr fun d hd => (Option.all_eq_true _ _).mpr
    fun m hm => ?_
  obtain ⟨x, hx, hd⟩ := List.mem_flatMap.mp hd
  obtain ⟨p, hp, rfl⟩ := Option.map_eq_some_iff.mp hm
  have hcleared := hg.cleared_lt hx d hd
  have hle := hq.le_request hp
  have hlt : d.cleared.instant < p.moment.instant := by omega
  simp only [decide_eq_true_eq]
  exact .inl hlt

/-- A group that goes on after an instant shows of its members what they have
done before. -/
theorem Regular.sightsBefore_eq (hg : g.Regular s) (hq : g.QuietBefore t)
    (hle : t ≤ g.look.moment.instant) :
    sightsBefore t g.run.calls
      = g.runs.flatMap fun r => sightsBefore t r.calls := by
  have hparts : callsBefore t
        (g.members.flatMap fun x => (x.upTo g.look).calls)
      = callsBefore t (g.runs.flatMap Run.calls) := by
    rw [← g.map_run_members, List.flatMap_map, callsBefore_flatMap,
      callsBefore_flatMap]
    exact List.flatMap_congr fun x hx =>
      (hg.firm _ (run_mem hx)).calls (c := g.look.cut x.place) hle
  have hcalls : callsBefore t g.run.calls
      = callsBefore t (g.runs.flatMap Run.calls) := by
    rw [← hparts]
    show callsBefore t
      (((g.members.map (Placed.upTo g.look)).flatMap Course.calls).filter _) = _
    rw [callsBefore_filter fun _ _ => rfl, List.flatMap_map]
    refine List.filter_eq_self.mpr fun d hd => (Option.all_eq_true _ _).mpr
      fun m hm => ?_
    obtain ⟨p, hp, rfl⟩ := Option.map_eq_some_iff.mp hm
    obtain ⟨c, hc, hcd⟩ := List.mem_filterMap.mp hd
    obtain ⟨x, hx, hc⟩ := List.mem_flatMap.mp hc
    have hcall := (hg.orderly _ (run_mem hx)).left (g.look.cut x.place)
      g.called_le_look c hc
    have hcleared := Moment.instant_le hcall.cleared_le_entered
    have hentered : c.entered.instant < t := by
      by_contra hnot
      rw [Call.before_eq_none_iff.mpr (Nat.not_lt.mp hnot)] at hcd
      cases hcd
    have heq : d.cleared = c.cleared := by
      unfold Call.before at hcd
      rw [if_pos hentered, Option.some.injEq] at hcd
      rw [← hcd]
      split <;> rfl
    have hle := hq.le_request hp
    have hlt : c.cleared.instant < p.moment.instant := by omega
    simp only [decide_eq_true_eq, heq]
    exact .inl hlt
  unfold sightsBefore
  rw [hcalls, callsBefore_flatMap, List.map_flatMap]

/-- The group asks for nothing before. -/
theorem QuietBefore.notBefore_run (h : g.QuietBefore t) :
    Moment.NotBefore t g.run.cancels := by
  refine Moment.notBefore_iff_notAfter.mpr (notAfter_foldl.mpr
    ⟨Moment.notAfter_none _, fun k hk => ?_⟩)
  obtain ⟨x, hx, rfl⟩ := List.mem_map.mp hk
  exact (x.run.within_upTo _).cancels _
    (Moment.notBefore_iff_notAfter.mp (h.runs _ (run_mem hx)))

/-- If it is over before, it asks for nothing at all. -/
theorem Regular.cancels_eq_none (hg : g.Regular s) (h : g.QuietBefore t)
    (hlt : g.look.moment.instant < t) : g.run.cancels = none := by
  cases hm : g.run.cancels with
  | none => rfl
  | some m =>
    have hle := (firm_run hg.firm).cancels_le hm
    rw [instant_finish] at hle
    exact absurd (h.notBefore_run m hm) (by omega)

/-- Groups concur that are over at the same instant, with the same outcome,
if their members have been left alike by then. -/
theorem Regular.concursBefore_of_sights (hg : g.Regular s)
    (hg' : g'.Regular s') {u : Nat} (hq : g.QuietBefore u)
    (hq' : g'.QuietBefore u) (hlt : g.look.moment.instant < u)
    (hlook : g.look.moment.instant = g'.look.moment.instant)
    (ho : g.outcome = g'.outcome)
    (hcalls : List.Forall₂ (fun x x' => (x.upTo g.look).calls.map Call.sight
      = (x'.upTo g'.look).calls.map Call.sight) g.members g'.members) :
    Run.ConcursBefore t g.run g'.run := by
  have hlt' : g'.look.moment.instant < u := hlook ▸ hlt
  refine ⟨.of_eq ?_, fun _ => ho, ?_, ?_, ?_⟩
  · rw [instant_finish, instant_finish, hlook]
  · rw [Shortcode.sightsBefore_eq, Shortcode.sightsBefore_eq,
      hg.calls_eq hq hlt, hg'.calls_eq hq' hlt', List.map_flatMap,
      List.map_flatMap, flatMap_eq_of_forall₂ hcalls fun _ _ h => h]
  · rw [hg.cancels_eq_none hq hlt]
    exact Moment.notBefore_none
  · rw [hg'.cancels_eq_none hq' hlt']
    exact Moment.notBefore_none

theorem results_eq {runs runs' : List (Run α)}
    (h : List.Forall₂ (fun r r' => r.outcome = r'.outcome) runs runs') :
    results runs = results runs' := by
  induction h with
  | nil => rfl
  | cons hr _ ih => rw [results, results, hr, ih]

/-- What has become of a member that has ended by the last look. -/
theorem Regular.sights_of_ended (hg : g.Regular s) {x : Placed α}
    (hx : x ∈ g.members) (hle : x.finish ≤ g.look) :
    (x.upTo g.look).calls.map Call.sight
      = sightsBefore (g.look.moment.instant + 1) x.run.calls := by
  have hlt := Nat.lt_succ_of_le (Moment.instant_le (Point.moment_le hle))
  rw [Placed.upTo_of_le hle]
  refine (sightsBefore_of_ended (fun c hc => ?_) hlt).symm
  have hcall := (hg.orderly _ (run_mem hx)).calls c hc
  exact ⟨hcall.entered_le, hcall.left_le⟩

/-- The members of groups whose runs are paired. -/
theorem forall₂_members {R : Run α → Run α → Prop}
    (h : List.Forall₂ R g.runs g'.runs) :
    List.Forall₂ (fun x x' => R x.run x'.run) g.members g'.members := by
  rw [← g.map_run_members, ← g'.map_run_members] at h
  exact List.forall₂_map_right_iff.mp (List.forall₂_map_left_iff.mp h)

section

variable (hg : g.Regular s) (hg' : g'.Regular s')
include hg hg'

/-- **Groups that go on after an instant concur before it**, if their members
do. -/
theorem concursBefore_of_le (hne : g.runs ≠ []) (hq : g.QuietBefore t)
    (hq' : g'.QuietBefore t)
    (h : List.Forall₂ (Run.ConcursBefore t) g.runs g'.runs)
    (hle : t ≤ g.look.moment.instant) :
    Run.ConcursBefore t g.run g'.run := by
  have hle' : t ≤ g'.look.moment.instant := by
    rcases over_cases hg'.called with ⟨-, hwaited, -⟩ | ⟨-, hh⟩ | ⟨f, -, hf⟩
    · -- it has waited for a member that goes on as well
      obtain ⟨r, hr, hlook⟩ := exists_le_finish hg.called hne
      obtain ⟨r', hr', hrr⟩ := exists_of_forall₂ h.flip r hr
      obtain ⟨x', hx', rfl⟩ := exists_placed hr'
      have hended := Moment.instant_le (Point.moment_le
        (hwaited.ended _ (finish_mem_ends hx')))
      exact Nat.le_trans (hrr.finish.le_of_le (Nat.le_trans hle hlook)) hended
    · exact hq'.le_of_hears hh
    · obtain ⟨r', hr', hfailed, -, hinstant⟩ := hf.exists_run
      obtain ⟨r, hr, hrr⟩ := exists_of_forall₂ h r' hr'
      by_contra hnot
      have hlt : r'.finish.instant < t := by omega
      have hfinish := hrr.finish.symm.eq_of_lt hlt
      have ho := hrr.outcome (by omega)
      have hlook := look_le_of_failed hg.called hr (ho.trans hfailed)
      omega
  refine ⟨.of_le ?_ ?_, fun hlt => ?_, ?_, hq.notBefore_run,
    hq'.notBefore_run⟩
  · rwa [instant_finish]
  · rwa [instant_finish]
  · rw [instant_finish] at hlt
    exact absurd hle (Nat.not_le.mpr hlt)
  · rw [hg.sightsBefore_eq hq hle, hg'.sightsBefore_eq hq' hle']
    exact flatMap_eq_of_forall₂ h fun _ _ hr => hr.calls

/-- **Groups that have waited for all of their members concur**, if these
have until the group is over. -/
theorem concursBefore_of_waited (hne : g.runs ≠ [])
    (hq : g.QuietBefore (g.look.moment.instant + 1))
    (hq' : g'.QuietBefore (g.look.moment.instant + 1))
    (h : List.Forall₂ (Run.ConcursBefore (g.look.moment.instant + 1)) g.runs
      g'.runs)
    (hw : g.watched.2 = none)
    (hwaited : Waited g.seen? ⟨g.called, 0⟩ g.ends g.look)
    (hno : ∀ r ∈ g.runs, ∀ f, r.outcome ≠ .failed f) :
    Run.ConcursBefore t g.run g'.run := by
  have hended : ∀ x ∈ g.members, x.finish ≤ g.look := fun x hx =>
    hwaited.ended _ (finish_mem_ends hx)
  have hinstant : ∀ r ∈ g.runs,
      r.finish.instant < g.look.moment.instant + 1 := by
    intro r hr
    obtain ⟨x, hx, rfl⟩ := exists_placed hr
    exact Nat.lt_succ_of_le (Moment.instant_le (Point.moment_le (hended x hx)))
  have hne' : g'.runs ≠ [] := by
    rintro hnil
    rw [hnil, List.forall₂_nil_right_iff] at h
    exact hne h
  have hlook' : g'.look.moment.instant ≤ g.look.moment.instant := by
    obtain ⟨r', hr', hle⟩ := exists_le_finish hg'.called hne'
    obtain ⟨r, hr, hrr⟩ := exists_of_forall₂ h r' hr'
    have hfinish := hrr.finish.eq_of_lt (hinstant r hr)
    have hlt := hinstant r hr
    omega
  rcases over_cases hg'.called with ⟨hw', hwaited', -⟩ | ⟨-, hh⟩ | ⟨f, -, hf⟩
  · have hlook : g.look.moment.instant = g'.look.moment.instant := by
      obtain ⟨r, hr, hle⟩ := exists_le_finish hg.called hne
      obtain ⟨r', hr', hrr⟩ := exists_of_forall₂ h.flip r hr
      have hfinish := hrr.finish.eq_of_lt (hinstant r hr)
      obtain ⟨x', hx', rfl⟩ := exists_placed hr'
      have hended' : x'.run.finish.instant ≤ g'.look.moment.instant :=
        Moment.instant_le (Point.moment_le
          (hwaited'.ended _ (finish_mem_ends hx')))
      omega
    refine hg.concursBefore_of_sights hg' hq hq' (Nat.lt_succ_self _) hlook ?_ ?_
    · rw [hq.outcome_eq (Nat.lt_succ_self _) hw,
        hq'.outcome_eq (Nat.lt_succ_of_le hlook') hw']
      refine results_eq (List.Forall₂.imp (fun r r' hr => ?_)
        ((List.forall₂_and_left _ _).mpr ⟨hinstant, h⟩))
      exact hr.2.outcome hr.1
    · have hmembers := forall₂_members h
      refine List.Forall₂.imp (fun x x' hx => ?_) ((List.forall₂_and_left _ _).mpr
        ⟨fun x hx => hg.sights_of_ended hx (hended x hx),
          ((List.forall₂_and_left _ _).mpr ⟨fun x' hx' => hg'.sights_of_ended hx'
            (hwaited'.ended _ (finish_mem_ends hx')), hmembers.flip⟩).flip⟩)
      rw [hx.1, hx.2.1, ← hlook]
      exact hx.2.2.calls
  · exact absurd (hq'.le_of_hears hh) (by omega)
  · obtain ⟨r', hr', hfailed, -⟩ := hf.exists_run
    obtain ⟨r, hr, hrr⟩ := exists_of_forall₂ h r' hr'
    exact absurd ((hrr.outcome (hinstant r hr)).trans hfailed) (hno r hr f)

end

/-- The failure that a group finds is that of the only member that does
something at the instant of the look. -/
theorem Failing.of_still {f : Failure} (h : g.Failing f)
    {front back : List (Placed α)} {x : Placed α}
    (hmembers : g.members = front ++ x :: back)
    (hstill : ∀ y ∈ front ++ back, y.run.Still g.look.moment.instant) :
    x.finish ≤ g.look ∧ x.run.outcome = .failed f := by
  obtain ⟨before, k, behind, hsplit, hle, hfailed, -⟩ :=
    failed?_eq_some_iff.mp h.failed
  have hk : k ∈ g.members := by
    rw [hsplit]
    simp
  have hinstant : k.run.finish.instant = g.look.moment.instant :=
    Nat.le_antisymm (Moment.instant_le (Point.moment_le hle))
      (h.earliest _ (run_mem hk) f hfailed)
  have hnot : k ∉ front ++ back := fun hmem =>
    (hstill k hmem).finish hinstant
  have heq : k = x := by
    rw [hmembers] at hk
    simp only [List.mem_append, List.mem_cons, not_or] at hk hnot
    tauto
  exact ⟨heq ▸ hle, heq ▸ hfailed⟩

/-- What has become of a member that does nothing at the instant of the
look. -/
theorem Regular.sights_of_still (hg : g.Regular s) {x : Placed α}
    (hx : x ∈ g.members) (hstill : x.run.Still g.look.moment.instant) :
    (x.upTo g.look).calls.map Call.sight
      = sightsBefore g.look.moment.instant x.run.calls :=
  hstill.sights_upTo (hg.orderly _ (run_mem hx)) (hg.firm _ (run_mem hx))
    (c := g.look.cut x.place) rfl g.called_le_look

/-- **Groups that fail concur**, if the members do until the group is over,
and the others do nothing at that instant. -/
theorem concursBefore_of_failing (hg : g.Regular s) (hg' : g'.Regular s')
    (hq : g.QuietBefore (g.look.moment.instant + 1))
    (hq' : g'.QuietBefore (g.look.moment.instant + 1))
    (h : List.Forall₂ (Run.ConcursBefore (g.look.moment.instant + 1)) g.runs
      g'.runs)
    {f : Failure} (hw : g.watched.2 = some f) (hf : g.Failing f)
    {front back : List (Run α)} {r : Run α}
    (hruns : g.runs = front ++ r :: back)
    (hstill : ∀ x ∈ front ++ back, x.Still g.look.moment.instant) :
    Run.ConcursBefore t g.run g'.run := by
  -- the members in front of the one that fails, and behind it, in both groups
  obtain ⟨mf, rest, hmembers, rfl, hrest⟩ :=
    List.map_eq_append_iff.mp (g.map_run_members.trans hruns)
  obtain ⟨x, mb, rfl, rfl, rfl⟩ := List.map_eq_cons_iff.mp hrest
  have hpaired := forall₂_members h
  rw [hmembers] at hpaired
  obtain ⟨mf', x', mb', hmembers', hfront, hx, hback⟩ :=
    exists_split_of_forall₂ hpaired
  have hstill : ∀ y ∈ mf ++ mb, y.run.Still g.look.moment.instant := by
    intro y hy
    refine hstill y.run ?_
    rw [← List.map_append]
    exact List.mem_map_of_mem hy
  have hsub : ∀ y ∈ mf ++ mb, y ∈ g.members := by
    intro y hy
    rw [hmembers]
    simp only [List.mem_append, List.mem_cons] at hy ⊢
    tauto
  have hsub' : ∀ y ∈ mf' ++ mb', y ∈ g'.members := by
    intro y hy
    rw [hmembers']
    simp only [List.mem_append, List.mem_cons] at hy ⊢
    tauto
  have hstill' : ∀ y ∈ mf' ++ mb', y.run.Still g.look.moment.instant := by
    intro y' hy'
    obtain ⟨y, hy, hyy⟩ :=
      exists_of_forall₂ (List.rel_append hfront hback) y' hy'
    refine (hstill y hy).of_concursBefore hyy fun c hc => ?_
    exact ((hg'.orderly _ (run_mem (hsub' y' hy'))).calls c hc).entered_le
  have hmem : x ∈ g.members := by rw [hmembers]; simp
  have hmem' : x' ∈ g'.members := by rw [hmembers']; simp
  obtain ⟨hle, hfailed⟩ := hf.of_still hmembers hstill
  have hlt : x.run.finish.instant < g.look.moment.instant + 1 :=
    Nat.lt_succ_of_le (Moment.instant_le (Point.moment_le hle))
  have hfailed' : x'.run.outcome = .failed f := (hx.outcome hlt).symm.trans hfailed
  have hlook' : g'.look.moment.instant ≤ g.look.moment.instant := by
    have hlook := look_le_of_failed hg'.called (run_mem hmem') hfailed'
    have hfinish := hx.finish.eq_of_lt hlt
    omega
  rcases over_cases hg'.called with ⟨-, -, hno⟩ | ⟨-, hh⟩ | ⟨f', hw', hf'⟩
  · exact absurd hfailed' (hno _ (run_mem hmem') f)
  · exact absurd (hq'.le_of_hears hh) (by omega)
  · have hlook : g.look.moment.instant = g'.look.moment.instant := by
      obtain ⟨k', hk', hkf, -, hinstant⟩ := hf'.exists_run
      obtain ⟨k, hk, hkk⟩ := exists_of_forall₂ h k' hk'
      have hfinish := hkk.finish.symm.eq_of_lt (by omega)
      have ho := hkk.outcome (by omega)
      have hsooner := look_le_of_failed hg.called hk (ho.trans hkf)
      omega
    obtain ⟨hle', hfound⟩ := hf'.of_still hmembers' (hlook ▸ hstill')
    obtain rfl : f = f' := by
      rw [hfailed'] at hfound
      exact Outcome.failed.inj hfound
    refine hg.concursBefore_of_sights hg' hq hq' (Nat.lt_succ_self _) hlook
      (by rw [outcome_of_some hw, outcome_of_some hw']) ?_
    have hcut {ms ms' : List (Placed α)}
        (hms : List.Forall₂ (fun y y' => Run.ConcursBefore
          (g.look.moment.instant + 1) y.run y'.run) ms ms')
        (hall : ∀ y ∈ ms, y ∈ mf ++ mb) (hall' : ∀ y ∈ ms', y ∈ mf' ++ mb') :
        List.Forall₂ (fun y y' => (y.upTo g.look).calls.map Call.sight
          = (y'.upTo g'.look).calls.map Call.sight) ms ms' := by
      refine List.Forall₂.imp (fun y y' hy => ?_)
        ((List.forall₂_and_left _ _).mpr ⟨hall,
          ((List.forall₂_and_left _ _).mpr ⟨hall', hms.flip⟩).flip⟩)
      obtain ⟨hy, hy', hyy⟩ := hy
      rw [hg.sights_of_still (hsub y hy) (hstill y hy),
        hg'.sights_of_still (hsub' y' hy') (hlook ▸ hstill' y' hy'), ← hlook]
      exact sightsBefore_mono (Nat.le_succ _) hyy.calls
    rw [hmembers, hmembers']
    refine List.rel_append (hcut hfront (fun y => List.mem_append_left _)
      fun y => List.mem_append_left _) (.cons ?_ (hcut hback
        (fun y => List.mem_append_right _) fun y => List.mem_append_right _))
    rw [hg.sights_of_ended hmem hle, hg'.sights_of_ended hmem' hle', ← hlook]
    exact hx.calls

/-- What can have become of a member of a group that fails. -/
theorem Failing.cases_of_alone {f : Failure} (h : g.Failing f)
    (halone : Run.Alone g.look.moment.instant g.runs) {x : Placed α}
    (hx : x ∈ g.members) :
    x.finish ≤ g.look ∨ x.run.Still g.look.moment.instant := by
  obtain ⟨front, r, back, hruns, hstill⟩ := halone
  obtain ⟨mf, rest, hmembers, rfl, hrest⟩ :=
    List.map_eq_append_iff.mp (g.map_run_members.trans hruns)
  obtain ⟨y, mb, rfl, rfl, rfl⟩ := List.map_eq_cons_iff.mp hrest
  rw [← List.map_append] at hstill
  obtain ⟨hle, -⟩ := h.of_still hmembers fun z hz =>
    hstill _ (List.mem_map_of_mem hz)
  have hsplit := hmembers ▸ hx
  rw [List.mem_append, List.mem_cons] at hsplit
  rcases hsplit with hmem | rfl | hmem
  · exact .inr (hstill _ (List.mem_map_of_mem (List.mem_append_left _ hmem)))
  · exact .inl hle
  · exact .inr (hstill _ (List.mem_map_of_mem (List.mem_append_right _ hmem)))

/-- **In a group that nobody asks to cancel** nobody would before it is over:
what a member asks for is asked for by the group, unless the member is cut
before. -/
theorem Regular.quietBefore (hg : g.Regular s)
    (hc : Moment.NotBefore t g.cancels)
    (hq : Moment.NotBefore t g.run.cancels)
    (halone : g.look.moment.instant < t → ∀ f, g.outcome = .failed f →
      Run.Alone g.look.moment.instant g.runs) :
    g.QuietBefore (min t (g.look.moment.instant + 1)) := by
  -- what is asked for sooner is left out by the cut
  have hcut : ∀ x ∈ g.members, ∀ m, x.run.cancels = some m → m.instant < t →
      (g.look.cut x.place).Precedes m := by
    intro x hx m hm hlt
    refine ((hg.orderly _ (run_mem hx)).requested
      (g.look.cut x.place)).kept.resolve_left (fun hwhole => ?_) m hm
    have hpart := (notAfter_foldl.mp (Moment.notBefore_iff_notAfter.mp hq)).2 _
      (List.mem_map_of_mem hx)
    have hle := Moment.notBefore_iff_notAfter.mpr hpart m (hwhole.trans hm)
    omega
  refine ⟨hc.mono (Nat.min_le_left _ _), fun r hr m hm => ?_⟩
  obtain ⟨x, hx, rfl⟩ := exists_placed hr
  by_contra hnot
  have hlt : m.instant < t := by omega
  have hprecedes := hcut x hx m hm hlt
  have hinstant : m.instant = g.look.moment.instant :=
    Nat.le_antisymm (by omega) (Moment.instant_le hprecedes.moment_le)
  have hended : ¬x.finish ≤ g.look := by
    intro hle
    have hwhole : (x.run.upTo (g.look.cut x.place)).cancels = some m := by
      rw [← hm]
      exact congrArg Course.cancels (Placed.upTo_of_le hle)
    have hpart := (notAfter_foldl.mp (Moment.notBefore_iff_notAfter.mp hq)).2 _
      (List.mem_map_of_mem hx)
    have hle := Moment.notBefore_iff_notAfter.mpr hpart m hwhole
    omega
  rcases over_cases hg.called with ⟨-, hwaited, -⟩ | ⟨hw, hh⟩ | ⟨f, hw, hf⟩
  · exact hended (hwaited.ended _ (finish_mem_ends hx))
  · -- the request was made before the look, and so it was not left out
    cases hp : g.request with
    | none =>
      rw [hears_eq_false hp] at hh
      cases hh
    | some p =>
      have hsooner := lt_look_of_hears hg.called hw hh hp
      have hearly := Moment.instant_le (Moment.le_of_lt hsooner)
      have hfirst := g.map_moment_request
      rw [hp, Option.map_some] at hfirst
      rcases exists_of_foldl_earliest? hfirst.symm with hm | ⟨r, hr, hm⟩
      · have hle := hc p.moment hm
        omega
      · obtain ⟨y, hy, rfl⟩ := exists_placed hr
        exact Moment.not_lt.mpr
          (hcut y hy p.moment hm (by omega)).moment_le hsooner
  · rcases hf.cases_of_alone (halone (by omega) f (outcome_of_some hw)) hx with
      hle | hx
    · exact hended hle
    · exact hx.asks m hm hinstant

/-- **A call of a member is made in the group**, if it is entered before the
group is over, and goes on as long as it can. -/
theorem Regular.exists_call (hg : g.Regular s)
    (hq : g.QuietBefore (min t (g.look.moment.instant + 1)))
    (halone : g.look.moment.instant < t → ∀ f, g.outcome = .failed f →
      Run.Alone g.look.moment.instant g.runs)
    {r : Run α} (hr : r ∈ g.runs) {c : Call} (hc : c ∈ r.calls)
    (he : c.entered.instant < min t (g.look.moment.instant + 1)) :
    ∃ d ∈ g.run.calls, d.invocation = c.invocation
      ∧ d.entered.instant = c.entered.instant
      ∧ min c.left.instant (min t (g.look.moment.instant + 1) - 1)
        ≤ min d.left.instant (t - 1) := by
  by_cases hlt : g.look.moment.instant < t
  · rw [Nat.min_eq_right hlt] at hq he ⊢
    have hcalls := hg.calls_eq hq (Nat.lt_succ_self _)
    -- a member that has not ended has been cut
    have hcases : (∃ x ∈ g.members, x.run = r ∧ x.finish ≤ g.look)
        ∨ ∃ x ∈ g.members, x.run = r
          ∧ x.run.Still g.look.moment.instant := by
      rcases over_cases hg.called with
        ⟨-, hwaited, -⟩ | ⟨-, hh⟩ | ⟨f, hw, hf⟩
      · obtain ⟨x, hx, rfl⟩ := exists_placed hr
        exact .inl ⟨x, hx, rfl, hwaited.ended _ (finish_mem_ends hx)⟩
      · exact absurd (hq.le_of_hears hh) (by omega)
      · obtain ⟨x, hx, rfl⟩ := exists_placed hr
        exact (hf.cases_of_alone (halone hlt f (outcome_of_some hw)) hx).imp
          (fun hle => ⟨x, hx, rfl, hle⟩) fun hx' => ⟨x, hx, rfl, hx'⟩
    rcases hcases with ⟨x, hx, rfl, hle⟩ | ⟨x, hx, rfl, hstill⟩
    · refine ⟨c, ?_, rfl, rfl, by omega⟩
      rw [hcalls]
      refine List.mem_flatMap.mpr ⟨x, hx, ?_⟩
      rw [Placed.upTo_of_le hle]
      exact hc
    · have hentered := hstill.entered c hc
      have hsights : sightsBefore g.look.moment.instant (x.upTo g.look).calls
          = sightsBefore g.look.moment.instant x.run.calls :=
        congrArg (List.map Call.sight)
          ((hg.firm _ (run_mem hx)).calls (c := g.look.cut x.place)
            (Nat.le_refl g.look.moment.instant))
      obtain ⟨d, hd, hinvocation, hdc, hmin⟩ :=
        exists_of_sightsBefore_eq hsights hc (by omega)
      refine ⟨d, ?_, hinvocation, hdc, by omega⟩
      rw [hcalls]
      exact List.mem_flatMap.mpr ⟨x, hx, hd⟩
  · have hle := Nat.not_lt.mp hlt
    rw [Nat.min_eq_left (Nat.le_succ_of_le hle)] at hq he ⊢
    have hsights := (hg.sightsBefore_eq hq hle).trans
      (sightsBefore_flatMap g.runs Run.calls).symm
    obtain ⟨d, hd, hinvocation, hdc, hmin⟩ := exists_of_sightsBefore_eq hsights
      (List.mem_flatMap.mpr ⟨r, hr, hc⟩) he
    exact ⟨d, hd, hinvocation, hdc, by omega⟩

/-- **Groups concur** before an instant if their members do, until then or
until the first group is over. If that one fails, the others have nothing to do
at the instant at which it does. -/
theorem concursBefore_run (hg : g.Regular s) (hg' : g'.Regular s')
    (hne : g.runs ≠ []) (hc : Moment.NotBefore t g.cancels)
    (hc' : Moment.NotBefore t g'.cancels)
    (h : List.Forall₂
      (Run.ConcursBefore (min t (g.look.moment.instant + 1))) g.runs g'.runs)
    (halone : g.look.moment.instant < t → ∀ f, g.outcome = .failed f →
      Run.Alone g.look.moment.instant g.runs) :
    Run.ConcursBefore t g.run g'.run := by
  have hq : g.QuietBefore (min t (g.look.moment.instant + 1)) :=
    ⟨hc.mono (Nat.min_le_left _ _), fun r hr => by
      obtain ⟨r', -, hrr⟩ := exists_of_forall₂ h.flip r hr
      exact hrr.quiet⟩
  have hq' : g'.QuietBefore (min t (g.look.moment.instant + 1)) :=
    ⟨hc'.mono (Nat.min_le_left _ _), fun r' hr' => by
      obtain ⟨r, -, hrr⟩ := exists_of_forall₂ h r' hr'
      exact hrr.quiet'⟩
  by_cases hlt : g.look.moment.instant < t
  · rw [Nat.min_eq_right hlt] at h hq hq'
    rcases over_cases hg.called with ⟨hw, hwaited, hno⟩ | ⟨-, hh⟩ | ⟨f, hw, hf⟩
    · exact concursBefore_of_waited hg hg' hne hq hq' h hw hwaited hno
    · exact absurd (hq.le_of_hears hh) (by omega)
    · obtain ⟨front, r, back, hruns, hstill⟩ :=
        halone hlt f (outcome_of_some hw)
      exact concursBefore_of_failing hg hg' hq hq' h hw hf hruns hstill
  · have hle := Nat.not_lt.mp hlt
    rw [Nat.min_eq_left (Nat.le_succ_of_le hle)] at h hq hq'
    exact concursBefore_of_le hg hg' hne hq hq' h hle

end Gathering

end Group

/-! ## Texts that are put together -/

/-- **Texts are put together alike** if what is expanded in them concurs. The
induction is on the parts. -/
theorem Session.concursBefore_splice {t : Nat}
    {expander expander' : Invocation → Expander}
    (hs : ∀ inv, (expander inv).Firm) (hs' : ∀ inv, (expander' inv).Firm)
    (ps : List Part) {now now' : Moment} {known known' : Option Moment}
    (hnow : now.Concurs t now') (hk : Moment.NotBefore t known)
    (hk' : Moment.NotBefore t known')
    (hq : Moment.NotBefore t (splice expander ps now known).cancels)
    (he : ∀ inv text asked heard,
      Pends expander inv text asked heard ps now known → asked.instant < t →
        (expander inv).ConcursBefore t (expander' inv) text asked heard) :
    Run.ConcursBefore t (splice expander ps now known)
      (splice expander' ps now' known') := by
  by_cases hlt : now.instant < t
  swap
  · have hle := Nat.not_lt.mp hlt
    exact Run.concursBefore_of_le (firm_splice hs ps now known)
      (firm_splice hs' ps now' known') hle (hnow.le_of_le hle)
  induction ps generalizing now now' known known' with
  | nil => exact Run.concursBefore_now hnow _
  | cons part rest ih =>
    cases part with
    | ready u =>
      exact (ih hnow hk hk' hq (fun inv text asked heard h =>
        he inv text asked heard (.ready h)) hlt).mapResult _
    | pending inv u =>
      rw [splice] at hq
      obtain ⟨hquiet, hrest⟩ := Run.notBefore_of_andThen hq
      have hr := he inv u now known .here hlt hk hquiet now' known'
        (hnow.eq_of_lt hlt) hk'
      rw [splice, splice]
      refine hr.andThen (fun _ m heard => (firm_splice hs rest m heard).withOutcome _)
        (fun _ m heard => (firm_splice hs' rest m heard).withOutcome _)
        fun v hv hend => ?_
      exact (ih hr.finish (Moment.notBefore_earliest?.mpr ⟨hk, hr.quiet⟩)
        (Moment.notBefore_earliest?.mpr ⟨hk', hr.quiet'⟩) (hrest v hv)
        (fun inv' text asked heard h =>
          he inv' text asked heard (.behind hv h)) hend).mapResult _

end Shortcode
