import Shortcode.Proofs.Evaluation
import Shortcode.Proofs.Looks
import Shortcode.Proofs.Reading

/-!
# Runs agree with evaluations

A run of an expansion and its evaluation are compared from the inside
out: a program, the call of a handler, the members of a group, the group
as one, the text that is put together from its results, and at last a
text at every depth. Each time the run *gives* what is evaluated
(`Run.Gives`): it ends with an outcome that agrees, and not later than
all the sleeping of the evaluation takes.

The bound on the time is what makes a limit harmless: a member of a group
waits for others that are running, and they all end within their own times,
so the sum of these bounds the wait, whatever the limit is.

When failures are the same is another matter. A group fails with the failure
of the first member that has failed when it looks, an evaluation tells the
one that stands first, and these differ as soon as one member takes a step
more than another one to fail. Not even handlers that never sleep do without
such steps: each text that they have expanded takes some. So it is left open
here which failures are to be told apart (`Failure.Congruence`). All of them
are the same if handlers do everything at once (`Session.Immediate`), since
then the members of a group have all ended before it looks for the first
time. In other cases it is enough to know that what the members of a group
fail with is not to be told apart.

For handlers this asks that nothing but their own requests decides on
them (`Program.Straight`, `Session.Straight`). One that goes on after a
failure of a nested expansion could tell which failure it was, and then
its result would depend on the order in which things happen.
-/

namespace Shortcode

/-! ## Agreement -/

/-- **Failures that are not told apart** are not told apart either when
they have escaped from an expansion, or are reported for an invocation. -/
structure Failure.Congruence (R : Failure → Failure → Prop) : Prop
    extends Equivalence R where
  escape : ∀ {f g}, R f g → R f.escape g.escape
  report : ∀ inv {f g}, R f g → R (Session.report inv f) (Session.report inv g)

theorem Failure.congruence_eq : Failure.Congruence Eq where
  toEquivalence := eq_equivalence
  escape h := congrArg _ h
  report _ _ _ h := congrArg _ h

theorem Failure.congruence_true : Failure.Congruence fun _ _ => True where
  refl _ := trivial
  symm _ := trivial
  trans _ _ := trivial
  escape _ := trivial
  report _ _ _ _ := trivial

/-- **Outcomes agree** when both are the same result, or both are failures
that are not told apart. An interruption agrees with nothing. -/
inductive Outcome.Agrees {α : Type} (R : Failure → Failure → Prop) :
    Outcome α → Outcome α → Prop
  | returned (a : α) : Agrees R (.returned a) (.returned a)
  | failed {f g : Failure} : R f g → Agrees R (.failed f) (.failed g)

namespace Outcome.Agrees

variable {α β : Type} {R : Failure → Failure → Prop} {o p : Outcome α}

theorem elim (h : Agrees R o p) :
    (∃ a, o = .returned a ∧ p = .returned a)
      ∨ ∃ f g, o = .failed f ∧ p = .failed g ∧ R f g := by
  cases h with
  | returned a => exact .inl ⟨a, rfl, rfl⟩
  | failed hf => exact .inr ⟨_, _, rfl, rfl, hf⟩

/-- Outcomes that agree with the same one are the same result, or both
are failures. -/
theorem both {R' : Failure → Failure → Prop} {q : Outcome α}
    (h : Agrees R o p) (h' : Agrees R' q p) :
    (∃ a, o = .returned a ∧ q = .returned a)
      ∨ ∃ f g, o = .failed f ∧ q = .failed g := by
  cases h with
  | returned a =>
    cases h' with
    | returned => exact .inl ⟨a, rfl, rfl⟩
  | failed _ =>
    cases h' with
    | failed _ => exact .inr ⟨_, _, rfl, rfl⟩

theorem bind (hR : Failure.Congruence R) (h : Agrees R o p)
    (f : α → Except Failure β) : Agrees R (o.bind f) (p.bind f) := by
  cases h with
  | returned a =>
    unfold Outcome.bind
    dsimp only
    cases f a with
    | ok b => exact .returned b
    | error e => exact .failed (hR.refl e)
  | failed hf => exact .failed hf

theorem mapFailure (h : Agrees R o p) {f : Failure → Failure}
    (hf : ∀ {x y}, R x y → R (f x) (f y)) :
    Agrees R (o.mapFailure f) (p.mapFailure f) := by
  cases h with
  | returned a => exact .returned a
  | failed h => exact .failed (hf h)

end Outcome.Agrees

/-- **A run gives an outcome** from a moment on, within some time: it ends
within that time, with an outcome that agrees, and asks for no
cancellation. -/
structure Run.Gives {α : Type} (R : Failure → Failure → Prop) (now : Moment)
    (time : Nat) (r : Run α) (o : Outcome α) : Prop where
  cancels : r.cancels = none
  outcome : r.outcome.Agrees R o
  le : now ≤ r.finish
  ge : r.finish.instant ≤ now.instant + time

/-- A run gives what is evaluated. -/
def Run.GivesEvaluated {α : Type} (R : Failure → Failure → Prop)
    (now : Moment) (r : Run α) (e : Evaluated α) : Prop :=
  r.Gives R now e.time e.outcome

namespace Run

variable {α β : Type} {R : Failure → Failure → Prop} {now : Moment}
  {time : Nat} {r : Run α} {o : Outcome α} {e : Evaluated α}

/-- A run that starts later gives the same within more time. -/
theorem Gives.shift {earlier : Moment} {total : Nat}
    (h : r.Gives R now time o) (hle : earlier ≤ now)
    (hge : now.instant + time ≤ earlier.instant + total) :
    r.Gives R earlier total o where
  cancels := h.cancels
  outcome := h.outcome
  le := Moment.le_trans hle h.le
  ge := Nat.le_trans h.ge hge

theorem gives_now (h : o.Agrees R o) :
    (Run.now now o).Gives R now time o where
  cancels := rfl
  outcome := h
  le := now.le_refl
  ge := Nat.le_add_right _ _

theorem Gives.mapResult (hR : Failure.Congruence R)
    (h : r.Gives R now time o) (f : α → Except Failure β) :
    (r.mapResult f).Gives R now time (o.bind f) where
  cancels := h.cancels
  outcome := h.outcome.bind hR f
  le := h.le
  ge := h.ge

theorem Gives.mapFailure (h : r.Gives R now time o) {f : Failure → Failure}
    (hf : ∀ {x y}, R x y → R (f x) (f y)) :
    (r.mapFailure f).Gives R now time (o.mapFailure f) where
  cancels := h.cancels
  outcome := h.outcome.mapFailure hf
  le := h.le
  ge := h.ge

/-- A run behind another one. -/
theorem Gives.after {r' : Run β} {p : Outcome β} {rest : Nat}
    (h : r.Gives R now time o) (h' : r'.Gives R r.finish rest p) :
    (r.after r').Gives R now (time + rest) p where
  cancels := by
    unfold Run.after
    dsimp only
    rw [h.cancels, h'.cancels]
    rfl
  outcome := h'.outcome
  le := Moment.le_trans h.le h'.le
  ge := by
    have := h.ge
    have := h'.ge
    show r'.finish.instant ≤ _
    omega

theorem Gives.behind {start : Moment} (h : r.Gives R now time o) :
    (r.behind start).Gives R now time o :=
  ⟨h.cancels, h.outcome, h.le, h.ge⟩

/-- A run that goes on gives what the evaluation that goes on does. -/
theorem GivesEvaluated.andThen {next : α → Moment → Option Moment → Run β}
    {f : α → Evaluated β} (h : r.GivesEvaluated R now e)
    (hn : ∀ a m, (next a m none).GivesEvaluated R m (f a)) :
    (r.andThen none next).GivesEvaluated R now (e.andThen f) := by
  unfold Run.andThen Evaluated.andThen Evaluated.continueWith
  rcases h.outcome.elim with ⟨a, hr, he⟩ | ⟨x, y, hr, he, hxy⟩
  · rw [hr, he, h.cancels]
    exact h.after (hn a r.finish)
  · rw [hr, he]
    exact ⟨h.cancels, .failed hxy, h.le, h.ge⟩

end Run

/-! ## Programs -/

/-- **A program that only its requests decide on**: it is not interrupted
and does not cancel, and it fails with the failure of an expansion it
asked for. -/
def Program.Straight : Program → Prop
  | .finish _ | .fail _ => True
  | .interrupt _ | .cancel _ => False
  | .sleep _ next => next.Straight
  | .expand _ next =>
    (∀ t, (next (.ok t)).Straight) ∧ ∀ f, next (.error f) = .fail f
  | .askCancelled next => ∀ b, (next b).Straight

/-- **A program that does everything at once**: it neither sleeps nor has
texts expanded, it is not interrupted, and it does not cancel. It may ask
whether the expansion was cancelled. -/
def Program.Immediate : Program → Prop
  | .finish _ | .fail _ => True
  | .askCancelled next => ∀ b, (next b).Immediate
  | .interrupt _ | .sleep _ _ | .expand _ _ | .cancel _ => False

namespace Program.Immediate

variable {p : Program}

theorem straight (hp : p.Immediate) : p.Straight := by
  induction p with
  | finish | fail => exact trivial
  | askCancelled next ih => exact fun b => ih b (hp b)
  | interrupt | sleep | expand | cancel => exact hp.elim

/-- A program that does everything at once ends when it begins. -/
theorem finish_run (hp : p.Immediate) (c : Bool) (e : Expander)
    (now : Moment) (cancels : Option Moment) :
    (p.run c e now cancels).finish = now := by
  induction p with
  | finish | fail => rfl
  | askCancelled next ih => exact ih _ (hp _)
  | interrupt | sleep | expand | cancel => exact hp.elim

end Program.Immediate

section

variable {R : Failure → Failure → Prop}

/-- **A program runs as it is evaluated**, if what it has expanded does. -/
theorem Program.gives_run (hR : Failure.Congruence R) {p : Program} (hp : p.Straight)
    {c : Bool} {expander : Expander}
    {expand : Option Text → Evaluated Text}
    (he : ∀ text now,
      (expander text now none).GivesEvaluated R now (expand text))
    (now : Moment) :
    (p.run c expander now none).GivesEvaluated R now
      (p.answer expand) := by
  induction p generalizing now with
  | finish output => exact Run.gives_now (.returned _)
  | fail f => exact Run.gives_now (.failed (hR.refl _))
  | interrupt | cancel => exact hp.elim
  | sleep time next ih =>
    have hm := now.instant_later time
    refine ((ih hp (now.later time)).shift (now.le_later time) ?_).behind
    rw [hm]
    exact Nat.le_of_eq (Nat.add_assoc ..)
  | askCancelled next ih => exact ih false (hp false) now
  | expand text next ih =>
    obtain ⟨hok, herror⟩ := hp
    have h := he text now
    rw [run, answer]
    unfold Evaluated.continueWith
    dsimp only
    rw [h.cancels]
    rcases h.outcome.elim with ⟨t, hr, hv⟩ | ⟨f, g, hr, hv, hfg⟩
    · rw [hr, hv]
      exact h.after (ih _ (hok t) _)
    · -- the program fails at once, with the failure it was told
      rw [hr, hv]
      dsimp only
      rw [herror, herror]
      refine ⟨?_, .failed hfg, h.le, h.ge⟩
      unfold Run.after
      dsimp only
      rw [h.cancels]
      rfl

/-! ## Invocations -/

/-- A handler that a name has is one of those that are bound. -/
theorem Registry.exists_of_resolve? {r : Registry} {name : Text} {h : Handler}
    (hr : r.resolve? name = some h) : ∃ b ∈ r.bindings, b.2 = h := by
  obtain ⟨b, hb, hbh⟩ := Option.map_eq_some_iff.mp hr
  exact ⟨b, List.mem_of_find?_eq_some hb, hbh⟩

/-- **A session in which nothing disturbs handlers**: their programs are
straight, and those that have a time limit do everything at once. -/
def Session.Straight (s : Session) : Prop :=
  ∀ name h, s.registry.resolve? name = some h →
    (∀ v, (h.program v).Straight)
      ∧ (h.concurrent = true → ∀ time, s.settings.timeLimit = some time →
          0 < time ∧ ∀ v, (h.program v).Immediate)

/-- **A session whose handlers do not wait.** -/
def Session.Immediate (s : Session) : Prop :=
  ∀ name h, s.registry.resolve? name = some h →
    h.concurrent = false ∧ ∀ v, (h.program v).Immediate

namespace Session

variable {s : Session} {depth : Nat}
  {expander : Invocation → Expander}
  {expand : Invocation → Option Text → Evaluated Text}

theorem Immediate.straight (hs : s.Immediate) : s.Straight := by
  intro name h hr
  obtain ⟨hc, hp⟩ := hs name h hr
  refine ⟨fun v => (hp v).straight, fun hc' => ?_⟩
  rw [hc] at hc'
  exact absurd hc' Bool.false_ne_true

/-- Invocations of handlers that do not wait end when they begin. -/
theorem Immediate.finish_member (hs : s.Immediate) (depth : Nat)
    (expander : Invocation → Expander) (called start : Moment)
    (inv : Invocation) (cancels : Option Moment) :
    (s.member depth expander called inv start cancels).finish = start := by
  have hinvoke : ∀ cleared, (s.invoke inv depth (expander inv) cleared start
      cancels).finish = start := by
    intro cleared
    unfold invoke
    cases hr : s.registry.resolve? inv.name with
    | none => rfl
    | some h =>
      obtain ⟨hc, hp⟩ := hs _ _ hr
      dsimp only
      rw [call_of_none (limit?_of_not_concurrent hc)]
      exact (hp _).finish_run _ _ _ _
  unfold member
  rw [Run.finish_behind]
  split
  · exact hinvoke called
  · split
    · rfl
    · exact hinvoke start

/-- What a handler asks for, of an expander: failures have escaped. -/
def escaping (e : Expander) : Expander := fun text now cancels =>
  (e text now cancels).mapFailure Failure.escape

/-- A failure escapes from a nested expansion the same way in a run
and in an evaluation. -/
theorem gives_escaping (hR : Failure.Congruence R) {inv : Invocation}
    (he : ∀ text now, (expander inv text now none).GivesEvaluated R now
      (expand inv text)) (text : Option Text) (now : Moment) :
    (escaping (expander inv) text now none).GivesEvaluated R now
      ((expand inv text).mapFailure Failure.escape) :=
  (he text now).mapFailure hR.escape

/-- A handler that has no time limit is run as its invocation is
executed. -/
theorem gives_enter (hR : Failure.Congruence R) (depth : Nat)
    {inv : Invocation} {h : Handler} (hp : ∀ v, (h.program v).Straight)
    (he : ∀ text now, (expander inv text now none).GivesEvaluated R now
      (expand inv text)) (cleared started entered : Moment)
    (hr : s.registry.resolve? inv.name = some h) :
    (s.enter h inv depth (escaping (expander inv)) cleared started entered
      none).GivesEvaluated R entered
        (s.behaviour.execute depth expand inv) := by
  unfold Behaviour.execute behaviour
  dsimp only
  rw [hr]
  have hrun := Program.gives_run (c := s.cancellable) hR
    (hp ⟨inv, depth, s.settings, s.metadata⟩) (gives_escaping hR he) entered
  have hcall := (hrun.mapResult hR Output.fragments).mapFailure
    (hR.report inv)
  exact ⟨hcall.cancels, hcall.outcome, hcall.le, hcall.ge⟩

/-- **A handler is run as its invocation is executed.** -/
theorem gives_invoke (hR : Failure.Congruence R) (hs : s.Straight)
    {inv : Invocation}
    (he : ∀ text now, (expander inv text now none).GivesEvaluated R now
      (expand inv text)) (cleared now : Moment) :
    (s.invoke inv depth (escaping (expander inv)) cleared now
      none).GivesEvaluated R now (s.behaviour.execute depth expand inv) := by
  cases hr : s.registry.resolve? inv.name with
  | none =>
    unfold invoke Behaviour.execute behaviour
    dsimp only
    rw [hr]
    exact Run.gives_now (.failed (hR.refl _))
  | some h =>
    obtain ⟨hp, hl⟩ := hs _ _ hr
    have henter (entered : Moment) :=
      gives_enter (s := s) hR depth hp he cleared now entered hr
    unfold invoke
    rw [hr]
    dsimp only
    cases hlimit : s.limit? h with
    | none =>
      rw [call_of_none hlimit]
      exact henter now
    | some time =>
      rw [call_of_some hlimit]
      obtain ⟨hc, htime⟩ := limit?_eq_some_iff.mp hlimit
      obtain ⟨hpos, himmediate⟩ := hl hc time htime
      -- what does everything at once ends in time
      have hfinish : (s.enter h inv depth (escaping (expander inv)) cleared now
          now.next none).finish = now.next :=
        (himmediate _).finish_run _ _ _ _
      have hrun := henter now.next
      unfold Run.waitedFor
      rw [dif_pos (by
        rw [hfinish]
        exact Nat.lt_add_of_pos_right hpos)]
      refine ⟨hrun.cancels, hrun.outcome, ?_, hrun.ge⟩
      exact Moment.le_skip_of_le (Moment.le_trans now.le_next hrun.le) _

/-- A member of a group looks whether the expansion was cancelled, and
here it never is. -/
theorem gives_member (hR : Failure.Congruence R) (hs : s.Straight)
    {inv : Invocation}
    (he : ∀ text now, (expander inv text now none).GivesEvaluated R now
      (expand inv text)) (called now : Moment) :
    (s.member depth (fun inv => escaping (expander inv)) called inv now
      none).GivesEvaluated R now (s.behaviour.execute depth expand inv) := by
  unfold member
  refine Run.Gives.behind (Run.Gives.behind ?_)
  split
  · exact gives_invoke hR hs he called now
  · exact gives_invoke hR hs he now now

end Session

end

/-! ## Groups -/

/-- The outcomes of several things, as one: the first that is no result,
or all results. -/
def Outcome.collect {α : Type} : List (Outcome α) → Outcome (List α)
  | [] => .returned []
  | .returned a :: rest => (collect rest).bind fun as => .ok (a :: as)
  | .failed f :: _ => .failed f
  | .interrupted m :: _ => .interrupted m

section

variable {α : Type} {o : Outcome α} {os : List (Outcome α)}

theorem Outcome.collect_cons_eq_returned {as : List α} :
    collect (o :: os) = .returned as
      ↔ ∃ a rest, o = .returned a ∧ collect os = .returned rest
        ∧ as = a :: rest := by
  cases o with
  | returned a =>
    cases h : collect os <;> simp [collect, bind, h, eq_comm]
  | failed f => simp [collect]
  | interrupted m => simp [collect]

theorem Outcome.collect_cons_eq_failed {f : Failure} :
    collect (o :: os) = .failed f
      ↔ o = .failed f ∨ ∃ a, o = .returned a ∧ collect os = .failed f := by
  cases o with
  | returned a =>
    cases h : collect os <;> simp [collect, bind, h]
  | failed g => simp [collect]
  | interrupted m => simp [collect]

end

namespace Group

variable {α : Type}

/-- A member starts no later than at the latest of the moments that
others end at. -/
theorem start_instant_le {limit bound : Nat} {first : Moment}
    {ends : List Moment} (hf : first.instant ≤ bound)
    (he : ∀ m ∈ ends, m.instant ≤ bound) :
    (start limit first ends).instant ≤ bound := by
  unfold start
  split
  · exact hf
  · split
    · exact hf
    · next free h =>
      split
      · exact hf
      · exact he free (mem_latestFirst.mp (List.mem_of_getElem? h))

/-- **The members of a group give what they are evaluated to**, within the
time of all of them, whatever the limit is: a member waits only for
others that are running. -/
theorem gives_members {R : Failure → Failure → Prop} (limit : Nat) (first : Moment)
    {ms : List (Member α)} {es : List (Evaluated α)}
    (h : List.Forall₂
      (fun m e => ∀ now, (m now none).GivesEvaluated R now e) ms es)
    (ends : List Moment) (spent : Nat)
    (he : ∀ m ∈ ends, m.instant ≤ first.instant + spent) :
    List.Forall₂
      (fun r e => r.Gives R first (spent + (es.map Evaluated.time).sum)
        e.outcome)
      (members limit first none ends ms) es := by
  induction h generalizing ends spent with
  | nil => exact .nil
  | @cons m e ms es hm _ ih =>
    have hle := first_le_start limit first ends
    have hge : (start limit first ends).instant ≤ first.instant + spent :=
      start_instant_le (Nat.le_add_right _ _) he
    have hr := hm (start limit first ends)
    have hr' : (m (start limit first ends) none).Gives R first
        (spent + e.time) e.outcome :=
      hr.shift hle (by omega)
    have hends : ∀ x ∈ (m (start limit first ends) none).finish :: ends,
        x.instant ≤ first.instant + (spent + e.time) := by
      intro x hx
      rcases List.mem_cons.mp hx with rfl | hx
      · exact hr'.ge
      · have := he x hx
        omega
    have hrest := ih _ _ hends
    rw [members, hr'.cancels, List.map_cons, List.sum_cons,
      ← Nat.add_assoc]
    refine .cons (hr'.shift first.le_refl (by omega)) hrest

/-- Members that end when they start start at once. -/
theorem finish_members (limit : Nat) (first : Moment)
    {ms : List (Member α)}
    (h : ∀ m ∈ ms, ∀ start known, (m start known).finish = start)
    (known : Option Moment) {ends : List Moment}
    (he : ∀ m ∈ ends, m = first) :
    ∀ r ∈ members limit first known ends ms, r.finish = first := by
  induction ms generalizing known ends with
  | nil => exact List.forall_mem_nil _
  | cons m ms ih =>
    obtain ⟨hm, hms⟩ := List.forall_mem_cons.mp h
    have hstart : start limit first ends = first := by
      unfold start
      split
      · rfl
      · split
        · rfl
        · next free hfree =>
          have hmem := mem_latestFirst.mp (List.mem_of_getElem? hfree)
          rw [he free hmem, if_pos first.le_refl]
    have hr := hm (start limit first ends) known
    rw [hstart] at hr
    rw [members, hstart]
    exact List.forall_mem_cons.mpr ⟨hr, ih hms _
      (List.forall_mem_cons.mpr ⟨hr, he⟩)⟩

section

variable {R : Failure → Failure → Prop} {first : Moment} {total : Nat}
  {runs : List (Run α)} {es : List (Evaluated α)}

/-- **The first failure of a group.** Either no member fails, in runs and in
evaluations; or some do in both, and the first of them agree. -/
theorem failures_of_gives
    (h : List.Forall₂ (fun r e => r.Gives R first total e.outcome)
      runs es) :
    ((∀ r ∈ runs, ∀ f, r.outcome ≠ .failed f)
        ∧ ∃ as, results runs = .returned as
          ∧ Outcome.collect (es.map Evaluated.outcome) = .returned as)
      ∨ ∃ g f, runs.findSome? (fun r => r.outcome.failure?) = some g
        ∧ Outcome.collect (es.map Evaluated.outcome) = .failed f
        ∧ R g f ∧ ∃ e ∈ es, e.outcome = .failed f := by
  induction h with
  | nil => exact .inl ⟨List.forall_mem_nil _, [], rfl, rfl⟩
  | @cons r e runs es hr _ ih =>
    rw [List.map_cons, List.findSome?_cons]
    rcases hr.outcome.elim with ⟨a, ho, hv⟩ | ⟨x, y, ho, hv, hxy⟩
    · rw [hv, Outcome.collect, ho]
      rcases ih with ⟨hn, as, hres, hc⟩ | ⟨g, f, hs, hc, hgf, e', he', hf⟩
      · refine .inl ⟨List.forall_mem_cons.mpr ⟨by simp [ho], hn⟩, a :: as, ?_,
          by rw [hc]; rfl⟩
        rw [results, ho]
        dsimp only
        rw [hres]
        rfl
      · exact .inr ⟨g, f, hs, by rw [hc]; rfl, hgf, e',
          List.mem_cons_of_mem e he', hf⟩
    · rw [hv, Outcome.collect, ho]
      exact .inr ⟨x, y, rfl, rfl, hxy, e, List.mem_cons_self, hv⟩

/-- Where all have ended, the first failure that a look shows is the first
of all. -/
theorem failed?_of_ended {xs : List (Placed α)} {look : Point}
    (h : ∀ x ∈ xs, x.finish ≤ look) :
    failed? xs look
      = (xs.map Placed.run).findSome? fun r => r.outcome.failure? := by
  unfold failed? found?
  rw [List.findSome?_map]
  induction xs with
  | nil => rfl
  | cons x xs ih =>
    obtain ⟨hx, hxs⟩ := List.forall_mem_cons.mp h
    rw [List.findSome?_cons, List.findSome?_cons, if_pos hx, ih hxs]
    rfl

/-- **A group gives what its members are evaluated to, as one**, if they all
end at once, or their failures are not to be told apart. -/
theorem gives_run (hR : Equivalence R) {g : Gathering α}
    (hc : g.cancels = none)
    (h : List.Forall₂
      (fun r e => r.Gives R g.called.next total e.outcome) g.runs es)
    (hsame : (∀ r ∈ g.runs, r.finish = g.called.next)
      ∨ ∀ e ∈ es, ∀ e' ∈ es, ∀ f f', e.outcome = .failed f →
        e'.outcome = .failed f' → R f f') :
    g.run.Gives R g.called total
      (Outcome.collect (es.map Evaluated.outcome)) := by
  have hgives : ∀ r ∈ g.runs, r.cancels = none ∧ g.called < r.finish
      ∧ r.finish.instant ≤ g.called.instant + total := by
    intro r hr
    obtain ⟨e, -, hre⟩ := exists_of_forall₂ h.flip r hr
    exact ⟨hre.cancels, Moment.next_le_iff.mp hre.le, hre.ge⟩
  have hrequest := Gathering.request_eq_none hc fun r hr => (hgives r hr).1
  have hcalled : g.Called := fun r hr => (hgives r hr).2.1
  have hle : g.called ≤ g.run.finish := g.called_le_finish
  have hinstant : g.run.finish.instant = g.look.moment.instant :=
    g.instant_course
  have hcancels := Gathering.cancels_run fun r hr => (hgives r hr).1
  have hreached : Moment.reached (g.request.map Group.Point.moment)
      g.look.moment = false := by
    rw [hrequest]
    rfl
  have hbound : ∀ e ∈ g.ends,
      e.moment.instant ≤ g.called.instant + total := fun e he => by
    obtain ⟨x, hx, rfl⟩ := Gathering.exists_member_of_mem_ends hrequest he
    exact (hgives _ (Gathering.run_mem hx)).2.2
  rcases Gathering.over_cases hcalled with
    ⟨hn, hw, hfails⟩ | ⟨-, hh⟩ | ⟨f, hs, hf⟩
  · -- all members have ended
    rcases failures_of_gives h with ⟨-, as, hres, hcollect⟩ | ⟨f, -, hf, -⟩
    · have houtcome : g.outcome = .returned as := by
        unfold Gathering.outcome
        rw [hn]
        dsimp only
        rw [hreached, hres]
        rfl
      refine ⟨hcancels, ?_, hle, ?_⟩
      · show Outcome.Agrees R g.outcome _
        rw [houtcome, hcollect]
        exact .returned as
      · rw [hinstant]
        rcases hw.soon with he | ⟨e, he, -, hlook⟩
        · rw [he]
          exact Nat.le_add_right _ _
        · rw [hlook]
          exact hbound e he
    · obtain ⟨r, hr, hrf⟩ := List.exists_of_findSome?_eq_some hf
      exact absurd (Outcome.failure?_eq_some_iff.mp hrf) (hfails r hr f)
  · rw [Gathering.hears_eq_false hrequest] at hh
    cases hh
  · have houtcome : g.outcome = .failed f := by
      unfold Gathering.outcome
      rw [hs]
    obtain ⟨e, he, hlook, -⟩ := hf.cause
    obtain ⟨r, hr, hrf, -⟩ := hf.exists_run
    rcases failures_of_gives h with
      ⟨hno, -⟩ | ⟨f', f'', hs', hcollect, hff, e'', he'', hef⟩
    · exact absurd hrf (hno r hr f)
    · refine ⟨hcancels, ?_, hle, ?_⟩
      · show Outcome.Agrees R g.outcome _
        rw [houtcome, hcollect]
        refine .failed ?_
        rcases hsame with hprompt | hsame
        · -- all members end at once, and so by the first look
          have hended : ∀ x ∈ g.members, x.finish ≤ g.look := by
            intro x hx
            obtain ⟨y, hy, rfl⟩ :=
              Gathering.exists_member_of_mem_ends hrequest he
            refine .inl ?_
            rw [hlook]
            have hxy : x.finish.moment = y.finish.moment :=
              (hprompt _ (Gathering.run_mem hx)).trans
                (hprompt _ (Gathering.run_mem hy)).symm
            rw [hxy]
            exact y.finish.lt_noticed
          have hfailed := hf.failed
          rw [failed?_of_ended hended, Gathering.map_run_members, hs']
            at hfailed
          rw [← Option.some.inj hfailed]
          exact hff
        · obtain ⟨e', he', hre⟩ := exists_of_forall₂ h.flip r hr
          rcases hre.outcome.elim with ⟨a, ho, -⟩ | ⟨x, y, ho, hv, hxy⟩
          · rw [hrf] at ho
            cases ho
          · rw [hrf] at ho
            cases ho
            exact hR.trans hxy (hsame e' he' e'' he'' y f'' hv hef)
      · rw [hinstant, hlook]
        exact hbound e he

end

end Group

/-! ## The invocations of a text -/

/-- In order of their positions, the failure of the invocation that
starts first is the first one. -/
theorem earliest?_eq_head? {l : List (Invocation × Failure)}
    (h : l.Pairwise fun a b => a.1.start ≤ b.1.start) :
    earliest? l = l.head? := by
  induction l with
  | nil => rfl
  | cons a l ih =>
    obtain ⟨ha, hl⟩ := List.pairwise_cons.mp h
    rw [earliest?, ih hl]
    cases l with
    | nil => rfl
    | cons b l =>
      have hab : ¬b.1.start < a.1.start :=
        Nat.not_lt.mpr (ha b (List.mem_cons_self ..))
      show some (if b.1.start < a.1.start then b else a) = some a
      rw [if_neg hab]

namespace Behaviour

variable {execute : Invocation → Evaluated (List Fragment)}
  {invs : List Invocation}

theorem failures_cons_returned {inv : Invocation} {fs : List Fragment}
    (h : (execute inv).outcome = .returned fs) :
    failures execute (inv :: invs) = failures execute invs := by
  unfold failures
  rw [List.filterMap_cons, h]
  rfl

/-- Where all invocations have results, none has failed. -/
theorem failures_of_collect_returned {produced : List (List Fragment)}
    (h : Outcome.collect (invs.map fun inv => (execute inv).outcome)
      = .returned produced) :
    failures execute invs = []
      ∧ List.Forall₂ (fun inv fs => (execute inv).outcome = .returned fs)
          invs produced := by
  induction invs generalizing produced with
  | nil =>
    obtain rfl := Outcome.returned.inj h
    exact ⟨rfl, .nil⟩
  | cons inv invs ih =>
    obtain ⟨fs, rest, ho, hc, rfl⟩ := Outcome.collect_cons_eq_returned.mp h
    obtain ⟨hn, hf⟩ := ih hc
    exact ⟨(failures_cons_returned ho).trans hn, .cons ho hf⟩

/-- Where the invocations give a failure, it is the first one of them. -/
theorem failures_of_collect_failed {f : Failure}
    (h : Outcome.collect (invs.map fun inv => (execute inv).outcome)
      = .failed f) : ∃ inv rest, failures execute invs = (inv, f) :: rest := by
  induction invs with
  | nil => simp [Outcome.collect] at h
  | cons inv invs ih =>
    rcases Outcome.collect_cons_eq_failed.mp h with ho | ⟨fs, ho, hc⟩
    · dsimp only at ho
      refine ⟨inv, failures execute invs, ?_⟩
      unfold failures
      rw [List.filterMap_cons, ho]
      rfl
    · rw [failures_cons_returned ho]
      exact ih hc

/-- Failures come in the order of the invocations. -/
theorem pairwise_failures
    (h : invs.Pairwise fun a b => a.start ≤ b.start) :
    (failures execute invs).Pairwise fun a b => a.1.start ≤ b.1.start := by
  refine h.filterMap _ fun a b hab x hx y hy => ?_
  obtain ⟨f, _, rfl⟩ := Option.map_eq_some_iff.mp hx
  obtain ⟨g, _, rfl⟩ := Option.map_eq_some_iff.mp hy
  exact hab

end Behaviour

/-- **A behaviour whose invocations fail alike**: which of them fails is not
to be told apart. -/
def Behaviour.Confuses (b : Behaviour) (R : Failure → Failure → Prop) :
    Prop :=
  ∀ depth expand inv inv' f f',
    (b.execute depth expand inv).outcome = .failed f →
    (b.execute depth expand inv').outcome = .failed f' → R f f'

namespace Session

variable {R : Failure → Failure → Prop} {s : Session} {depth : Nat}
  {expander : Invocation → Expander}
  {expand : Invocation → Option Text → Evaluated Text}

/-- **The invocations of a text are run as they are executed.** -/
theorem gives_invokeAll (hR : Failure.Congruence R) (hs : s.Straight)
    (hi : s.Immediate ∨ s.behaviour.Confuses R)
    (he : ∀ inv text now, (expander inv text now none).GivesEvaluated R now
      (expand inv text)) (invs : List Invocation) (now : Moment) :
    (s.invokeAll invs depth (fun inv => escaping (expander inv)) now
      none).Gives R now
        (Behaviour.duration (s.behaviour.execute depth expand) invs)
        (Outcome.collect (invs.map fun inv =>
          (s.behaviour.execute depth expand inv).outcome)) := by
  let execute := s.behaviour.execute depth expand
  cases invs with
  | nil => exact Run.gives_now (.returned [])
  | cons first rest =>
    have hm : List.Forall₂
        (fun m e => ∀ now, (m now none).GivesEvaluated R now e)
        ((first :: rest).map
          (s.member depth (fun inv => escaping (expander inv)) now))
        ((first :: rest).map execute) := by
      rw [List.forall₂_map_left_iff, List.forall₂_map_right_iff,
        List.forall₂_same]
      exact fun inv _ start => gives_member hR hs (he inv) now start
    have hruns := Group.gives_members s.settings.maxConcurrency now.next hm
      [] 0 (List.forall_mem_nil _)
    rw [Nat.zero_add] at hruns
    have hfinish (hi : s.Immediate) :=
      Group.finish_members s.settings.maxConcurrency now.next
        (List.forall_mem_map.mpr fun inv (_ : inv ∈ first :: rest)
          start known => hi.finish_member depth
            (fun inv => escaping (expander inv)) now start inv known)
        none (List.forall_mem_nil _)
    have hg := Group.gives_run hR.toEquivalence
      (g := ⟨s.settings.maxConcurrency, s.cancellable, now,
        cancelledAt first.offset, none, _⟩) rfl hruns
      (hi.imp hfinish fun hi => by
          rintro e he e' he' f f' hf hf'
          obtain ⟨inv, -, rfl⟩ := List.mem_map.mp he
          obtain ⟨inv', -, rfl⟩ := List.mem_map.mp he'
          exact hi depth expand inv inv' f f' hf hf')
    rw [List.map_map, List.map_map] at hg
    exact hg

/-- The parts that an invocation gives rise to are put together as its
fragments are evaluated. -/
theorem gives_splice_append (hR : Failure.Congruence R) {inv : Invocation}
    (he : ∀ text now, (expander inv text now none).GivesEvaluated R now
      (expand inv text)) {ps : List Part}
    {others : Evaluated (List (Option Text))}
    (hps : ∀ now, (splice expander ps now none).GivesEvaluated R now others)
    (fs : List Fragment) (now : Moment) :
    (splice expander (fs.map (partOf inv) ++ ps) now none).GivesEvaluated R now
      (Behaviour.fragmentTexts (expand inv) others fs) := by
  induction fs generalizing now with
  | nil => exact hps now
  | cons f fs ih =>
    rw [List.map_cons, List.cons_append, Behaviour.fragmentTexts, partOf]
    by_cases hf : f.rescan = true
    · rw [if_pos hf, if_pos hf, splice]
      exact (he f.text now).andThen fun t m => (ih m).mapResult hR _
    · rw [if_neg hf, if_neg hf, splice]
      exact (ih now).mapResult hR _

/-- **A text is put together as it is evaluated**, when each invocation
has the fragments it was executed to. -/
theorem gives_splice (hR : Failure.Congruence R)
    (he : ∀ inv text now, (expander inv text now none).GivesEvaluated R now
      (expand inv text))
    {result : Invocation → Outcome (List Fragment)} {segments : List Segment}
    {produced : List (List Fragment)}
    (h : List.Forall₂ (fun inv fs => result inv = .returned fs)
      (Segment.invocations segments) produced) (now : Moment) :
    (splice expander (parts segments produced) now none).GivesEvaluated R now
      (Behaviour.texts result expand segments) := by
  induction segments generalizing produced now with
  | nil => exact Run.gives_now (.returned [])
  | cons seg rest ih =>
    cases seg with
    | literal t n => exact (ih h now).mapResult hR _
    | invocation inv =>
      cases h with
      | cons hr hrest =>
        rw [parts, Behaviour.texts, hr, Evaluated.andThen_of_returned]
        exact gives_splice_append hR (he inv) (ih hrest) _ now

/-- **Segments are expanded as they are evaluated**, when they come in
the order of their positions. -/
theorem gives_expandSegments (hR : Failure.Congruence R) (hs : s.Straight)
    (hi : s.Immediate ∨ s.behaviour.Confuses R)
    (he : ∀ inv text now, (expander inv text now none).GivesEvaluated R now
      (expand inv text)) {segments : List Segment}
    (ho : (Segment.invocations segments).Pairwise
      fun a b => a.start ≤ b.start) (now : Moment) :
    (s.expandSegments expander depth segments now none).GivesEvaluated R now
      (s.behaviour.evaluateSegments expand depth segments) := by
  let group := s.invokeAll (Segment.invocations segments) depth
    (fun inv => escaping (expander inv)) now none
  have hg : group.Gives R now _ _ :=
    gives_invokeAll hR hs hi he (Segment.invocations segments) now
  show (group.andThen none fun produced now cancels =>
    (splice expander (parts segments produced) now cancels).mapResult
      concat).GivesEvaluated R now _
  unfold Run.andThen Behaviour.evaluateSegments
  dsimp only
  rw [earliest?_eq_head? (Behaviour.pairwise_failures ho)]
  rcases hg.outcome.elim with ⟨produced, hr, hc⟩ | ⟨f, g, hr, hc, hfg⟩
  · obtain ⟨hn, hf⟩ := Behaviour.failures_of_collect_returned hc
    have hsplice := (gives_splice hR he hf group.finish).mapResult hR concat
    rw [hr, hn, hg.cancels]
    exact hg.after hsplice
  · obtain ⟨inv, rest, hn⟩ := Behaviour.failures_of_collect_failed hc
    rw [hr, hn]
    exact ⟨hg.cancels, .failed hfg, hg.le, hg.ge⟩

/-- **A text is expanded as it is evaluated**, at every depth. -/
theorem gives_expandFrom (hR : Failure.Congruence R) (hs : s.Straight)
    (hi : s.Immediate ∨ s.behaviour.Confuses R)
    {levels : Nat}
    (hl : levels + depth = s.settings.maxDepth + 1) (trigger : Option Text)
    (origin : Int) (text : Option Text) (now : Moment) :
    (s.expandFrom levels depth trigger origin text now none).GivesEvaluated R now
      (s.behaviour.evaluate depth trigger origin text) := by
  refine s.expandFrom_induction
    (P := fun levels depth trigger origin text now cancels r =>
      cancels = none → levels + depth = s.settings.maxDepth + 1 →
        r.GivesEvaluated R now (s.behaviour.evaluate depth trigger origin text))
    ?_ ?_ ?_ ?_ ?_ ?_ levels depth trigger origin text now none rfl hl
  · rintro levels depth trigger origin text now cancels hc rfl -
    exact absurd hc Bool.false_ne_true
  · intro levels depth trigger origin now cancels _ _ _
    rw [Behaviour.evaluate_none]
    exact Run.gives_now (.failed (hR.refl _))
  · intro levels depth trigger origin t now cancels _ ht _ _
    rw [Behaviour.evaluate_plain ht]
    exact Run.gives_now (.returned t)
  · intro depth trigger origin t now cancels _ ht _ hl
    have hd : s.settings.maxDepth < depth := by omega
    rw [Behaviour.evaluate_deep ht hd]
    exact ⟨rfl, .failed (hR.refl _), now.le_refl, Nat.le_add_right _ _⟩
  · intro levels depth trigger origin t now cancels e _ ht hp _ hl
    have hd : depth ≤ s.settings.maxDepth := by omega
    rw [Behaviour.evaluate_error ht hd hp]
    exact Run.gives_now (.failed (hR.refl _))
  · rintro levels depth trigger origin t now cancels segments - ht hp ih rfl hl
    have hd : depth ≤ s.settings.maxDepth := by omega
    rw [Behaviour.evaluate_ok ht hd hp]
    exact gives_expandSegments hR hs hi
      (fun inv text now => ih inv text now none rfl (by omega))
      (Segment.pairwise_start hp) now

/-- **A document is expanded as it is evaluated.** -/
theorem gives_expand (hR : Failure.Congruence R) (hs : s.Straight)
    (hi : s.Immediate ∨ s.behaviour.Confuses R)
    (hd : s.settings.delimiters.opening ≠ []) (text : Text) (now : Moment) :
    (s.expand text now none).GivesEvaluated R now
      (s.behaviour.evaluate 0 none 0 (some text)) := by
  unfold expand
  split
  · next h =>
    -- an empty text has no opening delimiter, so it evaluates to itself
    have ht : Text.has s.settings.delimiters.opening text = false := by
      rw [List.isEmpty_iff.mp h]
      exact Text.has_nil hd
    rw [Behaviour.evaluate_plain ht]
    exact Run.gives_now (.returned text)
  · have hl : s.settings.maxDepth + 1 + 0 = s.settings.maxDepth + 1 := rfl
    exact gives_expandFrom hR hs hi hl none 0 (some text) now

end Session

end Shortcode
