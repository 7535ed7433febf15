import Shortcode.Proofs.Descent
import Shortcode.Proofs.Groups

/-!
# What success consists of

An expansion succeeds if everything it asks for does. Then it does not
matter which of its handlers run side by side and which one behind the
other, or how long they take: each of them is called, with the same
invocation and at the same depth, and the texts they give rise to are put
in their places.

So success has a meaning of its own: nothing at all if anything fails, and
otherwise a text and the calls that were made for it, without their order
(`Success`). It is made of the success of the parts, one segment after the
other, and what a segment's invocation leaves to be expanded again follows
it at once (`Session.success`). In a run it follows when the whole group is
over. Since the order of calls is not told, both come to the same
(`Session.all_andThen_joined`).

This holds where handlers do not return once an expansion they asked for
has failed (`Program.Unforgiving`), are not stopped by a time limit, and
nobody cancels the expansion (`Session.succeeds_expand`). Which failure is
told of does not matter here, so it does not matter either when a group looks
at its members: if one has failed there is no success, and otherwise the
group has waited for all of them.
-/

namespace Shortcode

/-! ## Successes -/

/-- A call of a handler without its moments: what it was called for, and
how deep. -/
abbrev Visit : Type := Invocation × Nat

/-- The call without its moments. -/
def Call.visit (c : Call) : Visit := (c.invocation, c.depth)

/-- **A success**, if there is one: a result, and the calls that were made
for it. -/
abbrev Success (α : Type) : Type := Option (α × Multiset Visit)

namespace Success

variable {α β γ : Type}

/-- A result for which no calls are made. -/
def pure (a : α) : Success α := some (a, 0)

/-- A success that goes on with another one. -/
def andThen (x : Success α) (f : α → Success β) : Success β :=
  x.bind fun p => (f p.1).map fun q => (q.1, p.2 + q.2)

/-- A success with its result replaced; a result that cannot be used is
none. -/
def mapResult (x : Success α) (f : α → Except Failure β) : Success β :=
  x.andThen fun a => (f a).toOption.elim none pure

theorem none_andThen (f : α → Success β) : andThen none f = none := rfl

theorem pure_andThen (a : α) (f : α → Success β) :
    (pure a).andThen f = f a := by
  unfold andThen pure
  cases h : f a with
  | none => simp [h]
  | some q => simp [h]

theorem andThen_pure (x : Success α) : x.andThen pure = x := by
  cases x <;> simp [andThen, pure]

theorem andThen_none (x : Success α) :
    (x.andThen fun _ => (none : Success β)) = none := by
  cases x <;> rfl

theorem andThen_assoc (x : Success α) (f : α → Success β)
    (g : β → Success γ) :
    (x.andThen f).andThen g = x.andThen fun a => (f a).andThen g := by
  cases x with
  | none => rfl
  | some p =>
    cases hf : f p.1 with
    | none => simp [andThen, hf]
    | some q =>
      cases hg : g q.1 with
      | none => simp [andThen, hf, hg]
      | some r => simp [andThen, hf, hg, add_assoc]

theorem mapResult_pure {f : α → Except Failure β} {a : α} {b : β}
    (h : f a = .ok b) : (pure a).mapResult f = pure b := by
  rw [mapResult, pure_andThen, h]
  rfl

theorem mapResult_andThen (x : Success α) (f : α → Success β)
    (g : β → Except Failure γ) :
    (x.andThen f).mapResult g = x.andThen fun a => (f a).mapResult g :=
  andThen_assoc x f _

/-- **The order of what does not depend on each other does not matter.** -/
theorem andThen_comm (x : Success α) (y : Success β)
    (f : α → β → Success γ) :
    (x.andThen fun a => y.andThen fun b => f a b)
      = y.andThen fun b => x.andThen fun a => f a b := by
  cases x with
  | none => exact (andThen_none y).symm
  | some p =>
    cases y with
    | none => rfl
    | some q =>
      cases hf : f p.1 q.1 with
      | none => simp [andThen, hf]
      | some r => simp [andThen, hf, add_left_comm]

end Success

/-! ## Runs that tell a success -/

/-- **A run that tells a success**: it returns the result, or nothing if
there is none; what it returns it has made these calls for; and nobody asks
for a cancellation. -/
structure Run.Succeeds {α : Type} (r : Run α) (x : Success α) : Prop where
  cancels : r.cancels = none
  result : r.outcome.result? = x.map Prod.fst
  calls : ∀ p, x = some p → (r.calls.map Call.visit : Multiset Visit) = p.2

namespace Run

variable {α β : Type} {r : Run α} {x : Success α}

/-- A run that tells a success returns its result, or there is none. -/
theorem Succeeds.cases (h : r.Succeeds x) :
    (∃ a, r.outcome = .returned a
        ∧ x = some (a, (r.calls.map Call.visit : Multiset Visit)))
      ∨ r.outcome.result? = none ∧ x = none := by
  cases x with
  | none => exact .inr ⟨h.result, rfl⟩
  | some p =>
    refine .inl ⟨p.1, Outcome.result?_eq_some_iff.mp h.result, ?_⟩
    rw [h.calls p rfl]

/-- What a run returns that tells a success, and the calls it makes. -/
theorem Succeeds.returned {a : α} {visits : Multiset Visit}
    (h : r.Succeeds (some (a, visits))) :
    r.outcome = .returned a
      ∧ (r.calls.map Call.visit : Multiset Visit) = visits :=
  ⟨Outcome.result?_eq_some_iff.mp h.result, h.calls _ rfl⟩

/-- A run that returns nothing tells that there is no success. -/
theorem succeeds_none (hc : r.cancels = none)
    (ho : r.outcome.result? = none) : r.Succeeds none :=
  ⟨hc, ho, fun _ h => by simp at h⟩

theorem succeeds_now (m : Moment) (a : α) :
    (Run.now m (.returned a)).Succeeds (Success.pure a) where
  cancels := rfl
  result := rfl
  calls := fun p hp => by
    obtain rfl := Option.some.inj hp
    rfl

theorem succeeds_failed (m : Moment) (f : Failure) :
    (Run.now m (.failed f) : Run α).Succeeds none :=
  succeeds_none rfl rfl

/-- There is no success if there is none of what follows. -/
theorem Succeeds.after_none {r' : Run β} (h : r.Succeeds x)
    (h' : r'.Succeeds (none : Success β)) : (r.after r').Succeeds none := by
  refine succeeds_none ?_ h'.result
  show Moment.earliest? r.cancels r'.cancels = none
  rw [h.cancels, h'.cancels]
  rfl

/-- What follows a run that has returned. -/
theorem Succeeds.after {r' : Run β} {a : α} (h : r.Succeeds x)
    (ho : r.outcome = .returned a) {f : α → Success β}
    (h' : r'.Succeeds (f a)) : (r.after r').Succeeds (x.andThen f) := by
  have hc : (r.after r').cancels = none := by
    show Moment.earliest? r.cancels r'.cancels = none
    rw [h.cancels, h'.cancels]
    rfl
  rcases h.cases with ⟨b, hb, rfl⟩ | ⟨hn, -⟩
  · obtain rfl := Outcome.returned.inj (hb.symm.trans ho)
    rcases h'.cases with ⟨c, hc', hf⟩ | ⟨hn, hf⟩
    · refine ⟨hc, ?_, fun p hp => ?_⟩
      · show r'.outcome.result? = _
        simp [Success.andThen, hf, hc', Outcome.result?]
      · obtain rfl : (c, _) = p := by simpa [Success.andThen, hf] using hp
        show (((r.calls ++ r'.calls).map Call.visit : List Visit)
          : Multiset Visit) = _
        rw [List.map_append]
    · simp only [Success.andThen, Option.bind_some, hf, Option.map_none]
      exact succeeds_none hc hn
  · rw [ho] at hn
    simp [Outcome.result?] at hn

/-- What ends like a run that has not returned. -/
theorem Succeeds.withOutcome (h : r.Succeeds x) {o : Outcome β}
    (hr : r.outcome.result? = none) (ho : o.result? = none)
    (f : α → Success β) : (r.withOutcome o).Succeeds (x.andThen f) := by
  rcases h.cases with ⟨a, ha, -⟩ | ⟨-, rfl⟩
  · rw [ha] at hr
    simp [Outcome.result?] at hr
  · exact succeeds_none h.cancels ho

/-- **A run that goes on with another one** tells what they tell together. -/
theorem Succeeds.andThen (h : r.Succeeds x)
    {next : α → Moment → Option Moment → Run β} {f : α → Success β}
    (hn : ∀ a m, (next a m none).Succeeds (f a)) :
    (r.andThen none next).Succeeds (x.andThen f) := by
  unfold Run.andThen
  rw [h.cancels]
  split
  · next a ho => exact h.after ho (hn a r.finish)
  · next ho => exact h.withOutcome (by rw [ho]; rfl) rfl f
  · next ho => exact h.withOutcome (by rw [ho]; rfl) rfl f

theorem Succeeds.mapResult (h : r.Succeeds x) (f : α → Except Failure β) :
    (r.mapResult f).Succeeds (x.mapResult f) := by
  rcases h.cases with ⟨a, ha, rfl⟩ | ⟨hn, rfl⟩
  · cases hf : f a with
    | ok b =>
      refine ⟨h.cancels, ?_, fun p hp => ?_⟩
      · show (r.outcome.bind f).result? = _
        simp [ha, Outcome.bind, hf, Success.mapResult, Success.andThen,
          Success.pure, Except.toOption, Outcome.result?]
      · obtain rfl : (b, _) = p := by
          simpa [Success.mapResult, Success.andThen, Success.pure, hf,
            Except.toOption] using hp
        rfl
    | error e =>
      have hnone : Success.mapResult
          (some (a, (r.calls.map Call.visit : Multiset Visit))) f = none := by
        simp [Success.mapResult, Success.andThen, hf, Except.toOption]
      rw [hnone]
      refine succeeds_none h.cancels ?_
      show (r.outcome.bind f).result? = none
      simp [ha, Outcome.bind, hf, Outcome.result?]
  · refine succeeds_none h.cancels ?_
    show (r.outcome.bind f).result? = none
    cases ho : r.outcome with
    | returned a =>
      rw [ho] at hn
      simp [Outcome.result?] at hn
    | failed | interrupted => rfl

/-- There is no success where a run fails. -/
theorem Succeeds.none_of_failed (h : r.Succeeds x) {f : Failure}
    (ho : r.outcome = .failed f) : x = none := by
  rcases h.cases with ⟨a, ha, -⟩ | ⟨-, hx⟩
  · rw [ha] at ho
    simp at ho
  · exact hx

/-- A task that waits before it begins succeeds alike. -/
theorem Succeeds.behind (h : r.Succeeds x) (start : Moment) :
    (r.behind start).Succeeds x :=
  ⟨h.cancels, h.result, h.calls⟩

/-- So does one that is done by a task of its own, and in time. -/
theorem Succeeds.waitedFor (h : r.Succeeds x) {now : Moment} {time : Nat}
    (hlt : r.finish.instant < now.instant + time) (late : Outcome α) :
    (r.waitedFor now time late).Succeeds x := by
  unfold Run.waitedFor
  rw [dif_pos hlt]
  exact ⟨h.cancels, h.result, h.calls⟩

theorem Succeeds.mapFailure (h : r.Succeeds x) (f : Failure → Failure) :
    (r.mapFailure f).Succeeds x where
  cancels := h.cancels
  result := by
    rw [← h.result]
    show (r.outcome.mapFailure f).result? = _
    cases r.outcome <;> rfl
  calls := h.calls

end Run

/-! ## Programs and handlers -/

/-- **A program that never returns**, whatever its requests are answered. -/
def Program.Fruitless : Program → Prop
  | .finish _ => False
  | .fail _ | .interrupt _ => True
  | .sleep _ next | .cancel next => next.Fruitless
  | .expand _ next => ∀ answer, (next answer).Fruitless
  | .askCancelled next => ∀ b, (next b).Fruitless

/-- **A program that does not get over a failure**: it does not return
once an expansion it asked for has failed. -/
def Program.Unforgiving : Program → Prop
  | .finish _ | .fail _ | .interrupt _ => True
  | .sleep _ next | .cancel next => next.Unforgiving
  | .expand _ next =>
    (∀ t, (next (.ok t)).Unforgiving) ∧ ∀ f, (next (.error f)).Fruitless
  | .askCancelled next => ∀ b, (next b).Unforgiving

/-- The success of a program, by the success of what it has expanded. It
is told that the expansion was not cancelled. -/
def Program.success (expand : Option Text → Success Text) :
    Program → Success Output
  | .finish output => .pure output
  | .fail _ | .interrupt _ => none
  | .sleep _ next | .cancel next => next.success expand
  | .expand text next =>
    (expand text).andThen fun t => (next (.ok t)).success expand
  | .askCancelled next => (next false).success expand

/-- An expander whose runs tell these successes. -/
def Expander.Succeeds (e : Expander) (expand : Option Text → Success Text) :
    Prop :=
  ∀ text now, (e text now none).Succeeds (expand text)

section

variable {e : Expander} {expand : Option Text → Success Text}

theorem Expander.Succeeds.escaping (he : e.Succeeds expand) :
    (Session.escaping e).Succeeds expand :=
  fun text now => (he text now).mapFailure _

theorem Program.succeeds_of_fruitless {p : Program} {b : Bool}
    (hb : b = false ∨ p.Uncancelling) (hp : p.Fruitless)
    (he : e.Succeeds expand) (now : Moment) :
    (p.run b e now none).Succeeds none := by
  induction p generalizing now with
  | finish => exact hp.elim
  | fail | interrupt => exact Run.succeeds_none rfl rfl
  | sleep time next ih => exact (ih hb hp _).behind _
  | cancel next ih =>
    obtain rfl := hb.resolve_right id
    exact ih (.inl rfl) hp now
  | askCancelled next ih => exact ih _ (hb.imp_right fun h => h _) (hp _) now
  | expand text next ih =>
    have h := he text now
    rw [run, h.cancels]
    split
    · exact h.after_none (ih _ (hb.imp_right fun h => h _) (hp _) _)
    · exact h.after_none (ih _ (hb.imp_right fun h => h _) (hp _) _)
    · exact Run.succeeds_none h.cancels rfl

/-- **The run of a program tells its success**, if it does not get over a
failure. -/
theorem Program.succeeds_run {p : Program} {b : Bool}
    (hb : b = false ∨ p.Uncancelling) (hp : p.Unforgiving)
    (he : e.Succeeds expand) (now : Moment) :
    (p.run b e now none).Succeeds (p.success expand) := by
  induction p generalizing now with
  | finish output => exact Run.succeeds_now now output
  | fail | interrupt => exact Run.succeeds_none rfl rfl
  | sleep time next ih => exact (ih hb hp _).behind _
  | cancel next ih =>
    obtain rfl := hb.resolve_right id
    exact ih (.inl rfl) hp now
  | askCancelled next ih => exact ih _ (hb.imp_right fun h => h _) (hp _) now
  | expand text next ih =>
    have h := he text now
    rw [run, h.cancels, success]
    split
    · next t ho =>
      exact h.after ho (ih _ (hb.imp_right fun h => h _) (hp.1 t) _)
    · next f ho =>
      rw [h.none_of_failed ho]
      exact h.after_none
        (succeeds_of_fruitless (hb.imp_right fun h => h _) (hp.2 f) he _)
    · next ho => exact h.withOutcome (by rw [ho]; rfl) rfl _

end

/-! ## Groups -/

namespace Success

variable {α : Type}

/-- Several successes, one after the other. -/
def all : List (Success α) → Success (List α)
  | [] => pure []
  | x :: xs => x.andThen fun a => (all xs).andThen fun as => pure (a :: as)

end Success

namespace Group

variable {α : Type} {runs : List (Run α)} {xs : List (Success α)}

/-- Either all members return and there is a success, or there is none. -/
theorem all_cases (h : List.Forall₂ Run.Succeeds runs xs) :
    (∃ as, results runs = .returned as
        ∧ Success.all xs = some (as, ((runs.flatMap Run.calls).map Call.visit
            : Multiset Visit)))
      ∨ (results runs).result? = none ∧ Success.all xs = none := by
  induction h with
  | nil => exact .inl ⟨[], rfl, rfl⟩
  | @cons r x rest xs hr _ ih =>
    rcases hr.cases with ⟨a, ha, rfl⟩ | ⟨hn, rfl⟩
    · rw [results, ha]
      dsimp only
      rcases ih with ⟨as, has, hx⟩ | ⟨hn, hx⟩
      · refine .inl ⟨a :: as, by rw [has]; rfl, ?_⟩
        simp [Success.all, hx, Success.andThen, Success.pure]
      · refine .inr ⟨?_, by simp [Success.all, hx, Success.andThen]⟩
        cases ho : results rest with
        | returned as =>
          rw [ho] at hn
          simp [Outcome.result?] at hn
        | failed | interrupted => rfl
    · refine .inr ⟨?_, rfl⟩
      rw [results]
      split
      · rfl
      · rfl
      · next a ha =>
        rw [ha] at hn
        simp [Outcome.result?] at hn

/-- **A group tells the successes of its members together.** -/
theorem Gathering.succeeds_run {g : Gathering α} (hg : g.Called)
    (hc : g.cancels = none) (h : List.Forall₂ Run.Succeeds g.runs xs) :
    g.run.Succeeds (Success.all xs) := by
  have hcancels : ∀ r ∈ g.runs, r.cancels = none := fun r hr => by
    obtain ⟨x, -, hx⟩ := exists_of_forall₂ h.flip r hr
    exact hx.cancels
  have hrun : g.run.cancels = none := cancels_run hcancels
  rcases all_cases h with ⟨as, has, hx⟩ | ⟨hn, hx⟩
  · -- no member fails, so the group waits for all of them
    have hsettles := settles hg (request_eq_none hc hcancels) <| .inl
      fun r hr f hf => by
        obtain ⟨a, -, ha⟩ := exists_of_forall₂ (returned_of_results has).flip r hr
        rw [ha] at hf
        cases hf
    rw [hx]
    refine ⟨hrun, ?_, fun p hp => ?_⟩
    · rw [hsettles.outcome, has]
      rfl
    · obtain rfl := Option.some.inj hp
      rw [hsettles.calls]
  · rw [hx]
    refine Run.succeeds_none hrun ?_
    show g.outcome.result? = none
    rcases g.outcome_cases with ho | ⟨f, ho, -⟩ | ⟨ho, -⟩
    · rw [ho]
      rfl
    · rw [ho]
      rfl
    · rw [ho]
      exact hn

end Group

/-! ## Sessions -/

/-- A call of a handler that succeeds like this. -/
def Success.calling {α : Type} (v : Visit) (x : Success α) : Success α :=
  x.map fun p => (p.1, v ::ₘ p.2)

theorem Run.Succeeds.calling {α : Type} {r : Run α} {x : Success α}
    (h : r.Succeeds x) (self : Call) :
    (r.inside self).Succeeds (x.calling self.visit) := by
  rcases h.cases with ⟨a, ha, rfl⟩ | ⟨hn, rfl⟩
  · refine ⟨h.cancels, congrArg Outcome.result? ha, fun p hp => ?_⟩
    obtain rfl := Option.some.inj hp
    rfl
  · exact succeeds_none h.cancels hn

namespace Session

/-- **A session whose successes are told part by part**: nobody inside asks
for the cancellation of its expansions, handlers that have a time limit do
everything at once, and they do not get over a failure. -/
structure Unforgiving (s : Session) : Prop where
  unasked : s.Unasked
  brief : ∀ name h, s.registry.resolve? name = some h →
    ∀ time, s.limit? h = some time →
      0 < time ∧ ∀ v, (h.program v).Immediate
  unforgiving : ∀ name h, s.registry.resolve? name = some h →
    ∀ v, (h.program v).Unforgiving

/-- The success of a handler's call. -/
def callSuccess (s : Session) (h : Handler) (depth : Nat)
    (expand : Option Text → Success Text) (inv : Invocation) :
    Success (List Fragment) :=
  .calling (inv, depth)
    (((h.program ⟨inv, depth, s.settings, s.metadata⟩).success
      expand).mapResult Output.fragments)

/-- The success of an invocation's handler, at a depth. -/
def handled (s : Session) (depth : Nat) (expand : Option Text → Success Text)
    (inv : Invocation) : Success (List Fragment) :=
  (s.registry.resolve? inv.name).elim none fun h =>
    s.callSuccess h depth expand inv

section

variable {s : Session} {inv : Invocation} {depth : Nat}

theorem succeeds_enter (hs : s.Unforgiving) {h : Handler}
    (hr : s.registry.resolve? inv.name = some h) {e : Expander}
    {expand : Option Text → Success Text} (he : e.Succeeds expand)
    (cleared started entered : Moment) :
    (s.enter h inv depth e cleared started entered none).Succeeds
      (s.callSuccess h depth expand inv) := by
  have hrun := Program.succeeds_run (hs.unasked.imp_right fun hu => hu _ h hr _)
    (hs.unforgiving _ h hr ⟨inv, depth, s.settings, s.metadata⟩) he entered
  exact ((hrun.mapResult Output.fragments).mapFailure (report inv)).calling _

theorem succeeds_invoke (hs : s.Unforgiving) {e : Expander}
    {expand : Option Text → Success Text} (he : e.Succeeds expand)
    (cleared now : Moment) :
    (s.invoke inv depth e cleared now none).Succeeds
      (s.handled depth expand inv) := by
  unfold invoke handled
  cases hr : s.registry.resolve? inv.name with
  | none => exact Run.succeeds_none rfl rfl
  | some h =>
    have henter (entered : Moment) :
        (s.enter h inv depth e cleared now entered none).Succeeds
          (s.callSuccess h depth expand inv) :=
      succeeds_enter hs hr he cleared now entered
    dsimp only
    cases hlimit : s.limit? h with
    | none =>
      rw [call_of_none hlimit]
      exact henter now
    | some time =>
      obtain ⟨hpos, hp⟩ := hs.brief _ h hr time hlimit
      rw [call_of_some hlimit]
      refine (henter now.next).waitedFor ?_ _
      -- what is done at once is in time
      show ((h.program _).run _ e now.next none).finish.instant < _
      rw [(hp _).finish_run]
      exact Nat.lt_add_of_pos_right hpos

/-- **The group of the invocations of a text** tells what their handlers
tell, in order. -/
theorem succeeds_invokeAll (hs : s.Unforgiving)
    {expander : Invocation → Expander}
    {expand : Invocation → Option Text → Success Text}
    (ho : ∀ inv, (expander inv).Orderly s)
    (he : ∀ inv, (expander inv).Succeeds (expand inv))
    (invs : List Invocation) (depth : Nat) (now : Moment) :
    (s.invokeAll invs depth expander now none).Succeeds
      (.all (invs.map fun inv => s.handled depth (expand inv) inv)) := by
  have hmember (inv : Invocation) (start : Moment) :
      (s.member depth expander now inv start none).Succeeds
        (s.handled depth (expand inv) inv) := by
    rw [member_eq]
    exact ((succeeds_invoke hs (he inv) _ start).behind start).behind now.next
  have hcancels : ∀ m ∈ invs.map (s.member depth expander now), ∀ start,
      (m start none).cancels = none := by
    intro m hm start
    obtain ⟨inv, -, rfl⟩ := List.mem_map.mp hm
    exact (hmember inv start).cancels
  have hruns := Group.exists_start_none hcancels s.settings.maxConcurrency
    now.next []
  rw [List.forall₂_map_left_iff] at hruns
  cases invs with
  | nil => exact Run.succeeds_now now []
  | cons inv rest =>
    refine Group.Gathering.succeeds_run (called_members ho _ _ _ _) rfl
      (List.forall₂_map_right_iff.mpr ?_)
    refine hruns.flip.imp fun r i ⟨start, _, hr⟩ => ?_
    rw [hr]
    exact hmember i start

end

end Session

/-! ## Texts -/

namespace Success

/-- A text that may be missing. -/
def ofText (t : Option Text) : Success Text := t.elim none pure

/-- Texts in a row, if there are all of them. -/
def joined : List (Success Text) → Success Text
  | [] => pure []
  | x :: xs => x.andThen fun t => (joined xs).andThen fun u => pure (t ++ u)

theorem joined_append (xs ys : List (Success Text)) :
    joined (xs ++ ys)
      = (joined xs).andThen fun t => (joined ys).andThen fun u =>
          pure (t ++ u) := by
  induction xs with
  | nil =>
    rw [joined, pure_andThen]
    exact (andThen_pure _).symm
  | cons x xs ih =>
    rw [List.cons_append, joined, joined, ih]
    simp only [andThen_assoc, pure_andThen, List.append_assoc]

end Success

namespace Session

theorem concat_cons (t : Option Text) (ts : List (Option Text)) :
    (concat (t :: ts)).toOption
      = t.bind fun u => (concat ts).toOption.map fun v => u ++ v := by
  unfold concat
  rw [List.findIdx?_cons]
  cases t with
  | none => rfl
  | some u =>
    cases ts.findIdx? Option.isNone with
    | none => rfl
    | some i => rfl

/-- Texts that are put together are joined. -/
theorem mapResult_concat (xs : List (Success (Option Text))) :
    (Success.all xs).mapResult concat
      = .joined (xs.map fun x => x.andThen .ofText) := by
  induction xs with
  | nil => rfl
  | cons x xs ih =>
    rw [List.map_cons, Success.joined, ← ih, Success.all]
    unfold Success.mapResult
    simp only [Success.andThen_assoc, Success.pure_andThen]
    congr 1
    funext t
    cases t with
    | none =>
      simp only [concat_cons, Success.ofText, Option.elim_none,
        Option.bind_none, Success.none_andThen]
      exact Success.andThen_none _
    | some u =>
      rw [Success.ofText, Option.elim_some, Success.pure_andThen]
      congr 1
      funext ts
      rw [concat_cons]
      cases (concat ts).toOption with
      | none => rfl
      | some v => exact (Success.pure_andThen v fun w => .pure (u ++ w)).symm

section

variable {expander : Invocation → Expander}
  {expand : Invocation → Option Text → Success Text}

/-- The success of a part, by the success of what is expanded. -/
def Part.success (expand : Invocation → Option Text → Success Text) :
    Part → Success Text
  | .ready t => .ofText t
  | .pending inv t => expand inv t

/-- What a part gives, which may be nothing. -/
def Part.piece (expand : Invocation → Option Text → Success Text) :
    Part → Success (Option Text)
  | .ready t => .pure t
  | .pending inv t => (expand inv t).andThen fun u => .pure (some u)

theorem Part.piece_andThen (part : Part) :
    (part.piece expand).andThen .ofText = part.success expand := by
  cases part with
  | ready t => exact Success.pure_andThen t _
  | pending inv t =>
    rw [piece, Success.andThen_assoc]
    simp only [Success.pure_andThen]
    exact Success.andThen_pure _

theorem succeeds_splice
    (he : ∀ inv, (expander inv).Succeeds (expand inv)) (ps : List Part)
    (now : Moment) :
    (splice expander ps now none).Succeeds
      (.all (ps.map (Part.piece expand))) := by
  induction ps generalizing now with
  | nil => exact Run.succeeds_now now []
  | cons part rest ih =>
    rw [List.map_cons, Success.all]
    cases part with
    | ready t =>
      rw [Part.piece, Success.pure_andThen]
      exact (ih now).mapResult fun ts => .ok (t :: ts)
    | pending inv t =>
      rw [Part.piece, Success.andThen_assoc]
      simp only [Success.pure_andThen]
      exact (he inv t now).andThen fun u m =>
        (ih m).mapResult fun ts => .ok (some u :: ts)

/-- **A text that is put together** tells what its parts tell. -/
theorem succeeds_concat
    (he : ∀ inv, (expander inv).Succeeds (expand inv)) (ps : List Part)
    (now : Moment) :
    ((splice expander ps now none).mapResult concat).Succeeds
      (.joined (ps.map (Part.success expand))) := by
  have h := (succeeds_splice he ps now).mapResult concat
  rw [mapResult_concat, List.map_map] at h
  simpa only [Function.comp_def, Part.piece_andThen] using h

end

/-- The success of a segment: of a literal text at once, and of an
invocation by its handler first and then by what the handler produces. -/
def segmentSuccess (s : Session) (depth : Nat)
    (expand : Invocation → Option Text → Success Text) :
    Segment → Success Text
  | .literal t _ => .pure t
  | .invocation inv =>
    (s.handled depth (expand inv) inv).andThen fun fs =>
      .joined ((fs.map (partOf inv)).map (Part.success expand))

/-- **What an invocation leaves to be expanded may follow it at once.** A
run calls the handlers of all invocations first, and expands what they
leave after that. Both ways succeed alike. -/
theorem all_andThen_joined (s : Session) (depth : Nat)
    (expand : Invocation → Option Text → Success Text)
    (segments : List Segment) :
    ((Success.all ((Segment.invocations segments).map fun inv =>
        s.handled depth (expand inv) inv)).andThen fun produced =>
          .joined ((parts segments produced).map (Part.success expand)))
      = .joined (segments.map (s.segmentSuccess depth expand)) := by
  induction segments with
  | nil => exact Success.pure_andThen [] _
  | cons segment rest ih =>
    rw [List.map_cons, Success.joined, ← ih]
    cases segment with
    | literal t start =>
      show ((Success.all ((Segment.invocations rest).map fun inv =>
        s.handled depth (expand inv) inv)).andThen fun produced =>
          (Success.pure t).andThen fun u => _) = _
      simp only [segmentSuccess, Success.pure_andThen, Success.andThen_assoc]
    | invocation inv =>
      show ((s.handled depth (expand inv) inv).andThen fun fs =>
        (Success.all ((Segment.invocations rest).map fun inv =>
          s.handled depth (expand inv) inv)).andThen fun produced =>
            .pure (fs :: produced)).andThen _ = _
      simp only [segmentSuccess, Success.pure_andThen, Success.andThen_assoc,
        parts, List.map_append, Success.joined_append]
      congr 1
      funext fs
      exact Success.andThen_comm _ _ _

/-- **The segments of a text** tell their successes one after the other. -/
theorem succeeds_expandSegments {s : Session} (hs : s.Unforgiving)
    {expander : Invocation → Expander}
    {expand : Invocation → Option Text → Success Text}
    (ho : ∀ inv, (expander inv).Orderly s)
    (he : ∀ inv, (expander inv).Succeeds (expand inv)) (depth : Nat)
    (segments : List Segment) (now : Moment) :
    (s.expandSegments expander depth segments now none).Succeeds
      (.joined (segments.map (s.segmentSuccess depth expand))) := by
  let group := s.invokeAll (Segment.invocations segments) depth
    (fun inv => escaping (expander inv)) now none
  have hgroup : group.Succeeds
      (.all ((Segment.invocations segments).map fun inv =>
        s.handled depth (expand inv) inv)) :=
    succeeds_invokeAll hs
      (fun inv text now cancels => (ho inv text now cancels).withOutcome _)
      (fun inv => (he inv).escaping) _ depth now
  rw [← all_andThen_joined]
  show (group.andThen none fun produced m cancels =>
    (splice expander (parts segments produced) m cancels).mapResult
      concat).Succeeds _
  exact hgroup.andThen fun produced m =>
    succeeds_concat he (parts segments produced) m

/-- The success of a text, if it succeeds like this where it has an opening
delimiter. -/
def read (s : Session) (inside : Text → Success Text) :
    Option Text → Success Text
  | none => none
  | some t =>
    if Text.has s.settings.delimiters.opening t then inside t else .pure t

/-- **The success of a text** at a depth, while some levels of depth are
left: of its segments, one after the other. -/
def success (s : Session) : Nat → Nat → Int → Option Text → Success Text
  | 0, _, _ => s.read fun _ => none
  | levels + 1, depth, origin => s.read fun t =>
    (Segment.parse s.settings.delimiters t origin).toOption.elim none
      fun segments =>
        .joined (segments.map (s.segmentSuccess depth fun inv text =>
          s.success levels (depth + 1)
            ((text.map inv.originOf).getD inv.offset) text))

/-- A text is looked at only if it has an opening delimiter. -/
theorem succeeds_read {s : Session} {levels depth : Nat}
    {trigger : Option Text} {origin : Int} {inside : Text → Success Text}
    {now : Moment}
    (h : ∀ t, Text.has s.settings.delimiters.opening t = true →
      (s.expandFrom levels depth trigger origin (some t) now none).Succeeds
        (inside t)) (text : Option Text) :
    (s.expandFrom levels depth trigger origin text now none).Succeeds
      (s.read inside text) := by
  cases text with
  | none =>
    rw [expandFrom_none rfl]
    exact Run.succeeds_failed now _
  | some t =>
    rw [read]
    cases ht : Text.has s.settings.delimiters.opening t with
    | false =>
      rw [expandFrom_plain rfl ht]
      exact Run.succeeds_now now t
    | true => exact h t ht

/-- **An expansion tells the success of its text.** -/
theorem succeeds_expandFrom {s : Session} (hs : s.Unforgiving)
    (levels depth : Nat) (trigger : Option Text) (origin : Int) :
    Expander.Succeeds (s.expandFrom levels depth trigger origin)
      (s.success levels depth origin) := by
  induction levels generalizing depth trigger origin with
  | zero =>
    refine fun text now => succeeds_read (fun t ht => ?_) text
    rw [expandFrom_zero rfl ht]
    exact Run.succeeds_none rfl rfl
  | succ levels ih =>
    refine fun text now => succeeds_read (fun t ht => ?_) text
    rw [expandFrom_succ rfl ht]
    cases Segment.parse s.settings.delimiters t origin with
    | error e => exact Run.succeeds_failed now _
    | ok segments =>
      have he (inv : Invocation) : Expander.Succeeds
          (fun text => s.expandFrom levels (depth + 1) (some inv.name)
            ((text.map inv.originOf).getD inv.offset) text)
          (fun text => s.success levels (depth + 1)
            ((text.map inv.originOf).getD inv.offset) text) :=
        fun text => ih _ _ _ text
      exact succeeds_expandSegments hs
        (fun inv text => orderly_expandFrom _ _ _ _ text) he depth segments now

/-- The success of a content. -/
def documentSuccess (s : Session) (text : Text) : Success Text :=
  if text.isEmpty then .pure text
  else s.success (s.settings.maxDepth + 1) 0 0 (some text)

/-- **The expansion of a content tells its success.** -/
theorem succeeds_expand {s : Session} (hs : s.Unforgiving) (text : Text)
    (now : Moment) :
    (s.expand text now none).Succeeds (s.documentSuccess text) := by
  unfold expand documentSuccess
  split
  · exact Run.succeeds_now now text
  · exact succeeds_expandFrom hs _ _ _ _ _ _

end Session

end Shortcode
