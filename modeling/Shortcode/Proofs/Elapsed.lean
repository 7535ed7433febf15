import Shortcode.Proofs.Descent
import Shortcode.Proofs.Looks

/-!
# What has happened before an instant

Of two runs one may know that they do the same until something comes between,
and not what becomes of them then. So one has to say what has happened by
then. A call that is entered later is left out, and one that is in progress
is cut at the instant (`Call.before`). What it would have come to does not
count.

A cut that is not made before the instant changes nothing of that
(`Run.Firm`). `Course.Keeps` says so of each call by itself, and that is
not enough here: where the calls of two runs are compared one by one, a call
that is made twice has to be there twice, and all of them in the same order.
So this is about lists of calls.

Together with it goes what else is needed to put runs behind one another. A
run enters its calls when it has begun, and what it has asked for by a cut it
has asked for by the instant of the cut. The latter does not follow from what
is left of a run being a part of it: it might ask sooner, when it is cut, for
what it would have asked for in the end.

All of it holds of every expansion, in every session
(`Session.firm_expandFrom`), and nothing is assumed of the handlers.
-/

namespace Shortcode

/-! ## Calls -/

/-- A call, as far as it has got before an instant: it may not have been
entered, or not have been left. -/
def Call.before (t : Nat) (c : Call) : Option Call :=
  if c.entered.instant < t then
    some (if c.left.instant < t then c else c.cutAt ⟨t, 0⟩)
  else none

/-- Calls, as far as they have got before an instant. -/
def callsBefore (t : Nat) (calls : List Call) : List Call :=
  calls.filterMap (Call.before t)

section

variable {t u : Nat} {c d : Call} {calls calls' : List Call}

theorem Call.before_of_lt (h : c.entered.instant < t)
    (h' : c.left.instant < t) : c.before t = some c := by
  unfold before
  rw [if_pos h, if_pos h']

theorem Call.before_of_le (h : c.entered.instant < t)
    (h' : t ≤ c.left.instant) : c.before t = some (c.cutAt ⟨t, 0⟩) := by
  unfold before
  rw [if_pos h, if_neg (Nat.not_lt.mpr h')]

theorem Call.before_eq_none_iff : c.before t = none ↔ t ≤ c.entered.instant := by
  unfold before
  split
  · next h => simp [h]
  · next h => simpa using h

@[simp] theorem callsBefore_nil : callsBefore t [] = [] := rfl

@[simp] theorem callsBefore_append :
    callsBefore t (calls ++ calls')
      = callsBefore t calls ++ callsBefore t calls' :=
  List.filterMap_append

theorem callsBefore_flatMap {ι : Type} (xs : List ι) (f : ι → List Call) :
    callsBefore t (xs.flatMap f) = xs.flatMap fun x => callsBefore t (f x) := by
  induction xs with
  | nil => rfl
  | cons x xs ih => simp [ih]

/-- Calls that are entered later have not been made. -/
theorem callsBefore_eq_nil (h : ∀ c ∈ calls, t ≤ c.entered.instant) :
    callsBefore t calls = [] :=
  List.filterMap_eq_nil_iff.mpr fun c hc =>
    Call.before_eq_none_iff.mpr (h c hc)

/-- Calls that have all ended are as they are. -/
theorem callsBefore_eq_self (h : ∀ c ∈ calls, c.entered ≤ c.left)
    (h' : ∀ c ∈ calls, c.left.instant < t) : callsBefore t calls = calls := by
  induction calls with
  | nil => rfl
  | cons c calls ih =>
    obtain ⟨hc, hcalls⟩ := List.forall_mem_cons.mp h
    obtain ⟨hc', hcalls'⟩ := List.forall_mem_cons.mp h'
    have hentered := Nat.lt_of_le_of_lt (Moment.instant_le hc) hc'
    have hself := List.filterMap_cons_some (l := calls)
      (Call.before_of_lt hentered hc')
    exact hself.trans (congrArg (c :: ·) (ih hcalls hcalls'))

/-- What has happened before an instant has happened before a later one. -/
theorem callsBefore_callsBefore (h : t ≤ u) (calls : List Call) :
    callsBefore t (callsBefore u calls) = callsBefore t calls := by
  unfold callsBefore
  rw [List.filterMap_filterMap]
  refine List.filterMap_congr fun c _ => ?_
  by_cases he : c.entered.instant < u
  · by_cases hl : c.left.instant < u
    · rw [Call.before_of_lt he hl, Option.bind_some]
    · have hl := Nat.not_lt.mp hl
      rw [Call.before_of_le he hl, Option.bind_some]
      by_cases he' : c.entered.instant < t
      · rw [Call.before_of_le he' (Nat.le_trans h hl),
          Call.before_of_le (c := c.cutAt ⟨u, 0⟩) he' h]
        rfl
      · have he' := Nat.not_lt.mp he'
        rw [Call.before_eq_none_iff.mpr he']
        exact Call.before_eq_none_iff.mpr he'
  · have he := Nat.not_lt.mp he
    rw [Call.before_eq_none_iff.mpr he,
      Call.before_eq_none_iff.mpr (Nat.le_trans h he)]
    rfl

/-- Calls can be looked through for something that a cut does not change,
before or afterwards. -/
theorem callsBefore_filter {p : Call → Bool}
    (hp : ∀ (c : Call) m, p (c.cutAt m) = p c) (calls : List Call) :
    callsBefore t (calls.filter p) = (callsBefore t calls).filter p := by
  unfold callsBefore
  rw [List.filterMap_filter, List.filter_filterMap]
  refine List.filterMap_congr fun c _ => ?_
  have hbefore : ∀ d, c.before t = some d → p d = p c := by
    intro d hd
    unfold Call.before at hd
    split at hd
    · cases hd
      split
      · rfl
      · exact hp c _
    · cases hd
  cases hc : c.before t with
  | none => simp
  | some d => simp [Option.filter, hbefore d hc]

end

/-! ## Runs -/

/-- **A run that a cut does not change before its instant**, from a moment on.
What happens before an instant happens in the same way if the run is cut at
that instant, or later. -/
structure Run.Firm {α : Type} (now : Moment) (r : Run α) : Prop where
  le : now ≤ r.finish
  entered : ∀ d ∈ r.calls, now ≤ d.entered
  since : now.NotAfter r.cancels
  calls : ∀ {c : Cut} {t : Nat}, t ≤ c.moment.instant →
    callsBefore t (r.upTo c).calls = callsBefore t r.calls
  /-- What is left of the run asks for nothing behind the cut. -/
  asks : ∀ {c : Cut} {m : Moment}, (r.upTo c).cancels = some m →
    m.instant ≤ c.moment.instant

/-- An expander whose runs are not changed before a cut. -/
def Expander.Firm (e : Expander) : Prop :=
  ∀ text now known, (e text now known).Firm now

theorem Moment.earliest?_eq_some {m m' : Option Moment} {a : Moment}
    (h : earliest? m m' = some a) : m = some a ∨ m' = some a := by
  cases m with
  | none =>
    cases m' with
    | none => cases h
    | some b => exact .inr h
  | some b =>
    cases m' with
    | none => exact .inl h
    | some b' =>
      have h := Option.some.inj h
      rcases earlier_eq_or b b' with he | he
      · exact .inl (congrArg some (he.symm.trans h))
      · exact .inr (congrArg some (he.symm.trans h))

namespace Run

variable {α β : Type} {now start : Moment} {r : Run α}

/-- What a run asks for it asks for before it has ended. -/
theorem Firm.cancels_le (h : r.Firm now) {m : Moment}
    (hm : r.cancels = some m) : m.instant ≤ r.finish.instant := by
  refine h.asks (c := ⟨r.finish, false⟩) ?_
  rw [upTo_finish]
  exact hm

theorem Firm.mono {earlier : Moment} (h : r.Firm now)
    (hle : earlier ≤ now) : r.Firm earlier :=
  ⟨Moment.le_trans hle h.le, fun d hd => Moment.le_trans hle (h.entered d hd),
    h.since.mono hle, h.calls, h.asks⟩

theorem Firm.withOutcome (h : r.Firm now) (o : Outcome β) :
    (r.withOutcome o).Firm now :=
  ⟨h.le, h.entered, h.since, h.calls, h.asks⟩

/-- Before a run has begun nothing has happened. -/
theorem Firm.callsBefore_eq_nil (h : r.Firm now) {t : Nat}
    (ht : t ≤ now.instant) : callsBefore t r.calls = [] :=
  Shortcode.callsBefore_eq_nil fun d hd =>
    Nat.le_trans ht (Moment.instant_le (h.entered d hd))

/-- A run that calls nobody and asks for nothing. -/
theorem firm_of_calls_eq_nil (hle : now ≤ r.finish) (h : r.calls = [])
    (hr : r.cancels = none) : r.Firm now where
  le := hle
  entered := by simp [h]
  since := by simp [hr]
  calls _ := by rw [calls_upTo_eq_nil h, h]
  asks {c _} hm := by
    rw [cancels_upTo_eq_none hr c] at hm
    cases hm

theorem firm_now (o : Outcome α) : (Run.now now o).Firm now :=
  firm_of_calls_eq_nil now.le_refl rfl rfl

theorem firm_tooDeep (f : Failure) : (tooDeep now f : Run α).Firm now :=
  firm_of_calls_eq_nil now.le_refl rfl rfl

theorem firm_asking (now : Moment) : (asking now).Firm now where
  le := now.le_refl
  entered := List.forall_mem_nil _
  since := Moment.notAfter_some.mpr now.le_refl
  calls _ := by rw [calls_upTo_eq_nil rfl]; rfl
  asks {c m} hm := by
    by_cases hp : c.Precedes now
    · rw [upTo_of_precedes (r := asking now) hp] at hm
      cases hm
    · rw [upTo_of_not_precedes (r := asking now) hp] at hm
      obtain rfl := Option.some.inj hm
      exact Moment.instant_le (Cut.le_moment_of_not_precedes hp)

/-- **One run behind another one.** A cut of the first one comes before the
second one has entered anything. -/
theorem Firm.after {r' : Run β} (h : r.Firm now)
    (h' : r'.Firm r.finish) : (r.after r').Firm now where
  le := Moment.le_trans h.le h'.le
  entered := List.forall_mem_append.mpr
    ⟨h.entered, fun d hd => Moment.le_trans h.le (h'.entered d hd)⟩
  since := Moment.notAfter_earliest?.mpr ⟨h.since, h'.since.mono h.le⟩
  calls {c t} ht := by
    show _ = callsBefore t (r.calls ++ r'.calls)
    rw [callsBefore_append]
    by_cases hp : c.Precedes r.finish
    · have hnone := h'.callsBefore_eq_nil
        (Nat.le_trans ht (Moment.instant_le hp.moment_le))
      rw [upTo_after_of_precedes hp h'.le, h.calls ht, hnone, List.append_nil]
    · rw [upTo_after_of_not_precedes hp]
      show callsBefore t (r.calls ++ (r'.upTo c).calls) = _
      rw [callsBefore_append, h'.calls ht]
  asks {c m} hm := by
    by_cases hp : c.Precedes r.finish
    · rw [upTo_after_of_precedes hp h'.le] at hm
      exact h.asks hm
    · rw [upTo_after_of_not_precedes hp] at hm
      rcases Moment.earliest?_eq_some hm with hm | hm
      · exact Nat.le_trans (h.cancels_le hm)
          (Moment.instant_le (Cut.le_moment_of_not_precedes hp))
      · exact h'.asks hm

theorem Firm.andThen {known : Option Moment}
    {next : α → Moment → Option Moment → Run β} (h : r.Firm now)
    (hn : ∀ a m known, (next a m known).Firm m) :
    (r.andThen known next).Firm now := by
  unfold Run.andThen
  split
  · exact h.after (hn _ _ _)
  · exact h.withOutcome _
  · exact h.withOutcome _

theorem Firm.behind (h : r.Firm now) (hle : start ≤ now) :
    (r.behind start).Firm now :=
  have hb := (firm_now (.returned ())).after (r := Run.now start (.returned ()))
    (h.mono hle)
  ⟨h.le, h.entered, h.since, hb.calls, hb.asks⟩

/-- **What is done inside a call.** If it is cut, so is the call, and before
the cut both are in progress. -/
theorem Firm.inside {self : Call} (h : r.Firm now)
    (hself : now ≤ self.entered) : (r.inside self).Firm now where
  le := h.le
  entered := List.forall_mem_cons.mpr ⟨hself, h.entered⟩
  since := h.since
  calls {c t} ht := by
    have hcall : (if c.Precedes r.finish then self.cutAt c.moment
          else { self with left := r.finish }).before t
        = Call.before t { self with left := r.finish } := by
      split
      · next hp =>
        have hlate := Nat.le_trans ht (Moment.instant_le hp.moment_le)
        by_cases he : self.entered.instant < t
        · rw [Call.before_of_le (c := self.cutAt c.moment) he ht,
            Call.before_of_le (c := { self with left := r.finish }) he hlate]
          rfl
        · have he := Nat.not_lt.mp he
          have hnone (m : Moment) (e : Ending) :
              Call.before t { self with left := m, ending := e } = none :=
            Call.before_eq_none_iff.mpr he
          exact (hnone _ _).trans (hnone _ _).symm
      · rfl
    rw [upTo_inside]
    have hcalls := h.calls ht
    unfold callsBefore at hcalls ⊢
    show List.filterMap _ (_ :: _) = List.filterMap _ (_ :: r.calls)
    rw [List.filterMap_cons, List.filterMap_cons, hcall, hcalls]
  asks hm := by
    rw [upTo_inside] at hm
    exact h.asks hm

/-- **A task that waits for a run** gets one of its courses. If it is cut,
that is one in which the run is cut no sooner. -/
theorem Firm.waitedFor (h : r.Firm now.next) (time : Nat)
    (late : Outcome α) : (r.waitedFor now time late).Firm now := by
  let b := r.behind now.next
  have hb : b.Firm now := (h.behind now.next.le_refl).mono now.le_next
  have hclamp (c : Cut) :
      (c.clamp (r.due now time)).moment.instant ≤ c.moment.instant := by
    unfold Cut.clamp
    split
    · next hp => exact Nat.le_of_eq (Cut.instant_arrival hp.moment_le)
    · next hp => exact Moment.instant_le (Cut.le_moment_of_not_precedes hp)
  refine ⟨le_finish_waitedFor h.le time late, fun d hd => ?_, ?_,
    fun {c t} ht => ?_, fun {c m} hm => ?_⟩
  · obtain ⟨d', hd', hcut⟩ :=
      (r.kept_waitedFor now time late).exists_of_mem hd
    rw [hcut.entered_eq]
    exact Moment.le_trans now.le_next (h.entered d' hd')
  · obtain ⟨c, m, hwhole, -⟩ := exists_whole_waitedFor h.le time late
    show now.NotAfter (r.waitedFor now time late).whole.cancels
    rw [hwhole]
    exact (b.within_upTo c).cancels now hb.since
  · obtain ⟨m, hm, -, -⟩ := exists_upTo_waitedFor h.le time late c
    rw [hm]
    show callsBefore t (b.upTo (c.clamp (r.due now time))).calls = _
    unfold Run.due Run.waitedFor
    split
    · -- the run has ended by when it is heard of
      show _ = callsBefore t b.calls
      by_cases hp : c.Precedes (r.finish.skip hearing)
      · rw [Cut.clamp_of_precedes hp]
        have hi : t ≤ (c.passed (r.finish.skip hearing)).moment.instant :=
          Nat.le_trans ht
            (Nat.le_of_eq (Cut.instant_arrival hp.moment_le).symm)
        exact hb.calls hi
      · rw [Cut.clamp_of_not_precedes hp, upTo_of_not_precedes fun hlate =>
          Moment.not_lt.mpr hlate.moment_le (r.finish.lt_skip (by decide))]
        rfl
    · show _ = callsBefore t (b.upTo ⟨now.later time, true⟩).calls
      by_cases hp : c.Precedes (now.later time)
      · rw [Cut.clamp_of_precedes hp]
        have hi : t ≤ (c.passed (now.later time)).moment.instant :=
          Nat.le_trans ht
            (Nat.le_of_eq (Cut.instant_arrival hp.moment_le).symm)
        have hdue : t ≤ (⟨now.later time, true⟩ : Cut).moment.instant :=
          Nat.le_trans ht (Moment.instant_le hp.moment_le)
        rw [hb.calls hi, hb.calls hdue]
      · rw [Cut.clamp_of_not_precedes hp]
  · obtain ⟨m', hm', -, -⟩ := exists_upTo_waitedFor h.le time late c
    rw [hm'] at hm
    exact Nat.le_trans (hb.asks hm) (hclamp c)

end Run

/-! ## Programs and groups -/

/-- Programs are not changed before a cut. -/
theorem Program.firm_run {b : Bool} {e : Expander} (he : e.Firm)
    (p : Program) (now : Moment) (known : Option Moment) :
    (p.run b e now known).Firm now := by
  induction p generalizing now known with
  | finish | fail | interrupt => exact Run.firm_now _
  | sleep time next ih =>
    exact ((ih _ _).behind (Moment.le_refl _)).mono (now.le_later time)
  | askCancelled next ih => exact ih _ now known
  | cancel next ih =>
    rw [run]
    split
    · exact (Run.firm_asking now).after (ih _ _)
    · exact ih now known
  | expand text next ih =>
    have h := he text now known
    rw [run]
    split
    · exact h.after (ih _ _ _)
    · exact h.after (ih _ _ _)
    · exact h.withOutcome _

namespace Group

variable {α ι : Type}

/-- What is gathered of calls has happened before an instant if it has in the
parts. -/
theorem callsBefore_gathered {t : Nat} {xs : List ι} {f g : ι → Course}
    {request : Option Moment}
    (closed closed' : Moment) (waiting waiting' : Bool)
    (h : ∀ x ∈ xs, callsBefore t (f x).calls = callsBefore t (g x).calls) :
    callsBefore t (gathered closed waiting request (xs.map f)).calls
      = callsBefore t (gathered closed' waiting' request (xs.map g)).calls := by
  unfold gathered
  dsimp only
  -- it was looked for a cancellation before a call was cut
  rw [callsBefore_filter fun _ _ => rfl, callsBefore_filter fun _ _ => rfl,
    List.flatMap_map, List.flatMap_map, callsBefore_flatMap,
    callsBefore_flatMap]
  exact congrArg _ (List.flatMap_congr h)

/-- The earliest request is one of those that are made. -/
theorem exists_of_foldl_earliest? {xs : List ι} {f : ι → Option Moment}
    {first : Option Moment} {m : Moment}
    (h : xs.foldl (fun m x => Moment.earliest? m (f x)) first = some m) :
    first = some m ∨ ∃ x ∈ xs, f x = some m := by
  induction xs generalizing first with
  | nil => exact .inl h
  | cons x xs ih =>
    rcases ih h with hm | ⟨y, hy, hm⟩
    · exact (Moment.earliest?_eq_some hm).imp id fun hx =>
        ⟨x, List.mem_cons_self, hx⟩
    · exact .inr ⟨y, List.mem_cons_of_mem x hy, hm⟩

/-- **Groups are not changed before a cut**, which reaches their members at
its own instant. -/
theorem Gathering.firm_run {g : Gathering α}
    (hr : ∀ r ∈ g.runs, r.Firm g.called) : g.run.Firm g.called where
  le := g.called_le_finish
  entered d hd := by
    obtain ⟨⟨x, hx, hd⟩, -⟩ := mem_run.mp hd
    obtain ⟨d', hd', hcut⟩ := Run.exists_of_mem_upTo hd
    rw [hcut.entered_eq]
    exact (hr _ (run_mem hx)).entered d' hd'
  since := by
    refine notAfter_foldl.mpr ⟨Moment.notAfter_none _, fun k hk => ?_⟩
    obtain ⟨x, hx, rfl⟩ := List.mem_map.mp hk
    exact (x.run.within_upTo _).cancels _ (hr _ (run_mem hx)).since
  calls {c t} ht := by
    by_cases hp : c.Precedes g.look.moment
    · rw [upTo_run_of_precedes hp]
      refine callsBefore_gathered _ g.look.moment _
        (g.cancellable && !g.hears g.look) fun x hx => ?_
      have hfirm := hr _ (run_mem hx)
      have hcut := instant_arrival hp
      rw [← g.moment_passed c x.place] at hcut
      have hlook : t ≤ (g.look.cut x.place).moment.instant :=
        Nat.le_trans ht (Moment.instant_le hp.moment_le)
      exact (hfirm.calls (hcut ▸ ht)).trans (hfirm.calls hlook).symm
    · rw [upTo_run_of_not_precedes hp]
      rfl
  asks {c m} hm := by
    obtain ⟨closed, waiting, he, -⟩ := g.exists_upTo_run c
    rw [he] at hm
    rcases exists_of_foldl_earliest? hm with hm | ⟨k, hk, hm⟩
    · cases hm
    · obtain ⟨x, hx, rfl⟩ := List.mem_map.mp hk
      exact Nat.le_trans ((hr _ (run_mem hx)).asks hm)
        (g.instant_cutOf_le c x.place)

end Group

/-! ## Expansions -/

namespace Session

variable {s : Session} {depth : Nat} {now : Moment} {known : Option Moment}
  {expander : Invocation → Expander}

theorem firm_invoke {e : Expander} (he : e.Firm) (inv : Invocation)
    (cleared now : Moment) (known : Option Moment) :
    (s.invoke inv depth e cleared now known).Firm now := by
  unfold invoke
  split
  · exact Run.firm_now _
  · next h _ =>
    have henter (started entered : Moment) :
        (s.enter h inv depth e cleared started entered known).Firm entered :=
      ((Program.firm_run he _ entered known).withOutcome _).inside
        entered.le_refl
    cases hlimit : s.limit? h with
    | none =>
      rw [call_of_none hlimit]
      exact henter now now
    | some time =>
      rw [call_of_some hlimit]
      exact (henter now now.next).waitedFor time _

theorem firm_member (he : ∀ inv, (expander inv).Firm) {called : Moment}
    (inv : Invocation) {start : Moment} (hle : called.next ≤ start)
    (known : Option Moment) :
    (s.member depth expander called inv start known).Firm start := by
  have hbehind {r : Run (List Fragment)} (h : r.Firm start) :
      ((r.behind start).behind called.next).Firm start :=
    (h.behind start.le_refl).behind hle
  rcases s.member_eq_or depth expander called inv start known with
    h | ⟨cleared, h⟩
  · rw [h]
    exact hbehind (Run.firm_now _)
  · rw [h]
    exact hbehind (firm_invoke (he inv) inv cleared start known)

theorem firm_invokeAll (he : ∀ inv, (expander inv).Firm)
    (invs : List Invocation) :
    (s.invokeAll invs depth expander now known).Firm now := by
  unfold invokeAll
  split
  · exact Run.firm_now _
  · split
    · exact Run.firm_now _
    · next first _ _ =>
      refine Group.Gathering.firm_run (g := ⟨s.settings.maxConcurrency,
        s.cancellable, now, cancelledAt first.offset, known, _⟩) fun r hr => ?_
      obtain ⟨m, hm, start, heard, hle, rfl⟩ := Group.exists_of_mem_members hr
      obtain ⟨inv, -, rfl⟩ := List.mem_map.mp hm
      exact (firm_member he inv hle heard).mono
        (Moment.le_trans now.le_next hle)

theorem firm_splice (he : ∀ inv, (expander inv).Firm) (ps : List Part)
    (now : Moment) (known : Option Moment) :
    (splice expander ps now known).Firm now := by
  induction ps generalizing now known with
  | nil => exact Run.firm_now _
  | cons part rest ih =>
    cases part with
    | ready t => exact (ih now known).withOutcome _
    | pending inv t =>
      exact (he inv t now known).andThen fun _ m heard =>
        (ih m heard).withOutcome _

/-- **Expansions are not changed before a cut.** -/
theorem firm_expandFrom (levels depth : Nat) (trigger : Option Text)
    (origin : Int) :
    Expander.Firm (s.expandFrom levels depth trigger origin) := by
  intro text now known
  refine expandFrom_induction s (P := fun _ _ _ _ _ now _ r => r.Firm now)
    (fun _ => Run.firm_now _) (fun _ => Run.firm_now _)
    (fun _ _ => Run.firm_now _) (fun _ _ => Run.firm_tooDeep _)
    (fun _ _ _ => Run.firm_now _) ?_ levels depth trigger origin text now
    known
  intro levels depth trigger origin t now known segments _ _ _ he
  have hescaping : ∀ inv : Invocation, Expander.Firm (escaping fun text =>
      s.expandFrom levels (depth + 1) (some inv.name)
        ((text.map inv.originOf).getD inv.offset) text) :=
    fun inv text now known => (he inv text now known).withOutcome _
  exact (firm_invokeAll hescaping _).andThen fun produced m heard =>
    (firm_splice he _ m heard).withOutcome _

end Session

end Shortcode
