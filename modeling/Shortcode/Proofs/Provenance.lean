import Shortcode.Proofs.Surfacing

/-!
# Where results and failures come from

A run tells what it returns or fails with, and which handlers were called.
Here this is followed back, one step at a time: from a text to the group of
its invocations and to what is expanded again of what they produced; from
the group to one of the invocations; from an invocation to the program of
its handler; and from a program to what it has asked for.

Where a text fails with an error that is none of a cancellation, either it
cannot be read, or stands too deep (`Request.cases_of_run_failed`), or one
of its invocations or of the texts that are expanded again has failed with
this very error (`Request.Reads.exists_of_run_failed`). A failure that is
marked as having come out of an expansion came out of one that the handler
asked for, if the handler is honest (`Program.Raises.exists_asks`).
-/

namespace Shortcode

/-! ## Programs and invocations -/

section

variable {b : Bool} {e : Expander} {p : Program} {now : Moment}
  {known : Option Moment}

/-- On the path to a failure that is marked, an honest program has heard
it, or is answered with it. -/
theorem Program.Raises.exists_asks {heard seen : List Failure} {stop : Moment}
    {f : Failure} (h : p.Raises b e now known seen stop f)
    (hp : p.Honest heard) (hf : f.hasEscaped = true) :
    f ∈ heard ∨ ∃ text asked known', p.Asks b e text asked known' now known
      ∧ (e text asked known').outcome = .failed f := by
  induction h generalizing heard with
  | fail => exact .inl (hp hf)
  | sleep _ ih =>
    refine (ih hp hf).imp_right fun ⟨text, asked, known', ha, ho⟩ => ?_
    exact ⟨text, asked, known', .sleep ha, ho⟩
  | returned hr _ ih =>
    refine (ih (hp.1 _) hf).imp_right fun ⟨text, asked, known', ha, ho⟩ => ?_
    exact ⟨text, asked, known', .returned hr ha, ho⟩
  | failed hg _ ih =>
    rcases ih (hp.2 _) hf with hmem | ⟨text, asked, known', ha, ho⟩
    · rcases List.mem_cons.mp hmem with rfl | hmem
      · exact .inr ⟨_, _, _, .here, hg⟩
      · exact .inl hmem
    · exact .inr ⟨text, asked, known', .failed hg ha, ho⟩
  | cancel _ ih =>
    refine (ih hp hf).imp_right fun ⟨text, asked, known', ha, ho⟩ => ?_
    exact ⟨text, asked, known', .cancel ha, ho⟩
  | askCancelled _ ih =>
    refine (ih (hp _) hf).imp_right fun ⟨text, asked, known', ha, ho⟩ => ?_
    exact ⟨text, asked, known', .askCancelled ha, ho⟩

end

namespace Session

variable {s : Session} {inv : Invocation} {depth : Nat} {e : Expander}
  {cleared now : Moment} {known : Option Moment}

/-- A call gives what its handler does. -/
theorem exists_of_call_returned {hd : Handler} {fs : List Fragment}
    (h : (s.call hd inv depth e cleared now known).outcome = .returned fs) :
    (s.enter hd inv depth e cleared now (s.entry hd now) known).outcome
      = .returned fs := by
  cases hlimit : s.limit? hd with
  | none =>
    rw [call_of_none hlimit] at h
    rw [entry_of_none hlimit]
    exact h
  | some time =>
    rw [call_of_some hlimit, Run.outcome_waitedFor] at h
    rw [entry_of_some hlimit]
    split at h
    · exact h
    · cases h

/-- An invocation that gives fragments has a handler, whose program gave
them. -/
theorem exists_of_invoke_returned {fs : List Fragment}
    (h : (s.invoke inv depth e cleared now known).outcome = .returned fs) :
    ∃ hd output, s.registry.resolve? inv.name = some hd
      ∧ ((hd.program ⟨inv, depth, s.settings, s.metadata⟩).run s.cancellable e
          (s.entry hd now) known).outcome = .returned output
      ∧ output.fragments = .ok fs := by
  unfold invoke at h
  split at h
  · simp [Run.now] at h
  · next hd hr =>
    have henter := exists_of_call_returned h
    obtain ⟨output, ho, hfs⟩ := Outcome.bind_eq_returned_iff.mp
      (Outcome.mapFailure_eq_returned_iff.mp henter)
    exact ⟨hd, output, hr, ho, hfs⟩

/-- An invocation that fails has no handler, or tells what its program
failed with; if that is marked, the program did fail with it. -/
theorem exists_of_invoke_failed {f : Failure}
    (h : (s.invoke inv depth e cleared now known).outcome = .failed f) :
    (f = .error ⟨.unknownShortcode, some inv.name, some inv.offset⟩)
      ∨ ∃ hd g, s.registry.resolve? inv.name = some hd ∧ f = report inv g
        ∧ (g.hasEscaped = true →
          ((hd.program ⟨inv, depth, s.settings, s.metadata⟩).run s.cancellable
            e (s.entry hd now) known).outcome = .failed g) := by
  unfold invoke at h
  split at h
  · exact .inl (Outcome.failed.inj h).symm
  · next hd hr =>
    rcases call_failed h with henter | rfl
    · obtain ⟨g, hg, rfl⟩ := Outcome.mapFailure_eq_failed_iff.mp henter
      refine .inr ⟨hd, g, hr, rfl, fun hesc => ?_⟩
      rcases Outcome.bind_eq_failed_iff.mp hg with ho | ⟨output, -, hout⟩
      · exact ho
      · simp [Output.hasEscaped_of_fragments hout] at hesc
    · exact .inr ⟨hd, _, hr, rfl, fun hesc => by
        simp [Failure.hasEscaped] at hesc⟩

end Session

/-! ## What groups and rescans come from -/

/-- A run whose result is replaced fails as it did, or because of the
result. -/
theorem Run.failed_of_mapResult {α β : Type} {r : Run α}
    {next : α → Except Failure β} {f : Failure}
    (h : (r.mapResult next).outcome = .failed f) :
    r.outcome = .failed f
      ∨ ∃ a, r.outcome = .returned a ∧ next a = .error f :=
  Outcome.bind_eq_failed_iff.mp h

/-- A run that goes on with another one fails as it did, or as the other
one. -/
theorem Run.failed_of_andThen {α β : Type} {r : Run α}
    {cancels : Option Moment} {next : α → Moment → Option Moment → Run β}
    {f : Failure} (h : (r.andThen cancels next).outcome = .failed f) :
    r.outcome = .failed f
      ∨ ∃ a, r.outcome = .returned a
        ∧ (next a r.finish (Moment.earliest? cancels r.cancels)).outcome
          = .failed f := by
  unfold andThen at h
  split at h
  · next a ha => exact .inr ⟨a, ha, h⟩
  · next g hg =>
    obtain rfl := Outcome.failed.inj h
    exact .inl hg
  · simp [withOutcome] at h

namespace Session

variable {expander : Invocation → Expander}

/-- What is expanded is one of the parts that are pending. -/
theorem pending_of_mem_expanded {ps : List Part} {now : Moment}
    {known : Option Moment}
    {y : Invocation × Option Text × Moment × Option Moment}
    (h : y ∈ expanded expander ps now known) : .pending y.1 y.2.1 ∈ ps := by
  induction ps generalizing now known with
  | nil => simp [expanded] at h
  | cons part rest ih =>
    cases part with
    | ready t => exact List.mem_cons_of_mem _ (ih h)
    | pending inv t =>
      rcases List.mem_cons.mp h with rfl | h
      · exact List.mem_cons_self
      · split at h
        · exact List.mem_cons_of_mem _ (ih h)
        · simp at h

/-- Putting a text together fails where one of these does. -/
theorem exists_of_splice_failed {ps : List Part} {now : Moment}
    {known : Option Moment} {f : Failure}
    (h : (splice expander ps now known).outcome = .failed f) :
    ∃ y ∈ expanded expander ps now known,
      (expander y.1 y.2.1 y.2.2.1 y.2.2.2).outcome = .failed f := by
  induction ps generalizing now known with
  | nil => simp [splice, Run.now] at h
  | cons part rest ih =>
    cases part with
    | ready t =>
      rcases Run.failed_of_mapResult h with h | ⟨a, -, ha⟩
      · exact ih h
      · simp at ha
    | pending inv t =>
      rcases Run.failed_of_andThen h with h | ⟨u, ho, h⟩
      · exact ⟨_, List.mem_cons_self, h⟩
      · rcases Run.failed_of_mapResult h with h | ⟨a, -, ha⟩
        · obtain ⟨y, hy, hf⟩ := ih h
          rw [expanded, ho]
          exact ⟨y, List.mem_cons_of_mem _ hy, hf⟩
        · simp at ha

/-- Texts that cannot be put together are no matter of an error. -/
theorem isError_of_concat {ts : List (Option Text)} {f : Failure}
    (h : concat ts = .error f) : f.isError = false := by
  unfold concat at h
  split at h
  · simp at h
  · obtain rfl := Except.error.inj h
    rfl

end Session

namespace Request

variable {q : Request} {s : Session} {segments : List Segment}

/-- What a group returns is what the invocations return. -/
theorem returned_of_group {produced : List (List Fragment)}
    (h : (q.group s segments).outcome = .returned produced) :
    List.Forall₂ (fun inv fs => ∃ start known,
        (inv, start, known) ∈ q.started s segments
          ∧ (q.memberRun s (inv, start, known)).outcome = .returned fs)
      (Segment.invocations segments) produced := by
  have hfst : Segment.invocations segments
      = (q.started s segments).map Prod.fst :=
    (Group.map_fst_started ..).symm
  rw [hfst, List.forall₂_map_left_iff]
  rcases q.group_cases s segments with
    ⟨hnil, he⟩ | ⟨cancelled, -, he | he⟩
  · rw [he] at h
    obtain rfl := Outcome.returned.inj h
    rw [hnil]
    exact .nil
  · rw [he] at h
    simp [Run.now] at h
  · rw [he] at h
    have hreturned : List.Forall₂ (fun r fs => r.outcome = .returned fs)
        (q.memberRuns s segments) produced :=
      (Group.Gathering.waited_of_returned h).2.2
    rw [memberRuns_eq, List.forall₂_map_left_iff] at hreturned
    exact ((List.forall₂_and_left _ _).mpr ⟨fun y hy => hy, hreturned⟩).imp
      fun y fs h => ⟨_, _, h.1, h.2⟩

/-- What a group fails with is a failure of one of the invocations, if it
is not that it was cancelled. -/
theorem exists_of_group_failed {f : Failure}
    (h : (q.group s segments).outcome = .failed f)
    (hf : f.isCancellation = false) :
    ∃ y ∈ q.started s segments, (q.memberRun s y).outcome = .failed f := by
  rcases q.group_cases s segments with
    ⟨-, he⟩ | ⟨cancelled, hc, he | he⟩
  · rw [he] at h
    simp [Run.now] at h
  · rw [he] at h
    obtain rfl := Outcome.failed.inj h
    simp [hc] at hf
  · rw [he] at h
    rcases Group.Gathering.exists_of_failed h with hcancelled | ⟨r, hr, ho⟩
    · rw [show f = cancelled from hcancelled, hc] at hf
      cases hf
    · have hr : r ∈ q.memberRuns s segments := hr
      rw [memberRuns_eq] at hr
      obtain ⟨y, hy, rfl⟩ := List.mem_map.mp hr
      exact ⟨y, hy, ho⟩

/-- The handlers that are called in a group are called by the
invocations. -/
theorem exists_of_mem_group_calls {c : Call}
    (h : c ∈ (q.group s segments).calls) :
    ∃ y ∈ q.started s segments, ∃ c' ∈ (q.memberRun s y).calls,
      c.invocation = c'.invocation := by
  rcases q.group_cases s segments with ⟨-, he⟩ | ⟨cancelled, -, he | he⟩
  · simp [he, Run.now] at h
  · simp [he, Run.now] at h
  · rw [he] at h
    obtain ⟨c', hc', hcut⟩ := (Group.Gathering.kept_run _).exists_of_mem h
    obtain ⟨r, hr, hc'⟩ := List.mem_flatMap.mp hc'
    have hr : r ∈ q.memberRuns s segments := hr
    rw [memberRuns_eq] at hr
    obtain ⟨y, hy, rfl⟩ := List.mem_map.mp hr
    exact ⟨y, hy, c', hc', hcut.invocation_eq⟩

/-- What is requested again are fragments that invocations returned. -/
theorem exists_of_mem_rescans {r : Request} (h : r ∈ q.rescans s segments) :
    ∃ inv fs f asked heard start known,
      (inv, start, known) ∈ q.started s segments
        ∧ (q.memberRun s (inv, start, known)).outcome = .returned fs
        ∧ f ∈ fs ∧ f.rescan = true ∧ r = q.nested inv f.text asked heard := by
  unfold rescans at h
  dsimp only at h
  split at h
  · next produced ho =>
    obtain ⟨y, hy, rfl⟩ := List.mem_map.mp h
    obtain ⟨-, fs, ⟨start, known, hstarted, hfs⟩, f, hf, hrescan, ht⟩ :=
      Session.exists_of_mem_parts (returned_of_group ho)
        (Session.pending_of_mem_expanded hy)
    exact ⟨y.1, fs, f, _, _, start, known, hstarted, hfs, hf, hrescan,
      by rw [ht]⟩
  · simp at h

/-- **What a text that is read fails with** is a failure of its group, or of
what is requested again; or the parts cannot be put together. -/
theorem Reads.exists_of_run_failed (hq : q.Reads s segments) {f : Failure}
    (h : (q.run s).outcome = .failed f) (hf : f.isError = true) :
    (q.group s segments).outcome = .failed f
      ∨ ∃ r ∈ q.rescans s segments, (r.run s).outcome = .failed f := by
  rw [hq.run_eq] at h
  rcases Run.failed_of_andThen h with h | ⟨produced, ho, h⟩
  · exact .inl h
  · rcases Run.failed_of_mapResult h with h | ⟨ts, -, hts⟩
    · obtain ⟨y, hy, hrun⟩ := Session.exists_of_splice_failed h
      refine .inr ⟨q.nested y.1 y.2.1 y.2.2.1 y.2.2.2, ?_, hrun⟩
      have ho : (q.group s segments).outcome = .returned produced := ho
      unfold rescans
      dsimp only
      rw [ho]
      exact List.mem_map_of_mem hy
    · simp [Session.isError_of_concat hts] at hf

/-- **What a text that is not read fails with**, if it is an error: that it
was cancelled, that it stands too deep, or that it cannot be read. -/
theorem cases_of_run_failed {f : Failure}
    (h : (q.run s).outcome = .failed f) (hf : f.isError = true)
    (hc : f.isCancellation = false) :
    (∃ segments, q.Reads s segments)
      ∨ ∃ t e, q.text = some t ∧ f = .error e
        ∧ Text.has s.settings.delimiters.opening t = true
        ∧ (e.offset = some q.origin
          ∨ Segment.parse s.settings.delimiters t q.origin = .error e) := by
  obtain ⟨levels, depth, trigger, origin, text, now, cancels⟩ := q
  unfold run at h
  dsimp only at h
  rw [Session.expandFrom.eq_def] at h
  dsimp only at h
  split at h
  · obtain rfl := Outcome.failed.inj h
    simp [Session.cancelledAt, Failure.isCancellation, Failure.kind?,
      Error.kind, Cause.kind] at hc
  · next hnow =>
    split at h
    · obtain rfl := Outcome.failed.inj h
      simp [Session.missingText, Failure.isError, Failure.kind?] at hf
    · next t =>
      split at h
      · simp [Run.now] at h
      · next ht =>
        have ht : Text.has s.settings.delimiters.opening t = true := by
          simpa using ht
        split at h
        · obtain rfl := Outcome.failed.inj h
          exact .inr ⟨t, _, rfl, rfl, ht, .inl rfl⟩
        · next levels =>
          split at h
          · next e hp =>
            obtain rfl := Outcome.failed.inj h
            exact .inr ⟨t, e, rfl, rfl, ht, .inr hp⟩
          · next segments hp =>
            exact .inl ⟨segments, levels.succ_ne_zero, by simpa using hnow, t,
              rfl, ht, hp⟩

end Request

end Shortcode
