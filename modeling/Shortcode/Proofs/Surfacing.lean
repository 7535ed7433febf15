import Shortcode.Proofs.Blame
import Shortcode.Proofs.Descent
import Shortcode.Proofs.Offsets

/-!
# Errors surface as they are

An error that comes out of an expansion a handler asked for is not the
handler's. If the handler lets it pass, at once or after it has done other
things, the call fails with the very same error; if the group then fails
with this call, the text fails with it; and if a text is expanded where it
stands in another one's output, that one fails with it, too. So it comes up
through any number of levels, and what the whole expansion fails with has
the kind, the name, the place, the message and the reason that the error
had at the bottom (`Session.surfaces_unchanged`).

This holds of the errors of the family. What is none of them carries no
mark: it is taken for the failure of each handler it passes
(`Session.exists_passed_reported`).
-/

namespace Shortcode

/-! ## The same error -/

/-- **The same error**, with or without the mark of having come out of an
expansion. -/
structure Failure.Same (f g : Failure) : Prop where
  mark : g = f ∨ g = f.escape
  kind : g.kind? = f.kind?
  label : g.label = f.label
  subject : g.subject = f.subject
  offset : g.offset = f.offset
  message : g.message = f.message
  expected : g.expected = f.expected
  reason : g.reason? = f.reason?

namespace Failure

theorem same_refl (f : Failure) : f.Same f :=
  ⟨.inl rfl, rfl, rfl, rfl, rfl, rfl, rfl, rfl⟩

theorem same_escape (f : Failure) : f.Same f.escape := by
  cases f <;> exact ⟨.inr rfl, rfl, rfl, rfl, rfl, rfl, rfl, rfl⟩

theorem escape_escape (f : Failure) : f.escape.escape = f.escape := by
  cases f <;> rfl

theorem hasEscaped_escape {f : Failure} (h : f.isError = true) :
    f.escape.hasEscaped = true := by
  cases f with
  | error | handlerFailed => rfl
  | fault => simp [isError, kind?] at h

/-- What comes out of an expansion that fails with an error, marked or
not, is the marked one. -/
theorem Same.escape_eq {f g : Failure} (h : f.Same g) :
    g.escape = f.escape := by
  rcases h.mark with rfl | rfl
  · rfl
  · exact f.escape_escape

end Failure

/-! ## Runs and groups -/

namespace Run

variable {α β : Type} {r : Run α} {f : Failure} {a : α}

theorem failed_mapResult (h : r.outcome = .failed f)
    (g : α → Except Failure β) : (r.mapResult g).outcome = .failed f := by
  show r.outcome.bind g = _
  rw [h]
  rfl

/-- What goes on after a result ends like what it goes on with. -/
theorem outcome_andThen (h : r.outcome = .returned a)
    {cancels : Option Moment} {next : α → Moment → Option Moment → Run β} :
    (r.andThen cancels next).outcome
      = (next a r.finish (Moment.earliest? cancels r.cancels)).outcome := by
  unfold andThen
  rw [h]
  rfl

end Run

/-! ## Errors that surface -/

namespace Request

/-- **A handler fails in a text**: it is entered, and raises a failure
before its time is up; and its group selects it, that is, ends as the
handler's call does. Which of several calls that fail a group selects is a
matter of time, and is said where groups are. -/
structure Fails (q : Request) (s : Session) (segments : List Segment)
    (inv : Invocation) (h : Handler) (start : Moment) (known : Option Moment)
    (f : Failure) : Prop where
  handler : s.registry.resolve? inv.name = some h
  entered : s.settings.maxConcurrency = 0 ∨ Moment.reached known start = false
  raises : ∃ seen stop, (h.program ⟨inv, q.depth, s.settings, s.metadata⟩).Raises
      s.cancellable (Session.escaping (q.expander s inv)) (s.entry h start)
      known seen stop f
    ∧ ∀ limit, s.limit? h = some limit →
        stop.instant < start.instant + limit
  started : (inv, start, known) ∈ q.started s segments
  selected : ∀ g, (q.memberRun s (inv, start, known)).outcome = .failed g →
    (q.group s segments).outcome = .failed g

/-- **An error surfaces from a request**: it is what comes out of it; or it
surfaces from a part of the text that is expanded again; or from a text
that a handler asks for which lets it pass, at once or later. -/
inductive Surfaces (s : Session) (f : Failure) : Request → Prop
  | here {q : Request} : (q.run s).outcome = .failed f → Surfaces s f q
  | rescanned {q : Request} {segments : List Segment}
      {produced : List (List Fragment)} {inv : Invocation}
      {text : Option Text} {asked : Moment} {heard : Option Moment} :
      q.Reads s segments →
      (q.group s segments).outcome = .returned produced →
      Session.Pends (q.expander s) inv text asked heard
        (Session.parts segments produced) (q.group s segments).finish
        (Moment.earliest? q.cancels (q.group s segments).cancels) →
      Surfaces s f (q.nested inv text asked heard) → Surfaces s f q
  | asked {q : Request} {segments : List Segment} {inv : Invocation}
      {h : Handler} {start asked : Moment} {known heard : Option Moment}
      {text : Option Text} {g : Failure} :
      q.Reads s segments →
      (h.program ⟨inv, q.depth, s.settings, s.metadata⟩).Asks s.cancellable
        (Session.escaping (q.expander s inv)) text asked heard
        (s.entry h start) known →
      Surfaces s f (q.nested inv text asked heard) →
      (Session.escaping (q.expander s inv) text asked heard).outcome
        = .failed g →
      q.Fails s segments inv h start known g → Surfaces s f q

end Request

namespace Session

variable {s : Session} {q : Request} {segments : List Segment}
  {inv : Invocation} {h : Handler} {start now : Moment}
  {known : Option Moment} {f g : Failure}

/-- Failures that came out of an expansion are reported as they are. -/
theorem report_of_hasEscaped (hf : f.hasEscaped = true) (inv : Invocation) :
    report inv f = f := by
  simp [report, hf]

/-- **A group fails with what its handler fails with.** -/
theorem group_fails (hf : q.Fails s segments inv h start known f) :
    (q.group s segments).outcome = .failed (report inv f) := by
  obtain ⟨seen, stop, hraises, htime⟩ := hf.raises
  refine hf.selected _ ?_
  unfold Request.memberRun member
  split
  · exact (invoke_raises hf.handler hraises htime).2.2
  · next hlimit =>
    rw [if_neg (by simp [hf.entered.resolve_left hlimit])]
    exact (invoke_raises hf.handler hraises htime).2.2

/-- **A text fails with what a part of it fails with** that is expanded
again. -/
theorem splice_fails {expander : Invocation → Expander} {text : Option Text}
    {asked : Moment} {heard : Option Moment} {ps : List Part}
    (hp : Pends expander inv text asked heard ps now known)
    (hf : (expander inv text asked heard).outcome = .failed f) :
    (splice expander ps now known).outcome = .failed f := by
  induction hp with
  | here =>
    rw [splice]
    unfold Run.andThen
    rw [hf]
    rfl
  | ready _ ih =>
    rw [splice]
    exact Run.failed_mapResult ih _
  | behind ho _ ih =>
    rw [splice, Run.outcome_andThen ho]
    exact Run.failed_mapResult ih _

/-- **What surfaces from a request, the request fails with.** -/
theorem run_surfaces (hf : f.isError = true) (hq : q.Surfaces s f) :
    ∃ g, (q.run s).outcome = .failed g ∧ f.Same g := by
  induction hq with
  | here ho => exact ⟨f, ho, f.same_refl⟩
  | @rescanned q segments produced inv text asked heard hr hg hp _ ih =>
    obtain ⟨g, ho, hsame⟩ := ih
    refine ⟨g, ?_, hsame⟩
    rw [hr.run_eq]
    show ((q.group s segments).andThen q.cancels fun produced now cancels =>
      (splice (q.expander s) (parts segments produced) now cancels).mapResult
        concat).outcome = _
    rw [Run.outcome_andThen hg]
    exact Run.failed_mapResult (splice_fails hp ho) _
  | @asked q segments inv h start asked known heard text g hr _ _ hout hfails
      ih =>
    -- what comes out is marked, and so the handler's failure is not reported
    obtain ⟨g', ho, hsame⟩ := ih
    obtain ⟨g'', ho', rfl⟩ := Outcome.mapFailure_eq_failed_iff.mp hout
    obtain rfl := Outcome.failed.inj (ho'.symm.trans ho)
    have hgroup := group_fails hfails
    rw [hsame.escape_eq, report_of_hasEscaped (Failure.hasEscaped_escape hf)]
      at hgroup
    refine ⟨f.escape, ?_, f.same_escape⟩
    rw [hr.run_eq]
    show ((q.group s segments).andThen q.cancels _).outcome = _
    unfold Run.andThen
    rw [hgroup]
    rfl

/-- A call fails as its handler does, or because its time is up. -/
theorem call_failed {hd : Handler} {depth : Nat} {e : Expander}
    {cleared : Moment}
    (h : (s.call hd inv depth e cleared now known).outcome = .failed f) :
    (s.enter hd inv depth e cleared now (s.entry hd now) known).outcome
        = .failed f
      ∨ f = report inv (.fault .timeout []) := by
  cases hlimit : s.limit? hd with
  | none =>
    rw [call_of_none hlimit] at h
    rw [entry_of_none hlimit]
    exact .inl h
  | some time =>
    rw [call_of_some hlimit, Run.outcome_waitedFor] at h
    rw [entry_of_some hlimit]
    split at h
    · exact .inl h
    · exact .inr (Outcome.failed.inj h).symm

/-- **Who is blamed.** A call that fails with a report that has no mark
reports its own handler, for a reason that is none of the errors that came
out of the expansions the handler had asked for. -/
theorem own_of_handlerFailed {depth : Nat} {e : Expander} {cleared : Moment}
    {name : Text} {offset : Int} {reason : Failure} (he : e.Marking)
    (ho : (s.invoke inv depth e cleared now known).outcome
      = .failed (.handlerFailed name offset reason)) :
    name = inv.name ∧ offset = inv.offset
      ∧ (reason.isError = true → ∀ h seen stop,
        s.registry.resolve? inv.name = some h →
        (h.program ⟨inv, depth, s.settings, s.metadata⟩).Raises s.cancellable
          e (s.entry h now) known seen stop reason → reason ∉ seen) := by
  unfold invoke at ho
  split at ho
  · simp [Run.now] at ho
  · next h hr =>
    obtain ⟨f, hf⟩ : ∃ f, report inv f = .handlerFailed name offset reason := by
      rcases call_failed ho with henter | hlate
      · obtain ⟨f, -, hf⟩ := Outcome.mapFailure_eq_failed_iff.mp henter
        exact ⟨f, hf⟩
      · exact ⟨_, hlate.symm⟩
    unfold report at hf
    split at hf
    · -- what is not reported is marked, or a cancellation
      next hpass =>
      rw [hf] at hpass
      simp [Failure.hasEscaped, Failure.isCancellation, Failure.kind?] at hpass
    · next hown =>
      obtain ⟨rfl, rfl, rfl, -⟩ := Failure.handlerFailed.inj hf
      refine ⟨rfl, rfl, fun herr h' seen stop _ hraises hmem => ?_⟩
      have hmark := hraises.marked he f hmem herr
      simp [hmark] at hown

/-- **Errors surface as they are.** What surfaces from a request, through
any number of levels, the request fails with, and so does the expansion of
a document. A handler that lets pass what came out of an expansion, at once
or later, has its call fail with just that. And a handler's failure is
reported once: the reason of a report is none of the errors that came out
of the expansions the handler had asked for. -/
theorem surfaces_unchanged (s : Session) :
    (∀ (q : Request) f, f.isError = true → q.Surfaces s f →
        ∃ g, (q.run s).outcome = .failed g ∧ f.Same g)
      ∧ (∀ text now cancels f, f.isError = true → text ≠ [] →
        (Request.whole s text now cancels).Surfaces s f →
        ∃ g, (s.expand text now cancels).outcome = .failed g ∧ f.Same g)
      ∧ (∀ inv h depth e cleared now known seen stop f,
        s.registry.resolve? inv.name = some h →
        (h.program ⟨inv, depth, s.settings, s.metadata⟩).Raises s.cancellable
          (escaping e) (s.entry h now) known seen stop f →
        (∀ limit, s.limit? h = some limit →
          stop.instant < now.instant + limit) →
        f ∈ seen → f.isError = true →
        (s.invoke inv depth (escaping e) cleared now known).outcome
          = .failed f)
      ∧ ∀ inv depth e cleared now known name offset reason,
        (s.invoke inv depth (escaping e) cleared now known).outcome
          = .failed (.handlerFailed name offset reason) →
        name = inv.name ∧ offset = inv.offset
          ∧ (reason.isError = true → ∀ h seen stop,
            s.registry.resolve? inv.name = some h →
            (h.program ⟨inv, depth, s.settings, s.metadata⟩).Raises
              s.cancellable (escaping e) (s.entry h now) known seen stop
              reason → reason ∉ seen) := by
  refine ⟨fun q f hf hq => run_surfaces hf hq,
    fun text now cancels f hf hne hq => ?_,
    fun inv h depth e cleared now known seen stop f hr hraises htime hmem
      hf => ?_,
    fun inv depth e cleared now known name offset reason ho =>
      own_of_handlerFailed (marking_escaping e) ho⟩
  · unfold expand
    rw [if_neg (by simpa using hne)]
    exact run_surfaces hf hq
  · have hmark := hraises.marked (marking_escaping e) f hmem hf
    rw [(invoke_raises hr hraises htime).2.2, report_of_hasEscaped hmark]

/-- A handler that asks for the body and lets pass what it fails with. -/
theorem exists_ask (inv : Invocation) (hname : inv.name = "ask".toList) :
    ∃ h, wrapping.registry.resolve? inv.name = some h
      ∧ ∀ depth e start known,
        let p := h.program ⟨inv, depth, wrapping.settings, wrapping.metadata⟩
        p.Asks false e inv.body start known start known
          ∧ ∀ g, (e inv.body start known).outcome = .failed g →
            p.Raises false e start known [g] (e inv.body start known).finish
              g := by
  rw [hname]
  exact ⟨_, rfl, fun _ _ _ _ => ⟨.here, fun _ hg => .failed hg .fail⟩⟩

/-- What surfaces from a body that is asked for surfaces from the text. -/
theorem surfaces_ask {q : Request} (inv : Invocation) (start : Moment)
    {f : Failure} (hf : f.isError = true)
    (hq : q.Reads wrapping [.invocation inv])
    (hname : inv.name = "ask".toList)
    (hstarted : q.started wrapping [.invocation inv] = [(inv, start, none)])
    (hquiet : q.cancels = none
      ∧ (q.memberRun wrapping (inv, start, none)).cancels = none)
    (hs : (q.nested inv inv.body start none).Surfaces wrapping f) :
    q.Surfaces wrapping f := by
  obtain ⟨g, ho, -⟩ := run_surfaces hf hs
  have hout : (escaping (q.expander wrapping inv) inv.body start none).outcome
      = .failed g.escape := Outcome.mapFailure_eq_failed_iff.mpr ⟨g, ho, rfl⟩
  obtain ⟨h, hr, hraises⟩ := exists_ask inv hname
  have hlimit : wrapping.limit? h = none := limit?_of_timeLimit_eq_none rfl
  obtain ⟨hasks, hraises⟩ :=
    hraises q.depth (escaping (q.expander wrapping inv)) start none
  have hentry : wrapping.entry h start = start := entry_of_none hlimit
  refine .asked hq (hentry.symm ▸ hasks) hs hout
    ⟨hr, .inr rfl, ⟨_, _, hentry.symm ▸ hraises _ hout, fun limit ht => ?_⟩,
      by rw [hstarted]; exact List.mem_singleton_self _, fun g hg => ?_⟩
  · rw [hlimit] at ht
    cases ht
  · -- the group has no other member
    have hruns : q.memberRuns wrapping [.invocation inv]
        = [q.memberRun wrapping (inv, start, none)] := by
      rw [Request.memberRuns_eq, hstarted]
      rfl
    obtain ⟨hc, hrequest⟩ := hquiet
    rw [hq.group_eq rfl]
    let g' := q.gathering wrapping [.invocation inv] (cancelledAt inv.offset)
    have hsettles : Group.Settles g'.runs g'.run :=
      Group.Gathering.settles
        (called_members (q.orderly_escaping wrapping) _ _ _ _)
        (Group.Gathering.request_eq_none hc fun r hr => ?_) (.inr ⟨_, hruns⟩)
    · have houtcome : g'.run.outcome = Group.results [_] :=
        hsettles.outcome.trans (congrArg Group.results hruns)
      rw [houtcome, Group.results, hg]
    · rw [show g'.runs = _ from hruns, List.mem_singleton] at hr
      exact hr ▸ hrequest

/-- A shortcode that nobody knows, in a body that is asked for in a body
that is asked for in a body that is expanded again: what comes up is the
error it is at the bottom. -/
theorem surfaces_unchanged_wrapping :
    let content :=
      "<%again%><%ask%><%ask%>c<%gone/%><%/ask%><%/ask%><%/again%>".toList
    let f : Failure :=
      .error ⟨.unknownShortcode, some "gone".toList, some 24⟩
    (f.isError = true ∧ content ≠ []
        ∧ (Request.whole wrapping content ⟨0, 0⟩ none).Surfaces wrapping f)
      ∧ ∃ g, (wrapping.expand content ⟨0, 0⟩ none).outcome = .failed g
        ∧ f.Same g := by
  intro content f
  let inner := "<%ask%>c<%gone/%><%/ask%>".toList
  let middle := "<%ask%>".toList ++ inner ++ "<%/ask%>".toList
  let bottom : Invocation :=
    ⟨"ask".toList, [], some ⟨"c<%gone/%>".toList, 7⟩, 0, 25, 16⟩
  let above : Invocation := ⟨"ask".toList, [], some ⟨inner, 7⟩, 0, 40, 9⟩
  let top : Invocation := ⟨"again".toList, [], some ⟨middle, 9⟩, 0, 59, 0⟩
  have hreads : ∀ {q : Request} {t : Text} {inv : Invocation},
      q.levels ≠ 0 ∧ q.cancels = none → q.text = some t →
      Text.has "<%".toList t = true →
      (Segment.parse {} t q.origin).toOption = some [.invocation inv] →
      q.Reads wrapping [.invocation inv] := by
    rintro q t inv ⟨hlevels, hcancels⟩ ht hhas hp
    exact ⟨hlevels, by rw [hcancels]; rfl, t, ht, hhas,
      Segment.parse_eq_ok_of_toOption hp⟩
  let q := Request.whole wrapping content ⟨0, 0⟩ none
  have hs : q.Surfaces wrapping f := by
    have hgroup : (q.group wrapping [.invocation top]).outcome
        = .returned [[⟨some middle, true⟩]] :=
      Outcome.result?_eq_some_iff.mp (by decide +kernel)
    refine .rescanned (hreads ⟨by decide, rfl⟩ rfl (by decide)
      (by decide +kernel)) hgroup .here ?_
    refine surfaces_ask above ⟨0, 6⟩ rfl
      (hreads ⟨by decide, by decide +kernel⟩ rfl (by decide +kernel)
        (by decide +kernel))
      rfl (by decide +kernel)
      ⟨by decide +kernel, by decide +kernel⟩ ?_
    refine surfaces_ask bottom ⟨0, 7⟩ rfl
      (hreads ⟨by decide, rfl⟩ rfl (by decide +kernel) (by decide +kernel))
      rfl (by decide +kernel) ⟨rfl, by decide +kernel⟩ (.here ?_)
    cbv
  obtain ⟨-, hdocument, -⟩ := surfaces_unchanged wrapping
  exact ⟨⟨rfl, by decide, hs⟩,
    hdocument content ⟨0, 0⟩ none f rfl (by decide) hs⟩

/-- **What is no error of the family is taken for the handler's failure**
when it has come out of an expansion: here of a text in which a handler
asks for nothing to be expanded. -/
theorem exists_passed_reported :
    let text := "<%again/%>".toList
    let inv : Invocation := ⟨"ask".toList, [], some ⟨text, 7⟩, 0, 25, 0⟩
    let e : Expander := escaping fun text =>
      wrapping.expandFrom 20 1 (some inv.name)
        ((text.map inv.originOf).getD inv.offset) text
    ∃ h f, wrapping.registry.resolve? inv.name = some h
      ∧ f.label = "TypeError" ∧ (e (some text) ⟨0, 1⟩ none).outcome = .failed f
      ∧ (∃ stop, (h.program ⟨inv, 0, wrapping.settings,
        wrapping.metadata⟩).Raises false e ⟨0, 1⟩ none [f] stop f)
      ∧ (wrapping.invoke inv 0 e ⟨0, 1⟩ ⟨0, 1⟩ none).outcome
        = .failed (.handlerFailed "ask".toList 0 f) := by
  intro text inv e
  have hlabel : (e (some text) ⟨0, 1⟩ none).outcome.failure?.map
      (fun f => (f.label, f.hasEscaped || f.isCancellation))
        = some ("TypeError", false) := by
    decide +kernel
  obtain ⟨f, hf, hpair⟩ := Option.map_eq_some_iff.mp hlabel
  obtain ⟨hname, hown⟩ := Prod.mk.inj hpair
  have ho := Outcome.failure?_eq_some_iff.mp hf
  obtain ⟨h, hr, hask⟩ := exists_ask inv rfl
  have hraises := (hask 0 e ⟨0, 1⟩ none).2 f ho
  refine ⟨h, f, hr, hname, ho, ⟨_, hraises⟩, ?_⟩
  have hlimit : wrapping.limit? h = none := limit?_of_timeLimit_eq_none rfl
  have hentry : wrapping.entry h ⟨0, 1⟩ = ⟨0, 1⟩ := entry_of_none hlimit
  -- the handler lets it pass, and is blamed
  have hreport : (wrapping.invoke inv 0 e ⟨0, 1⟩ ⟨0, 1⟩ none).outcome
      = .failed (report inv f) :=
    (invoke_raises hr (hentry.symm ▸ hraises)
      fun limit ht => by rw [hlimit] at ht; cases ht).2.2
  rw [hreport]
  unfold report
  rw [hown]
  rfl

end Session

end Shortcode
