import Shortcode.Proofs.Places
import Shortcode.Proofs.Requests
import Shortcode.Proofs.Timeline

/-!
# Positions that expansions tell

An invocation that is found in a body of a body is called with positions of
the document, however deep it is: each text that is expanded is given its
own position, and the invocations in it are told theirs from there. This
holds as long as handlers have nothing expanded but the bodies of their
blocks, whichever way they go: that they ask for it while they run, or
that they leave it in their output. Any other text has no place in the
document.

So every handler is called in place, and what an expansion fails with is
told by a place in the document (`Session.placed_expand`): an unknown
shortcode and a handler that fails by the front of the tag, an argument
that is wrong by a position inside the tag it belongs to.

What a handler fails with is reported by the place of its invocation, but
for a failure that has escaped from an expansion it asked for. That one
was reported before. A handler could make up a failure that looks like it,
so these are told truly only if handlers are honest (`Session.Honest`).
-/

namespace Shortcode

/-! ## Handlers -/

/-- **A program that has only one text expanded**, while it runs or in its
output, whatever its requests are answered. -/
def Program.ExpandsOnly (text : Option Text) : Program → Prop
  | .finish output => ∀ fs, output.fragments = .ok fs →
      ∀ f ∈ fs, f.rescan = true → f.text = text
  | .fail _ | .interrupt _ => True
  | .sleep _ next | .cancel next => next.ExpandsOnly text
  | .expand asked next =>
    asked = text ∧ ∀ answer, (next answer).ExpandsOnly text
  | .askCancelled next => ∀ b, (next b).ExpandsOnly text

/-- **An honest program**: if it fails with a failure that has escaped from
an expansion, this is one it was answered before, or one of those it has
heard already. -/
def Program.Honest : List Failure → Program → Prop
  | _, .finish _ | _, .interrupt _ => True
  | heard, .fail f => f.hasEscaped = true → f ∈ heard
  | heard, .sleep _ next | heard, .cancel next => next.Honest heard
  | heard, .expand _ next =>
    (∀ t, (next (.ok t)).Honest heard)
      ∧ ∀ f, (next (.error f)).Honest (f :: heard)
  | heard, .askCancelled next => ∀ b, (next b).Honest heard

namespace Session

/-- Handlers that have nothing expanded but the bodies of their blocks. -/
def ExpandsBodies (s : Session) : Prop :=
  ∀ name h, s.registry.resolve? name = some h →
    ∀ v, (h.program v).ExpandsOnly v.invocation.body

/-- Handlers that are honest. -/
def Honest (s : Session) : Prop :=
  ∀ name h, s.registry.resolve? name = some h → ∀ v, (h.program v).Honest []

end Session

/-! ## Failures -/

/-- **A failure that tells a place in a document**: the place of an
invocation, if its shortcode is unknown or its handler has failed, and a
position inside a tag, if an argument of it is wrong. -/
def Failure.Located (d : Delimiters) (content : Text) : Failure → Prop
  | .error e _ =>
    (e.kind = .unknownShortcode → ∃ inv : Invocation, inv.InPlace d content
        ∧ e.name = some inv.name ∧ e.offset = some inv.offset)
      ∧ (e.kind = .malformedArgument →
        ∃ t ∈ Lexeme.placed 0 (Lexeme.scan d content).lexemes,
          t.form ≠ .closing ∧ e.PointsInto t)
  | .handlerFailed name offset _ _ =>
    ∃ inv : Invocation, inv.InPlace d content ∧ name = inv.name
      ∧ offset = inv.offset
  | .fault .. => True

namespace Failure

variable {d : Delimiters} {content : Text}

theorem located_of_ofReading {e : Error} (h : e.OfReading
    (Lexeme.placed 0 (Lexeme.scan d content).lexemes)) (escaped : Bool) :
    Located d content (.error e escaped) := by
  rcases h with h | h | ⟨h, ht⟩
  · exact ⟨by simp [h], by simp [h]⟩
  · exact ⟨by simp [h], by simp [h]⟩
  · exact ⟨by simp [h], fun _ => ht⟩

theorem located_of_isCancellation {f : Failure} (h : f.isCancellation = true) :
    f.Located d content := by
  cases f with
  | error e _ =>
    have hk : e.kind = .expansionCancelled := by
      simpa [isCancellation, kind?] using h
    exact ⟨by simp [hk], by simp [hk]⟩
  | handlerFailed => simp [isCancellation, kind?] at h
  | fault => trivial

theorem located_escape {f : Failure} :
    f.escape.Located d content ↔ f.Located d content := by
  cases f <;> rfl

end Failure

/-- **A failure of an expansion is located**, if it did not escape from one
that a handler asked for, or if handlers are honest. -/
def Session.Locates (s : Session) (content : Text) (f : Failure) : Prop :=
  f.hasEscaped = false ∨ s.Honest →
    f.Located s.settings.delimiters content

/-! ## Runs in a document -/

/-- **A run in a document**: its handlers are called in place, and what it
returns and fails with is as it should be. -/
structure Run.Placed {α : Type} (s : Session) (content : Text)
    (returns : α → Prop) (fails : Failure → Prop) (r : Run α) : Prop where
  calls : ∀ c ∈ r.calls,
    c.invocation.InPlace s.settings.delimiters content
  returned : ∀ a, r.outcome = .returned a → returns a
  failed : ∀ f, r.outcome = .failed f → fails f

/-- An expander whose runs on one text are placed. -/
def Expander.Placed (s : Session) (content : Text) (text : Option Text)
    (e : Expander) : Prop :=
  ∀ now cancels, (e text now cancels).Placed s content (fun _ => True)
    (s.Locates content)

variable {s : Session} {content : Text}

namespace Run

variable {α β : Type} {returns : α → Prop} {returns' : β → Prop}
  {fails fails' : Failure → Prop} {r : Run α}

theorem placed_returned {a : α} (h : returns a) (now : Moment) :
    (Run.now now (.returned a)).Placed s content returns fails :=
  ⟨by simp [Run.now], fun _ ha => Outcome.returned.inj ha ▸ h,
    by simp [Run.now]⟩

theorem placed_failed {f : Failure} (h : fails f) (now : Moment) :
    (Run.now now (.failed f)).Placed s content returns fails :=
  ⟨by simp [Run.now], by simp [Run.now],
    fun _ hf => Outcome.failed.inj hf ▸ h⟩

theorem placed_tooDeep {f : Failure} (h : fails f) (now : Moment) :
    (Run.tooDeep now f : Run α).Placed s content returns fails :=
  ⟨by simp [Run.tooDeep], by simp [Run.tooDeep],
    fun _ hf => Outcome.failed.inj hf ▸ h⟩

theorem Placed.after {r' : Run β} (h : r.Placed s content returns fails)
    (h' : r'.Placed s content returns' fails') :
    (r.after r').Placed s content returns' fails' :=
  ⟨List.forall_mem_append.mpr ⟨h.calls, h'.calls⟩, h'.returned, h'.failed⟩

theorem Placed.behind {start : Moment} (h : r.Placed s content returns fails) :
    (r.behind start).Placed s content returns fails :=
  ⟨h.calls, h.returned, h.failed⟩

/-- What is left of calls was made in place, too. -/
theorem Placed.kept {calls : List Call} (h : r.Placed s content returns fails)
    (hk : Call.Kept calls r.calls) :
    ∀ d ∈ calls, d.invocation.InPlace s.settings.delimiters content := by
  intro d hd
  obtain ⟨c, hc, hcut⟩ := hk.exists_of_mem hd
  exact hcut.invocation_eq ▸ h.calls c hc

/-- A run that is waited for ends as it is, or its time is up. -/
theorem Placed.waitedFor (h : r.Placed s content returns fails)
    (now : Moment) (time : Nat) {late : Failure} (hlate : fails late) :
    (r.waitedFor now time (.failed late)).Placed s content returns fails := by
  refine ⟨h.kept (r.kept_waitedFor now time _), fun a ha => ?_, fun f hf => ?_⟩
  · rw [outcome_waitedFor] at ha
    split at ha
    · exact h.returned a ha
    · simp at ha
  · rw [outcome_waitedFor] at hf
    split at hf
    · exact h.failed f hf
    · exact Outcome.failed.inj hf ▸ hlate

theorem Placed.mapResult (h : r.Placed s content returns fails)
    {f : α → Except Failure β}
    (hok : ∀ a b, returns a → f a = .ok b → returns' b)
    (herror : ∀ a e, returns a → f a = .error e → fails e) :
    (r.mapResult f).Placed s content returns' fails := by
  refine ⟨h.calls, fun b hb => ?_, fun e he => ?_⟩
  · obtain ⟨a, ha, hf⟩ := Outcome.bind_eq_returned_iff.mp hb
    exact hok a b (h.returned a ha) hf
  · rcases Outcome.bind_eq_failed_iff.mp he with ho | ⟨a, ha, hf⟩
    · exact h.failed e ho
    · exact herror a e (h.returned a ha) hf

theorem Placed.mapFailure (h : r.Placed s content returns fails)
    {f : Failure → Failure} (hf : ∀ g, fails g → fails' (f g)) :
    (r.mapFailure f).Placed s content returns fails' := by
  refine ⟨h.calls, fun a ha => ?_, fun e he => ?_⟩
  · exact h.returned a (Outcome.mapFailure_eq_returned_iff.mp ha)
  · obtain ⟨g, hg, rfl⟩ := Outcome.mapFailure_eq_failed_iff.mp he
    exact hf g (h.failed g hg)

theorem Placed.andThen {cancels : Option Moment}
    {next : α → Moment → Option Moment → Run β}
    (h : r.Placed s content returns fails)
    (hn : ∀ a m known, returns a →
      (next a m known).Placed s content returns' fails) :
    (r.andThen cancels next).Placed s content returns' fails := by
  unfold Run.andThen
  split
  · next a ha => exact h.after (hn a _ _ (h.returned a ha))
  · next f hf =>
    exact ⟨h.calls, by simp [withOutcome],
      fun g hg => Outcome.failed.inj hg ▸ h.failed f hf⟩
  · exact ⟨h.calls, by simp [withOutcome], by simp [withOutcome]⟩

end Run

/-! ## Calls of handlers -/

/-- **A program runs in place** that has only one text expanded. -/
theorem Program.placed_run {p : Program} {text : Option Text} {e : Expander}
    {heard : List Failure} (hp : p.ExpandsOnly text)
    (hh : s.Honest → p.Honest heard)
    (hl : s.Honest → ∀ f ∈ heard, f.Located s.settings.delimiters content)
    (he : e.Placed s content text) (b : Bool) (now : Moment)
    (cancels : Option Moment) :
    (p.run b e now cancels).Placed s content
      (fun output => ∀ fs, output.fragments = .ok fs →
        ∀ f ∈ fs, f.rescan = true → f.text = text)
      (fun f => f.hasEscaped = true → s.Honest →
        f.Located s.settings.delimiters content) := by
  induction p generalizing heard now cancels with
  | finish output =>
    refine Run.placed_returned ?_ now
    exact hp
  | fail f => exact Run.placed_failed (fun hf hs => hl hs f (hh hs hf)) now
  | interrupt => exact ⟨by simp [run, Run.now], by simp [run, Run.now],
      by simp [run, Run.now]⟩
  | sleep time next ih => exact (ih hp hh hl _ _).behind
  | cancel next ih =>
    rw [run]
    split
    · have h := ih hp hh hl now (Moment.earliest? cancels (some now))
      exact ⟨h.calls, h.returned, h.failed⟩
    · exact ih hp hh hl now cancels
  | askCancelled next ih =>
    exact ih _ (hp _) (fun hs => hh hs _) hl now cancels
  | expand asked next ih =>
    obtain ⟨rfl, hnext⟩ := hp
    have h := he now cancels
    rw [run]
    split
    · exact h.after (ih _ (hnext _) (fun hs => (hh hs).1 _) hl _ _)
    · next f hf =>
      -- an honest handler has heard of this failure now
      refine h.after (ih _ (hnext _) (fun hs => (hh hs).2 f) (fun hs => ?_)
        _ _)
      exact List.forall_mem_cons.mpr ⟨h.failed f hf (.inr hs), hl hs⟩
    · exact ⟨h.calls, by simp [Run.withOutcome], by simp [Run.withOutcome]⟩

theorem Output.hasEscaped_of_fragments {o : Output} {f : Failure}
    (h : o.fragments = .error f) : f.hasEscaped = false := by
  unfold fragments at h
  split at h
  · simp at h
  · simp at h
  · split at h
    · simp at h
    · obtain rfl := Except.error.inj h
      rfl
  · obtain rfl := Except.error.inj h
    rfl

namespace Session

variable {depth : Nat} {inv : Invocation} {e : Expander}
  {expander : Invocation → Expander}

/-- What the handler of an invocation may return: fragments of which none
but its body is expanded again. -/
def Returns (inv : Invocation) (fs : List Fragment) : Prop :=
  ∀ f ∈ fs, f.rescan = true → f.text = inv.body

theorem locates_cancelledAt (offset : Int) :
    s.Locates content (cancelledAt offset) :=
  fun _ => Failure.located_of_isCancellation rfl

/-- **A handler's failure is reported in place**, unless it was reported
before. -/
theorem locates_report
    (hinv : inv.InPlace s.settings.delimiters content) {f : Failure}
    (hf : f.hasEscaped = true → s.Honest →
      f.Located s.settings.delimiters content) :
    s.Locates content (report inv f) := by
  intro h
  unfold report at h ⊢
  split
  · next hr =>
    rw [if_pos hr] at h
    cases hesc : f.hasEscaped with
    | true => exact hf hesc (h.resolve_left (by simp [hesc]))
    | false =>
      exact Failure.located_of_isCancellation (by simpa [hesc] using hr)
  · exact ⟨inv, hinv, rfl, rfl⟩

/-- The fragments that a handler's output consists of, and its failure as
it is reported. -/
theorem placed_reported
    (hinv : inv.InPlace s.settings.delimiters content) {r : Run Output}
    (h : r.Placed s content
      (fun output => ∀ fs, output.fragments = .ok fs → Returns inv fs)
      fun f => f.hasEscaped = true → s.Honest →
        f.Located s.settings.delimiters content) :
    ((r.mapResult Output.fragments).mapFailure (report inv)).Placed s content
      (Returns inv) (s.Locates content) := by
  have hfragments := h.mapResult (fun _ fs ho hfs => ho fs hfs)
    fun _ _ _ hf => by simp [Output.hasEscaped_of_fragments hf]
  exact hfragments.mapFailure fun f hf => locates_report hinv hf

/-- A handler is called in place. -/
theorem placed_enter (hs : s.ExpandsBodies)
    (hinv : inv.InPlace s.settings.delimiters content)
    (he : e.Placed s content inv.body) (depth : Nat) {h : Handler}
    (hr : s.registry.resolve? inv.name = some h)
    (cleared started entered : Moment) (cancels : Option Moment) :
    (s.enter h inv depth e cleared started entered cancels).Placed s content
      (Returns inv) (s.Locates content) := by
  have hrun := Program.placed_run
    (hs _ h hr ⟨inv, depth, s.settings, s.metadata⟩)
    (fun hh => hh _ h hr _) (fun _ => List.forall_mem_nil _) he
    s.cancellable entered cancels
  have hcall := placed_reported hinv hrun
  exact ⟨List.forall_mem_cons.mpr ⟨hinv, hcall.calls⟩, hcall.returned,
    hcall.failed⟩

/-- **An invocation in place runs in place.** -/
theorem placed_invoke (hs : s.ExpandsBodies)
    (hinv : inv.InPlace s.settings.delimiters content)
    (he : e.Placed s content inv.body) (depth : Nat)
    (cleared now : Moment) (cancels : Option Moment) :
    (s.invoke inv depth e cleared now cancels).Placed s content (Returns inv)
      (s.Locates content) := by
  unfold invoke
  split
  · refine Run.placed_failed (fun _ => ⟨fun _ => ?_, by simp [Error.kind,
      Cause.kind]⟩) now
    exact ⟨inv, hinv, rfl, rfl⟩
  · next h hr =>
    cases hlimit : s.limit? h with
    | none =>
      rw [call_of_none hlimit]
      exact placed_enter hs hinv he depth hr cleared now now cancels
    | some time =>
      rw [call_of_some hlimit]
      exact (placed_enter hs hinv he depth hr cleared now now.next
        cancels).waitedFor now time
          (locates_report hinv (by simp [Failure.hasEscaped]))

theorem placed_member (hs : s.ExpandsBodies)
    (hinv : inv.InPlace s.settings.delimiters content)
    (he : (expander inv).Placed s content inv.body) (depth : Nat)
    (called start : Moment) (cancels : Option Moment) :
    (s.member depth expander called inv start cancels).Placed s content
      (Returns inv) (s.Locates content) := by
  unfold member
  refine Run.Placed.behind (Run.Placed.behind ?_)
  split
  · exact placed_invoke hs hinv he _ _ _ _
  · split
    · exact Run.placed_failed (locates_cancelledAt _) _
    · exact placed_invoke hs hinv he _ _ _ _

end Session

/-! ## Groups -/

namespace Group

variable {ι α : Type} {runs : List (Run α)} {g : Gathering α}

theorem returns_of_placed {returns : ι → α → Prop} {fails : Failure → Prop}
    {xs : List ι} {as : List α}
    (hr : List.Forall₂ (fun x r => r.Placed s content (returns x) fails)
      xs runs)
    (h : List.Forall₂ (fun r a => r.outcome = .returned a) runs as) :
    List.Forall₂ returns xs as := by
  induction hr generalizing as with
  | nil =>
    cases h
    exact .nil
  | cons hx _ ih =>
    cases h with
    | cons ha hrest => exact .cons (hx.returned _ ha) (ih hrest)

/-- **A group runs in place** if its members do. What it returns is what
they return, and what it fails with is a failure of one of them, or that
it was cancelled. -/
theorem Gathering.placed_run {returns : ι → α → Prop} {fails : Failure → Prop}
    {xs : List ι} (hc : fails g.cancelled)
    (hr : List.Forall₂ (fun x r => r.Placed s content (returns x) fails)
      xs g.runs) :
    g.run.Placed s content (fun as => List.Forall₂ returns xs as) fails := by
  refine ⟨fun d hd => ?_, fun as has =>
    returns_of_placed hr (waited_of_returned has).2.2, fun f hf => ?_⟩
  · obtain ⟨c, hmem, hcut⟩ := g.kept_run.exists_of_mem hd
    obtain ⟨r, hrun, hmem⟩ := List.mem_flatMap.mp hmem
    obtain ⟨x, -, h⟩ := exists_of_forall₂ hr r hrun
    exact hcut.invocation_eq ▸ h.calls c hmem
  · rcases exists_of_failed hf with rfl | ⟨r, hrun, ho⟩
    · exact hc
    · obtain ⟨x, -, h⟩ := exists_of_forall₂ hr r hrun
      exact h.failed f ho

end Group

/-! ## Expansions -/

namespace Session

variable {depth : Nat} {expander : Invocation → Expander}
  {segments : List Segment}

theorem placed_invokeAll (hs : s.ExpandsBodies) {invs : List Invocation}
    (hinv : ∀ inv ∈ invs, inv.InPlace s.settings.delimiters content)
    (he : ∀ inv ∈ invs, (expander inv).Placed s content inv.body)
    (depth : Nat) (now : Moment) (cancels : Option Moment) :
    (s.invokeAll invs depth expander now cancels).Placed s content
      (fun produced => List.Forall₂ Returns invs produced)
      (s.Locates content) := by
  have hboth : ∀ inv ∈ invs, inv.InPlace s.settings.delimiters content
      ∧ (expander inv).Placed s content inv.body :=
    fun inv h => ⟨hinv inv h, he inv h⟩
  unfold invokeAll
  split
  · exact Run.placed_returned .nil now
  · split
    · exact Run.placed_failed (locates_cancelledAt _) now
    · next first rest _ =>
      -- what the members know of cancellations does not matter here
      have h := Group.exists_start s.settings.maxConcurrency now.next cancels
        ((first :: rest).map (s.member depth expander now)) (fun _ => True)
        trivial (fun _ _ _ _ _ _ _ => trivial) []
      rw [List.forall₂_map_left_iff] at h
      refine Group.Gathering.placed_run (locates_cancelledAt _) ?_
      refine ((List.forall₂_and_left _ _).mpr ⟨hboth, h⟩).imp ?_
      rintro inv _ ⟨⟨hinv, he⟩, start, known, -, -, -, rfl⟩
      exact placed_member hs hinv he depth now start known

/-- What is pending among the parts of a text is a fragment of one of its
invocations. -/
theorem exists_of_mem_parts {R : Invocation → List Fragment → Prop}
    {produced : List (List Fragment)}
    (h : List.Forall₂ R (Segment.invocations segments) produced)
    {inv : Invocation} {t : Option Text}
    (hp : .pending inv t ∈ parts segments produced) :
    inv ∈ Segment.invocations segments
      ∧ ∃ fs, R inv fs ∧ ∃ f ∈ fs, f.rescan = true ∧ f.text = t := by
  induction segments generalizing produced with
  | nil => simp [parts] at hp
  | cons segment rest ih =>
    cases segment with
    | literal text start =>
      rw [parts] at hp
      exact ih h (List.mem_of_ne_of_mem (by simp) hp)
    | invocation inv' =>
      cases h with
      | @cons _ fs _ produced hfs hrest =>
        rw [parts] at hp
        rcases List.mem_append.mp hp with hp | hp
        · obtain ⟨f, hf, he⟩ := List.mem_map.mp hp
          unfold partOf at he
          split at he
          · next hrescan =>
            obtain ⟨rfl, rfl⟩ := Part.pending.inj he
            exact ⟨List.mem_cons_self, fs, hfs, f, hf, hrescan, rfl⟩
          · simp at he
        · obtain ⟨hmem, hfragment⟩ := ih hrest hp
          exact ⟨List.mem_cons_of_mem _ hmem, hfragment⟩

/-- If handlers return no other one to be expanded, it is the body of the
invocation. -/
theorem eq_body_of_mem_parts {produced : List (List Fragment)}
    (h : List.Forall₂ Returns (Segment.invocations segments) produced)
    {inv : Invocation} {t : Option Text}
    (hp : .pending inv t ∈ parts segments produced) :
    inv ∈ Segment.invocations segments ∧ t = inv.body := by
  obtain ⟨hmem, fs, hfs, f, hf, hrescan, rfl⟩ := exists_of_mem_parts h hp
  exact ⟨hmem, hfs f hf hrescan⟩

theorem placed_splice {ps : List Part}
    (he : ∀ inv t, .pending inv t ∈ ps →
      (expander inv).Placed s content t) (now : Moment)
    (cancels : Option Moment) :
    (splice expander ps now cancels).Placed s content (fun _ => True)
      (s.Locates content) := by
  induction ps generalizing now cancels with
  | nil => exact Run.placed_returned trivial now
  | cons part rest ih =>
    have hrest := ih fun inv t h => he inv t (List.mem_cons_of_mem _ h)
    cases part with
    | ready t =>
      exact (hrest now cancels).mapResult (fun _ _ _ _ => trivial) (by simp)
    | pending inv t =>
      exact (he inv t List.mem_cons_self now cancels).andThen
        fun _ m known _ =>
          (hrest m known).mapResult (fun _ _ _ _ => trivial) (by simp)

theorem located_concat {ts : List (Option Text)} {f : Failure}
    (h : concat ts = .error f) : s.Locates content f := by
  unfold concat at h
  split at h
  · simp at h
  · obtain rfl := Except.error.inj h
    exact fun _ => trivial

/-- Failures that escape stay where they are. -/
theorem placed_escaping {e : Expander} {text : Option Text}
    (he : e.Placed s content text) :
    (escaping e).Placed s content text := fun now cancels => by
  refine (he now cancels).mapFailure fun f hf h => ?_
  rw [Failure.located_escape]
  cases f with
  | fault => trivial
  | error | handlerFailed => exact hf (.inr (h.resolve_left (by
      simp [Failure.escape, Failure.hasEscaped])))

theorem placed_expandSegments (hs : s.ExpandsBodies)
    (hinv : ∀ inv ∈ Segment.invocations segments,
      inv.InPlace s.settings.delimiters content)
    (he : ∀ inv ∈ Segment.invocations segments,
      (expander inv).Placed s content inv.body)
    (depth : Nat) (now : Moment) (cancels : Option Moment) :
    (s.expandSegments expander depth segments now cancels).Placed s content
      (fun _ => True) (s.Locates content) := by
  have hgroup : (s.invokeAll (Segment.invocations segments) depth
      (fun inv => escaping (expander inv)) now cancels).Placed s content
      (fun produced =>
        List.Forall₂ Returns (Segment.invocations segments) produced)
      (s.Locates content) :=
    placed_invokeAll hs hinv (fun inv h => placed_escaping (he inv h)) depth
      now cancels
  have hparts : ∀ produced,
      List.Forall₂ Returns (Segment.invocations segments) produced →
      ∀ inv t, .pending inv t ∈ parts segments produced →
        (expander inv).Placed s content t := fun produced h inv t hp => by
    obtain ⟨hmem, rfl⟩ := eq_body_of_mem_parts h hp
    exact he inv hmem
  exact hgroup.andThen fun produced m known h =>
    (placed_splice (hparts produced h) m known).mapResult (f := concat)
      (fun _ _ _ _ => trivial) fun _ _ _ => located_concat

/-- The body of an invocation in a part of the document is a part of it, at the
position that is told of it. -/
theorem exists_part_of_body {k : Nat} {part : Text}
    (hp : Segment.Part s.settings.delimiters content k part)
    (hparse : Segment.parse s.settings.delimiters part k = .ok segments)
    {inv : Invocation} (hi : inv ∈ Segment.invocations segments) {t : Text}
    (ht : inv.body = some t) :
    ∃ k' : Nat, (inv.body.map inv.originOf).getD inv.offset = k'
      ∧ Segment.Part s.settings.delimiters content k' t := by
  obtain ⟨b, hb, rfl⟩ := Option.map_eq_some_iff.mp ht
  obtain ⟨ho, hbody⟩ := hp.part_body hparse hi hb
  refine ⟨k + b.start, ?_, hbody⟩
  rw [Invocation.body, hb]
  exact ho

/-- **A part of the document is expanded in place**, at any depth, if its
position is told. -/
theorem placed_expandFrom (hs : s.ExpandsBodies) (levels depth : Nat)
    (trigger : Option Text) {origin : Int} {text : Option Text}
    (hp : ∀ t, text = some t → ∃ k : Nat, origin = k
      ∧ Segment.Part s.settings.delimiters content k t) :
    Expander.Placed s content text
      (s.expandFrom levels depth trigger origin) := by
  intro now cancels
  refine s.expandFrom_induction
    (P := fun _ _ _ origin text _ _ r =>
      (∀ t, text = some t → ∃ k : Nat, origin = k
        ∧ Segment.Part s.settings.delimiters content k t) →
      r.Placed s content (fun _ => True) (s.Locates content))
    ?_ ?_ ?_ ?_ ?_ ?_ levels depth trigger origin text now cancels hp
  · exact fun _ _ => Run.placed_failed (locates_cancelledAt _) _
  · exact fun _ _ => Run.placed_failed (fun _ => trivial) _
  · exact fun _ _ _ => Run.placed_returned trivial _
  · exact fun _ _ _ => Run.placed_tooDeep
      (fun _ => ⟨by simp [Error.kind, Cause.kind],
        by simp [Error.kind, Cause.kind]⟩) _
  · intro levels depth trigger origin t now cancels e _ _ he hplace
    obtain ⟨k, rfl, hpart⟩ := hplace t rfl
    exact Run.placed_failed
      (fun _ => Failure.located_of_ofReading (hpart.ofReading he) false) _
  · intro levels depth trigger origin t now cancels segments _ _ hparse ih
      hplace
    obtain ⟨k, rfl, hpart⟩ := hplace t rfl
    refine placed_expandSegments hs (fun inv hi => hpart.inPlace hparse hi)
      (fun inv hi now cancels => ?_) depth now cancels
    exact ih inv inv.body now cancels fun t ht =>
      exists_part_of_body hpart hparse hi ht

/-- **Every member of the group of a part runs in place**, whether or not the
group comes to hear of it. -/
theorem placed_memberRuns (hs : s.ExpandsBodies) {q : Request} {k : Nat}
    {part : Text} (hp : Segment.Part s.settings.delimiters content k part)
    (ho : q.origin = k) (ht : q.text = some part)
    (hreads : q.Reads s segments) : ∀ r ∈ q.memberRuns s segments,
      ∃ inv ∈ Segment.invocations segments,
        r.Placed s content (Returns inv) (s.Locates content) := by
  intro r hr
  obtain ⟨t, htext, -, hparse⟩ := hreads.text
  obtain rfl := Option.some.inj (ht.symm.trans htext)
  rw [ho] at hparse
  obtain ⟨m, hm, start, known, -, rfl⟩ := Group.exists_of_mem_members hr
  obtain ⟨inv, hi, rfl⟩ := List.mem_map.mp hm
  have hbody : (q.expander s inv).Placed s content inv.body :=
    fun now cancels => placed_expandFrom hs _ _ _
      (fun t ht => exists_part_of_body hp hparse hi ht) now cancels
  exact ⟨inv, hi, placed_member hs (hp.inPlace hparse hi)
    (placed_escaping hbody) q.depth q.now start known⟩

/-- **Expansions tell true positions.** In a session whose handlers have
nothing expanded but the bodies of their blocks, let a document be
expanded, or the body of a block that is found in it at any depth, as the
handler of that block has it expanded. Every handler that is called on the
way is called with an invocation in place: what the document has at its
offset is what it was read from, and what it has at the offset of its body
is the body. A failure is located, if it did not escape from an expansion
that a handler asked for, or if handlers are honest: an unknown shortcode
and a handler that failed by the offset of the invocation, where the
opening delimiter stands, and an argument that is wrong by a position
inside its tag. All this is true of every member that is started for one of
these texts, whether or not its group comes to tell its failure. -/
theorem expand_inPlace (hs : s.ExpandsBodies) (content : Text) :
    let d := s.settings.delimiters
    let told {α : Type} (r : Run α) : Prop :=
      (∀ c ∈ r.calls, c.invocation.InPlace d content)
        ∧ ∀ f, r.outcome = .failed f →
            f.hasEscaped = false ∨ s.Honest → f.Located d content
    (∀ now cancels, told (s.expand content now cancels))
      ∧ (∀ inv b, Segment.Found d content 0 inv → inv.block = some b →
          ∀ levels depth now cancels, told (s.expandFrom levels depth
            (some inv.name) (inv.originOf b.text) (some b.text) now cancels))
      ∧ ∀ (q : Request) (k : Nat) part, Segment.Part d content k part →
          q.origin = k → q.text = some part → ∀ segments, q.Reads s segments →
            ∀ r ∈ q.memberRuns s segments, told r := by
  intro d told
  have htold {α : Type} (returns : α → Prop) {r : Run α}
      (h : r.Placed s content returns (s.Locates content)) : told r :=
    ⟨h.calls, fun f hf hesc => h.failed f hf hesc⟩
  have hpart {k : Nat} {part : Text} (hp : Segment.Part d content k part) :
      ∀ t, some part = some t → ∃ k' : Nat, (k : Int) = k'
        ∧ Segment.Part d content k' t :=
    fun t ht => ⟨k, rfl, Option.some.inj ht ▸ hp⟩
  refine ⟨fun now cancels => htold (fun _ => True) ?_,
    fun inv b hfound hb levels depth now cancels => htold (fun _ => True) ?_,
    fun q k part hp ho ht segments hreads r hr => ?_⟩
  · unfold expand
    split
    · exact Run.placed_returned trivial now
    · exact placed_expandFrom hs _ 0 none (hpart .whole) now cancels
  · obtain ⟨k, hk, -⟩ := hfound.occupies hb
    rw [Int.zero_add] at hk
    have ho : inv.originOf b.text = k := by
      rw [Invocation.bodyOffset, hb] at hk
      rw [Invocation.originOf, hb]
      exact (if_pos rfl).trans (Option.some.inj hk)
    rw [ho]
    exact placed_expandFrom hs levels depth _ (hpart (.body hfound hb hk)) now
      cancels
  · obtain ⟨inv, -, h⟩ := placed_memberRuns hs hp ho ht hreads r hr
    exact htold _ h

/-- A session with a handler that leaves its body in its output, to be
expanded, and one that has it expanded while it runs. -/
def wrapping : Session where
  settings := {}
  registry :=
    { bindings :=
        [("again".toList,
          { shown := "again".toList
            concurrent := false
            program v := .finish (.fragment ⟨v.invocation.body, true⟩) }),
          ("ask".toList,
          { shown := "ask".toList
            concurrent := true
            program v := .expand v.invocation.body fun
              | .ok t => .finish (.text t)
              | .error f => .fail f })] }

/-- A shortcode that nobody knows, in a body that is asked for in a body
that is expanded again: it is told where it stands in the document. -/
theorem expand_inPlace_wrapping :
    let content := "a<%again%>b<%ask%>c<%gone/%><%/ask%><%/again%>".toList
    let r := wrapping.expand content ⟨0, 0⟩ none
    (wrapping.ExpandsBodies ∧ wrapping.Honest)
      ∧ r.calls.map Call.offset = [1, 11]
      ∧ (∀ c ∈ r.calls, c.invocation.InPlace {} content)
      ∧ ∃ f, r.outcome = .failed f ∧ f.offset = some 19
        ∧ f.Located {} content := by
  intro content r
  have hs : wrapping.ExpandsBodies := by
    intro name h hr v
    obtain ⟨b, hb, rfl⟩ := Registry.exists_of_resolve? hr
    rcases List.mem_pair.mp hb with rfl | rfl
    · intro fs hfs f hf _
      obtain rfl := Except.ok.inj hfs
      rw [List.mem_singleton.mp hf]
    · refine ⟨rfl, fun answer => ?_⟩
      cases answer with
      | ok t =>
        intro fs hfs f hf hrescan
        obtain rfl := Except.ok.inj hfs
        rw [List.mem_singleton.mp hf] at hrescan
        simp at hrescan
      | error f => trivial
  have hh : wrapping.Honest := by
    intro name h hr v
    obtain ⟨b, hb, rfl⟩ := Registry.exists_of_resolve? hr
    rcases List.mem_pair.mp hb with rfl | rfl
    · trivial
    · exact ⟨fun _ => trivial, fun f _ => List.mem_singleton_self f⟩
  have hfailed : (r.outcome.failure?.bind Failure.offset) = some 19 := by
    decide +kernel
  obtain ⟨f, hf, hoffset⟩ := Option.bind_eq_some_iff.mp hfailed
  have ho : r.outcome = .failed f := Outcome.failure?_eq_some_iff.mp hf
  obtain ⟨hcalls, hlocated⟩ := (expand_inPlace hs content).1 ⟨0, 0⟩ none
  exact ⟨⟨hs, hh⟩, by decide +kernel, hcalls, f, ho, hoffset,
    hlocated f ho (.inr hh)⟩

end Session

end Shortcode
