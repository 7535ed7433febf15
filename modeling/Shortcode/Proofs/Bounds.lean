import Shortcode.Proofs.Diagnosis
import Shortcode.Proofs.Provenance
import Shortcode.Proofs.Standard

/-!
# Positions that are told lie in the document

Handlers are called with positions, and errors tell them. At any depth
these are positions of the document, also where a text has no place in it:
a body is expanded where it stands, but the value of an argument is
expanded as if it stood where the invocation starts. What matters is that
a text, laid down where it is expanded, does not reach beyond the end of
the document (`Request.Contained`). A body stands inside the span of its
block; and a value is no longer than what is left of its tag, so that it
ends in the span of the invocation wherever it is read in the tag
(`Invocation.Fits`). So this is passed on from a text to all that comes of
it (`Request.Descends.contained`), as long as handlers have nothing
expanded but what their invocations hold (`Session.ExpandsOwn`).

What is wrong with a text is told by a position in it, what is wrong with
an invocation by the place where it starts, and a text that stands too deep
by its own place; none of these is behind the document
(`Session.expand_positions`).
-/

namespace Shortcode

/-! ## Where invocations stand in their text -/

/-- A value that an argument text spells is no longer than the text. -/
theorem Arguments.Spelled.length_value_le {args : Arguments} {text : Text}
    (h : Spelled args text) :
    ∀ a ∈ args, ∀ v ∈ a.value, v.length ≤ text.length := by
  induction h with
  | blank => simp
  | @argument a args lead t rest _ _ hw _ _ ih =>
    intro x hx v hv
    rcases List.mem_cons.mp hx with rfl | hx
    · cases hw with
      | flag => simp at hv
      | value =>
        obtain rfl := Option.some.inj hv
        simp only [List.length_append, List.length_cons]
        omega
    · have := ih x hx v hv
      simp only [List.length_append]
      omega

/-- **An invocation that fits into a text**, which starts at a position of
the document and has a length: its span is one of the text, its body stands
inside the span, and no value of an argument is longer than it. -/
structure Invocation.Fits (inv : Invocation) (origin : Int) (length : Nat) :
    Prop where
  origin : inv.origin = origin
  lt : inv.start < inv.stop
  le : inv.stop ≤ length
  body : ∀ b, inv.block = some b →
    inv.start < b.start ∧ b.start + b.text.length < inv.stop
  value : ∀ a ∈ inv.arguments, ∀ v ∈ a.value,
    inv.start + v.length ≤ inv.stop

theorem TagsFrom.length_argumentText_le {d : Delimiters} {n : Nat}
    {text : Text} {ts : List PlacedTag} (h : TagsFrom d n text ts) :
    ∀ t ∈ ts, t.form ≠ .closing →
      t.start + t.argumentText.length ≤ t.stop := by
  induction h with
  | done => simp
  | @tag _ _ inside _ t ts _ _ hform _ hstop _ ih =>
    refine List.forall_mem_cons.mpr ⟨fun hf => ?_, ih⟩
    obtain ⟨lead, trail, -, -, -, hi⟩ := hform.exists_named hf
    rw [hstop, hi]
    simp only [List.length_append]
    omega

namespace Segment

variable {d : Delimiters} {text : Text} {origin : Int}
  {segments : List Segment} {inv : Invocation}

/-- **The invocations of a text fit into it.** -/
theorem fits_of_parse (h : parse d text origin = .ok segments)
    (hi : inv ∈ invocations segments) : inv.Fits origin text.length := by
  have hcovers := covers_of_parse h
  have hmem := mem_of_mem_invocations hi
  have hspan := hcovers.tiles.bounds _ (List.mem_map_of_mem hmem)
  obtain ⟨-, -, hstands⟩ := hcovers.stands _ hmem
  have hbody : ∀ b, inv.block = some b →
      inv.start < b.start ∧ b.start + b.text.length < inv.stop :=
    fun b hb => ⟨(hstands b hb).1, (hstands b hb).2.1⟩
  refine ⟨origin_of_parse h hi, hspan.1, hspan.2, hbody, ?_⟩
  -- the arguments were read from inside the tag that the invocation
  -- starts with
  obtain ⟨hnone, ps, invs, hd, hreads, rfl⟩ := parse_eq_ok_iff_derived.mp h
  have htags : TagsFrom d 0 text _ := tagsFrom_iff.mpr ⟨hnone, rfl⟩
  rw [invocations_around] at hi
  obtain ⟨p, hp, hr⟩ := Group.exists_of_forall₂ hreads inv hi
  obtain ⟨hmem, hform⟩ := hd.opened_mem p hp
  have hlength := htags.length_argumentText_le p.opened hmem hform
  cases hr with
  | single hargs =>
    intro a ha v hv
    have hspelled := Arguments.parse_eq_ok_iff_spelled.mp hargs
    have hle := hspelled.length_value_le a ha v hv
    exact Nat.le_trans (Nat.add_le_add_left hle _) hlength
  | block hargs =>
    intro a ha v hv
    have hspelled := Arguments.parse_eq_ok_iff_spelled.mp hargs
    have hle := hspelled.length_value_le a ha v hv
    have hin := hbody _ rfl
    dsimp only [Production.opened] at hlength hin ⊢
    omega

end Segment

/-! ## What an invocation has expanded -/

/-- **An invocation holds a text**: the text is empty, or stands in the
body or in the value of an argument. -/
def Invocation.Holds (inv : Invocation) (t : Text) : Prop :=
  t = [] ∨ (∃ b, inv.body = some b ∧ t <:+: b)
    ∨ ∃ a ∈ inv.arguments, ∃ v, a.value = some v ∧ t <:+: v

/-- **What an invocation holds stays in the text** of the invocation, at the
position that is told for it. -/
theorem Invocation.Fits.originOf {inv : Invocation} {origin : Int}
    {length : Nat} {t : Text} (h : inv.Fits origin length)
    (ht : inv.Holds t) :
    origin ≤ inv.originOf t ∧ inv.originOf t + t.length ≤ origin + length := by
  have hlt := h.lt
  have hle := h.le
  have hoffset : inv.offset = origin + inv.start := by
    rw [offset, h.origin]
  have hlength : inv.start + t.length ≤ inv.stop := by
    rcases ht with rfl | ⟨b, hb, ht⟩ | ⟨a, ha, v, hv, ht⟩
    · simpa using Nat.le_of_lt hlt
    · obtain ⟨body, hbody, rfl⟩ := Option.map_eq_some_iff.mp hb
      have := h.body body hbody
      have := ht.length_le
      omega
    · have := h.value a ha v hv
      have := ht.length_le
      omega
  unfold Invocation.originOf
  split
  · next b hb =>
    split
    · next he =>
      have := h.body b hb
      rw [he, h.origin]
      omega
    · omega
  · omega

/-- **A program that has only certain texts expanded**, while it runs or in
its output, whatever its requests are answered. -/
def Program.Expands (P : Text → Prop) : Program → Prop
  | .finish output => ∀ fs, output.fragments = .ok fs →
      ∀ f ∈ fs, f.rescan = true → ∀ t, f.text = some t → P t
  | .fail _ | .interrupt _ => True
  | .sleep _ next | .cancel next => next.Expands P
  | .expand asked next =>
    (∀ t, asked = some t → P t) ∧ ∀ answer, (next answer).Expands P
  | .askCancelled next => ∀ b, (next b).Expands P

/-- **Handlers that have only texts of their own expanded**: those that the
invocation holds they are called with. -/
def Session.ExpandsOwn (s : Session) : Prop :=
  ∀ name h, s.registry.resolve? name = some h →
    ∀ v, (h.program v).Expands v.invocation.Holds

namespace Program

variable {P : Text → Prop} {b : Bool} {e : Expander} {p : Program}
  {now : Moment} {known : Option Moment}

/-- What such a program asks for is one of these texts. -/
theorem Asks.expands {asked : Moment} {text : Option Text}
    {heard : Option Moment} (h : p.Asks b e text asked heard now known)
    (hp : p.Expands P) : ∀ t, text = some t → P t := by
  induction h with
  | here => exact hp.1
  | sleep _ ih | cancel _ ih => exact ih hp
  | returned _ _ ih | failed _ _ ih => exact ih (hp.2 _)
  | askCancelled _ ih => exact ih (hp _)

/-- And so is what it leaves in its output to be expanded. -/
theorem Expands.returned {output : Output} (hp : p.Expands P)
    (h : (p.run b e now known).outcome = .returned output) :
    ∀ fs, output.fragments = .ok fs →
      ∀ f ∈ fs, f.rescan = true → ∀ t, f.text = some t → P t := by
  induction p generalizing now known with
  | finish =>
    obtain rfl := Outcome.returned.inj h
    exact hp
  | fail | interrupt => simp [run, Run.now] at h
  | sleep time next ih => exact ih hp h
  | askCancelled next ih => exact ih _ (hp _) h
  | cancel next ih =>
    rw [run] at h
    split at h
    · exact @ih _ (Moment.earliest? known (some now)) hp h
    · exact ih hp h
  | expand asked next ih =>
    rw [run] at h
    split at h
    · exact ih _ (hp.2 _) h
    · exact ih _ (hp.2 _) h
    · simp [Run.withOutcome] at h

end Program

/-! ## Requests in a document -/

namespace Request

variable {q : Request} {s : Session} {segments : List Segment}
  {length : Nat} {inv : Invocation}

/-- **A request for a text of a document** that has a length: the text stands
in the document. -/
structure Contained (q : Request) (length : Nat) : Prop where
  nonneg : 0 ≤ q.origin
  le : ∀ t, q.text = some t → q.origin + t.length ≤ length

theorem contained_whole (s : Session) (content : Text) (now : Moment)
    (cancels : Option Moment) :
    (whole s content now cancels).Contained content.length where
  nonneg := Int.le_refl 0
  le := by
    rintro t ⟨⟩
    exact Int.le_of_eq (Int.zero_add _)

/-- Invocations in a text of the document fit into the text. -/
theorem Contained.exists_fits (h : q.Contained length)
    (hq : q.Reads s segments) (hi : inv ∈ Segment.invocations segments) :
    ∃ n, inv.Fits q.origin n ∧ q.origin + n ≤ length := by
  obtain ⟨t, ht, -, hp⟩ := hq.text
  exact ⟨t.length, Segment.fits_of_parse hp hi, h.le t ht⟩

/-- They stand in the document. -/
theorem Contained.offset (h : q.Contained length) (hq : q.Reads s segments)
    (hi : inv ∈ Segment.invocations segments) :
    0 ≤ inv.offset ∧ inv.offset < length := by
  obtain ⟨n, hfits, hle⟩ := h.exists_fits hq hi
  have hnonneg := h.nonneg
  have hlt := hfits.lt
  have hstop := hfits.le
  rw [Invocation.offset, hfits.origin]
  omega

/-- **What an invocation has expanded stays in the document**, if it holds
the text. -/
theorem Contained.nested (h : q.Contained length) (hq : q.Reads s segments)
    (hi : inv ∈ Segment.invocations segments) {text : Option Text}
    (ht : ∀ t, text = some t → inv.Holds t) (asked : Moment)
    (heard : Option Moment) :
    (q.nested inv text asked heard).Contained length := by
  have hnonneg := h.nonneg
  obtain ⟨n, hfits, hle⟩ := h.exists_fits hq hi
  cases text with
  | none => exact ⟨(h.offset hq hi).1, by rintro t ⟨⟩⟩
  | some t =>
    obtain ⟨hfrom, hto⟩ := hfits.originOf (ht t rfl)
    refine ⟨Int.le_trans hnonneg hfrom, ?_⟩
    rintro t ⟨⟩
    exact Int.le_trans hto hle

/-- What a handler asks for in a document stays in it. -/
theorem Contained.asked (h : q.Contained length) (hs : s.ExpandsOwn)
    (hq : q.Reads s segments) (hi : inv ∈ Segment.invocations segments)
    {hd : Handler} (hr : s.registry.resolve? inv.name = some hd)
    {text : Option Text} {start asked : Moment}
    {known heard : Option Moment} {e : Expander}
    (ha : (hd.program ⟨inv, q.depth, s.settings, s.metadata⟩).Asks
      s.cancellable e text asked heard start known) :
    (q.nested inv text asked heard).Contained length :=
  have hown : (hd.program ⟨inv, q.depth, s.settings, s.metadata⟩).Expands
      inv.Holds := hs _ _ hr ⟨inv, q.depth, s.settings, s.metadata⟩
  h.nested hq hi (ha.expands hown) asked heard

/-- What is requested again in a document stays in it. -/
theorem Contained.rescanned (h : q.Contained length) (hs : s.ExpandsOwn)
    (hq : q.Reads s segments) {r : Request}
    (hr : r ∈ q.rescans s segments) : r.Contained length := by
  obtain ⟨inv, fs, f, asked, heard, start, known, hy, ho, hf, hrescan, rfl⟩ :=
    exists_of_mem_rescans hr
  refine h.nested hq (mem_invocations_of_mem_started hy) ?_ asked heard
  unfold memberRun at ho
  rcases s.member_eq_or q.depth _ q.now inv start known with
    he | ⟨cleared, he⟩
  · rw [he] at ho
    simp [Run.now] at ho
  · rw [he] at ho
    obtain ⟨hd, output, hname, hrun, hfs⟩ :=
      Session.exists_of_invoke_returned ho
    have hown : (hd.program ⟨inv, q.depth, s.settings, s.metadata⟩).Expands
        inv.Holds := hs _ _ hname ⟨inv, q.depth, s.settings, s.metadata⟩
    exact hown.returned hrun fs hfs f hf hrescan

/-- **All that comes of a request in a document is in the document.** -/
theorem Descends.contained {root : Request} (h : Descends s root q)
    (hs : s.ExpandsOwn) (hroot : root.Contained length) :
    q.Contained length := by
  induction h with
  | root => exact hroot
  | asked _ hq hy hr ha ih =>
    exact ih.asked hs hq (mem_invocations_of_mem_started hy) hr ha
  | rescanned _ hq hr ih => exact ih.rescanned hs hq hr

end Request

/-! ## What is told in a document -/

/-- **A failure points into a document** that has a length, if it is an
error: it tells a position of the document. A handler can say that the
expansion was cancelled, at any position; and it can make up a failure that
looks as if it had come out of an expansion, if it is not honest. -/
def Session.PointsInside (s : Session) (length : Nat) (f : Failure) : Prop :=
  f.isError = true → f.isCancellation = false →
    (f.hasEscaped = false ∨ s.Honest) →
      ∃ n : Int, f.offset = some n ∧ 0 ≤ n ∧ n < length

/-- **A run tells positions of a document**, when it calls handlers and when
it fails. -/
structure Run.Bounded {α : Type} (s : Session) (length : Nat) (r : Run α) :
    Prop where
  calls : ∀ c ∈ r.calls, 0 ≤ c.offset ∧ c.offset < length
  failed : ∀ f, r.outcome = .failed f → s.PointsInside length f

section

variable {s : Session} {length : Nat} {q : Request}
  {segments : List Segment}

theorem Text.ne_nil_of_has {mark t : Text} (hm : mark ≠ [])
    (h : Text.has mark t = true) : t ≠ [] := by
  rintro rfl
  rw [Text.has_nil hm] at h
  exact Bool.false_ne_true h

/-- **What a text in a document fails with by itself** is told in the
document. -/
theorem Request.Contained.pointsInside (h : q.Contained length)
    (hd : s.settings.delimiters.opening ≠ []) {t : Text} {e : Error}
    (ht : q.text = some t)
    (hhas : Text.has s.settings.delimiters.opening t = true)
    (he : e.offset = some q.origin
      ∨ Segment.parse s.settings.delimiters t q.origin = .error e) :
    s.PointsInside length (.error e) := by
  intro _ _ _
  have hle := h.le t ht
  have hnonneg := h.nonneg
  rcases he with he | hp
  · have hpos := List.length_pos_iff.mpr (Text.ne_nil_of_has hd hhas)
    refine ⟨_, he, ?_⟩
    omega
  · obtain ⟨p, hlt, hoffset, -⟩ := Segment.exists_position_of_parse hd hp
    refine ⟨_, hoffset, ?_⟩
    omega

/-- The report of a handler points into the document if its invocation
stands there, and a failure that is marked points into it already. -/
theorem Session.pointsInside_report {inv : Invocation} {g : Failure}
    (hi : 0 ≤ inv.offset ∧ inv.offset < length)
    (hg : g.hasEscaped = true → s.PointsInside length g) :
    s.PointsInside length (report inv g) := by
  unfold report
  split
  · next hpass =>
    intro herr hc hesc
    have hmark : g.hasEscaped = true := by simpa [hc] using hpass
    exact hg hmark herr hc hesc
  · exact fun _ _ _ => ⟨_, rfl, hi⟩

/-- What comes out of an expansion with a mark points where it did
without. -/
theorem Session.pointsInside_escape {g : Failure} (hh : s.Honest)
    (h : s.PointsInside length g) : s.PointsInside length g.escape := by
  cases g with
  | error | handlerFailed => exact fun herr hc _ => h herr hc (.inr hh)
  | fault => exact h

section

variable {inv : Invocation} {depth : Nat} {e : Expander}
  {cleared now : Moment} {known : Option Moment}

/-- A call makes what is left of what its handler does. -/
theorem Session.kept_call (hd : Handler) (inv : Invocation) (depth : Nat)
    (e : Expander) (cleared now : Moment) (known : Option Moment) :
    Call.Kept (s.call hd inv depth e cleared now known).calls
      (s.enter hd inv depth e cleared now (s.entry hd now) known).calls := by
  cases hlimit : s.limit? hd with
  | none =>
    rw [call_of_none hlimit, entry_of_none hlimit]
    exact .refl _
  | some time =>
    rw [call_of_some hlimit, entry_of_some hlimit]
    exact Run.kept_waitedFor _ _ _ _

/-- The calls of an invocation that stands in the document stand in it, if
those of what its handler asks for do. -/
theorem Session.calls_invoke_bounded
    (hi : 0 ≤ inv.offset ∧ inv.offset < length)
    (hasked : ∀ hd text asked heard,
      s.registry.resolve? inv.name = some hd →
      (hd.program ⟨inv, depth, s.settings, s.metadata⟩).Asks s.cancellable
        (escaping e) text asked heard (s.entry hd now) known →
      (e text asked heard).Bounded s length) :
    ∀ c ∈ (s.invoke inv depth (escaping e) cleared now known).calls,
      0 ≤ c.offset ∧ c.offset < length := by
  intro c hc
  unfold invoke at hc
  split at hc
  · simp [Run.now] at hc
  · next hd hr =>
    obtain ⟨c', hc', hcut⟩ := (kept_call hd _ _ _ _ _ _).exists_of_mem hc
    rw [Call.offset, hcut.invocation_eq]
    rcases List.mem_cons.mp hc' with rfl | hc'
    · exact hi
    · obtain ⟨text, asked, heard, ha, hc'⟩ := Program.exists_asks _ hc'
      exact (hasked hd text asked heard hr ha).calls c' hc'

/-- What it fails with points into the document, too: a failure that is
marked was the answer to something its handler asked for. -/
theorem Session.failed_invoke_bounded {f : Failure}
    (hi : 0 ≤ inv.offset ∧ inv.offset < length)
    (hasked : ∀ hd text asked heard,
      s.registry.resolve? inv.name = some hd →
      (hd.program ⟨inv, depth, s.settings, s.metadata⟩).Asks s.cancellable
        (escaping e) text asked heard (s.entry hd now) known →
      (e text asked heard).Bounded s length)
    (hf : (s.invoke inv depth (escaping e) cleared now known).outcome
      = .failed f) : s.PointsInside length f := by
  rcases exists_of_invoke_failed hf with rfl | ⟨hd, g, hr, rfl, hown⟩
  · exact fun _ _ _ => ⟨_, rfl, hi⟩
  · refine pointsInside_report hi fun hmark herr hc hesc => ?_
    have hh := hesc.resolve_left (by simp [hmark])
    obtain ⟨seen, hraises⟩ := Program.exists_raises (hown hmark)
    rcases hraises.exists_asks (hh _ hd hr _) hmark with
      hnil | ⟨text, asked, heard, ha, ho⟩
    · simp at hnil
    · obtain ⟨g', hg', rfl⟩ := Outcome.mapFailure_eq_failed_iff.mp ho
      exact pointsInside_escape hh
        ((hasked hd text asked heard hr ha).failed g' hg') herr hc hesc

end

/-- **An invocation in a document tells positions of it**, if what it asks
for does. -/
theorem Request.Contained.bounded_memberRun (h : q.Contained length)
    (hq : q.Reads s segments) {y : Invocation × Moment × Option Moment}
    (hy : y ∈ q.started s segments)
    (hasked : ∀ hd text asked heard,
      s.registry.resolve? y.1.name = some hd →
      (hd.program ⟨y.1, q.depth, s.settings, s.metadata⟩).Asks s.cancellable
        (Session.escaping (q.expander s y.1)) text asked heard
        (s.entry hd y.2.1) y.2.2 →
      ((q.nested y.1 text asked heard).run s).Bounded s length) :
    (q.memberRun s y).Bounded s length := by
  have hi := h.offset hq (mem_invocations_of_mem_started hy)
  unfold memberRun
  rcases s.member_eq_or q.depth _ q.now y.1 y.2.1 y.2.2 with
    he | ⟨cleared, he⟩
  · -- cancelled before it began, where it stands
    rw [he]
    refine ⟨List.forall_mem_nil _, fun f hf => ?_⟩
    obtain rfl := Outcome.failed.inj hf
    exact fun _ _ _ => ⟨_, rfl, hi⟩
  · rw [he]
    exact ⟨Session.calls_invoke_bounded hi hasked,
      fun f hf => Session.failed_invoke_bounded hi hasked hf⟩

/-- **A text of a document tells positions of it**, if what comes of it
does. -/
theorem Request.Contained.bounded_run_of (h : q.Contained length)
    (hd : s.settings.delimiters.opening ≠ [])
    (hmember : ∀ segments, q.Reads s segments → ∀ y ∈ q.started s segments,
      (q.memberRun s y).Bounded s length)
    (hrescan : ∀ segments, q.Reads s segments → ∀ r ∈ q.rescans s segments,
      (r.run s).Bounded s length) : (q.run s).Bounded s length := by
  refine ⟨?_, fun f hf herr hc hesc => ?_⟩
  · rcases q.calls_run_eq_nil_or s with hnil | ⟨segments, hq⟩
    · simp [hnil]
    · rw [hq.calls_run]
      refine List.forall_mem_append.mpr ⟨fun c hmem => ?_, fun c hmem => ?_⟩
      · obtain ⟨y, hy, c', hc', hinv⟩ := exists_of_mem_group_calls hmem
        rw [Call.offset, hinv]
        exact (hmember segments hq y hy).calls c' hc'
      · obtain ⟨r, hr, hmem⟩ := List.mem_flatMap.mp hmem
        exact (hrescan segments hq r hr).calls c hmem
  · rcases cases_of_run_failed hf herr hc with
      ⟨segments, hq⟩ | ⟨t, e, ht, rfl, hhas, he⟩
    · rcases hq.exists_of_run_failed hf herr with hg | ⟨r, hr, ho⟩
      · obtain ⟨y, hy, ho⟩ := exists_of_group_failed hg hc
        exact (hmember segments hq y hy).failed f ho herr hc hesc
      · exact (hrescan segments hq r hr).failed f ho herr hc hesc
    · exact h.pointsInside hd ht hhas he herr hc hesc

/-- **A text of a document tells positions of it.** -/
theorem Request.Contained.bounded_run (h : q.Contained length)
    (hs : s.ExpandsOwn) (hd : s.settings.delimiters.opening ≠ []) :
    (q.run s).Bounded s length := by
  induction hlevels : q.levels generalizing q with
  | zero =>
    exact h.bounded_run_of hd (fun _ hq => absurd hlevels hq.levels)
      fun _ hq => absurd hlevels hq.levels
  | succ levels ih =>
    have hnested : ∀ inv text asked heard,
        (q.nested inv text asked heard).levels = levels := by
      intro inv text asked heard
      show q.levels - 1 = levels
      rw [hlevels]
      rfl
    refine h.bounded_run_of hd (fun segments hq y hy => ?_)
      fun segments hq r hr => ?_
    · refine h.bounded_memberRun hq hy fun hd text asked heard hr ha => ?_
      have hi := mem_invocations_of_mem_started hy
      exact ih (h.asked hs hq hi hr ha) (hnested ..)
    · have hcontained := h.rescanned hs hq hr
      obtain ⟨inv, fs, f, asked, heard, -, -, -, -, -, -, rfl⟩ :=
        exists_of_mem_rescans hr
      exact ih hcontained (hnested ..)

/-- So do the invocations in it. -/
theorem Request.Contained.bounded_member (h : q.Contained length)
    (hs : s.ExpandsOwn) (hd : s.settings.delimiters.opening ≠ [])
    (hq : q.Reads s segments) {y : Invocation × Moment × Option Moment}
    (hy : y ∈ q.started s segments) : (q.memberRun s y).Bounded s length :=
  h.bounded_memberRun hq hy fun _ _ _ _ hr ha =>
    (h.asked hs hq (mem_invocations_of_mem_started hy) hr ha).bounded_run hs hd

end

/-! ## The standard shortcodes -/

namespace Standard

/-- A value of an argument is held by the invocation. -/
theorem holds_of_get {inv : Invocation} {key t : Text}
    (h : inv.arguments.get key (some []) = some t) : inv.Holds t := by
  unfold Arguments.get at h
  split at h
  · next a ha =>
    exact .inr (.inr ⟨a, List.mem_reverse.mp (List.mem_of_find?_eq_some ha), t,
      h, List.infix_rfl⟩)
  · exact .inl (Option.some.inj h).symm

/-- So is a body. -/
theorem holds_body {inv : Invocation} : inv.Holds (inv.body.getD []) := by
  cases h : inv.body with
  | none => exact .inl rfl
  | some b => exact .inr (.inl ⟨b, h, List.infix_rfl⟩)

theorem expands_callout (icon : String) (v : View) :
    (callout icon v).Expands v.invocation.Holds := by
  intro fs hfs f hf hrescan t ht
  obtain rfl := Except.ok.inj hfs
  rcases List.mem_cons.mp hf with rfl | hf
  · simp at hrescan
  · rcases List.mem_pair.mp hf with rfl | rfl
    · unfold calloutContent at ht
      split at ht
      · next b hb =>
        exact .inr (.inl ⟨b, hb, Option.some.inj ht ▸ List.infix_rfl⟩)
      · exact holds_of_get ht
    · simp at hrescan

theorem expands_dailyDrop (v : View) :
    (dailyDrop v).Expands v.invocation.Holds := by
  intro fs hfs f hf hrescan t ht
  obtain rfl := Except.ok.inj hfs
  rcases List.mem_cons.mp hf with rfl | hf
  · simp at hrescan
  · rcases List.mem_pair.mp hf with rfl | rfl
    · obtain rfl := Option.some.inj ht
      exact holds_body
    · simp at hrescan

theorem expands_raw (v : View) : (raw v).Expands v.invocation.Holds := by
  intro fs hfs f hf hrescan
  obtain rfl := Except.ok.inj hfs
  rw [List.mem_singleton.mp hf] at hrescan
  simp at hrescan

/-- **The standard handlers have only texts of their own expanded**, and
never fail. -/
theorem expandsOwn_of_bindings {s : Session}
    (hb : s.registry.bindings = registry.bindings) :
    s.ExpandsOwn ∧ s.Honest := by
  have hall : ∀ name h, s.registry.resolve? name = some h →
      ∀ v, (h.program v).Expands v.invocation.Holds
        ∧ (h.program v).Honest [] := by
    intro name h hr v
    obtain ⟨b, hmem, rfl⟩ := Registry.exists_of_resolve? hr
    rw [hb, bindings_eq] at hmem
    simp only [List.mem_cons, List.not_mem_nil, or_false] at hmem
    rcases hmem with rfl | rfl | rfl | rfl
    · exact ⟨expands_callout infoIcon v, trivial⟩
    · exact ⟨expands_callout tickIcon v, trivial⟩
    · exact ⟨expands_dailyDrop v, trivial⟩
    · exact ⟨expands_raw v, trivial⟩
  exact ⟨fun name h hr v => (hall name h hr v).1,
    fun name h hr v => (hall name h hr v).2⟩

end Standard

/-! ## All of it -/

namespace Session

/-- **Positions that are told lie in the document.** Let the handlers of a
session have nothing expanded but what stands in the body or in a value of
an argument of the invocation they are called with, as the standard ones do.
However a document is expanded, every handler is called with a position of
the document, at every depth. So is every handler that is started for a text
that comes of the document, whether or not it is cut. And whatever any of
these texts or handlers fails with tells a position of the document, if it is
an error. -/
theorem expand_positions :
    (∀ s : Session, s.registry.bindings = Standard.registry.bindings →
        s.ExpandsOwn ∧ s.Honest)
      ∧ ∀ s : Session, s.ExpandsOwn → s.settings.delimiters.opening ≠ [] →
        ∀ content now cancels,
          (s.expand content now cancels).Bounded s content.length
            ∧ ∀ q, Request.Descends s (.whole s content now cancels) q →
              (q.run s).Bounded s content.length
                ∧ ∀ segments, q.Reads s segments →
                  ∀ y ∈ q.started s segments,
                    0 ≤ y.1.offset ∧ y.1.offset < content.length
                      ∧ (q.memberRun s y).Bounded s content.length := by
  refine ⟨fun s => Standard.expandsOwn_of_bindings,
    fun s hs hd content now cancels => ?_⟩
  have hwhole := Request.contained_whole s content now cancels
  refine ⟨?_, fun q hdesc => ?_⟩
  · unfold expand
    split
    · exact ⟨by simp [Run.now], by simp [Run.now]⟩
    · exact hwhole.bounded_run hs hd
  · have hq := hdesc.contained hs hwhole
    refine ⟨hq.bounded_run hs hd, fun segments hreads y hy => ?_⟩
    obtain ⟨hnonneg, hlt⟩ :=
      hq.offset hreads (Request.mem_invocations_of_mem_started hy)
    exact ⟨hnonneg, hlt, hq.bounded_member hs hd hreads hy⟩

/-- A shortcode that nobody knows, in the argument of a callout that stands
in the body of another one: it is told where that callout stands. -/
theorem expand_positions_argument :
    let content := "<%info%>a<%tick text='<%gone/%>'/%><%/info%>".toList
    let r := Standard.brief.expand content ⟨0, 0⟩ none
    (Standard.brief.ExpandsOwn
        ∧ Standard.brief.settings.delimiters.opening ≠ [])
      ∧ r.calls.map Call.offset = [0, 9]
      ∧ (r.outcome.failure?.bind Failure.offset) = some 9
      ∧ r.Bounded Standard.brief content.length := by
  intro content r
  obtain ⟨hstandard, hall⟩ := expand_positions
  have hs := (hstandard Standard.brief Standard.standard_brief.bindings).1
  have hd : Standard.brief.settings.delimiters.opening ≠ [] := by decide
  exact ⟨⟨hs, hd⟩, by decide +kernel, by decide +kernel,
    (hall Standard.brief hs hd content ⟨0, 0⟩ none).1⟩

end Session

end Shortcode
