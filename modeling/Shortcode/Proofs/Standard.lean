import Shortcode.Proofs.Determinism
import Shortcode.Standard

/-!
# What the standard shortcodes fail with

The handlers of the standard shortcodes never fail themselves, so a
failure of an expansion with them is one of the engine: an error of the
family, that a text cannot be read, a shortcode is unknown, or the depth
is exceeded. There is one exception. A callout that stands alone passes
its argument `text` on to be expanded, and where that argument has no
value there is nothing to expand; the expansion then stumbles over the
missing text and fails with a fault from outside the family.

`Standard.Stumbles` says when this happens, and `Standard.expand_failure`
that nothing else from outside the family ever leaves an expansion.

Handlers of callouts can wait, so a time limit is set for them. They do
not wait, and no limit is short enough to cut them; the session can be
compared with the one that sets no limit (`Session.RunsLike`).
-/

namespace Shortcode

/-! ## Time limits -/

theorem Double.one_pos : 0 < one := by
  unfold one
  generalize 1074 = n
  exact Nat.pow_pos Nat.two_pos

/-- A positive number is not rounded up to zero. -/
theorem Double.ceil?_pos {t : Double} {n : Nat} (ht : t.isPositive = true)
    (hn : t.ceil? = some n) : 0 < n := by
  unfold ceil? at hn
  split at hn
  · next units =>
    have hu : units ≠ 0 := by simpa [isPositive] using ht
    have := one_pos
    obtain rfl := Option.some.inj hn
    exact Nat.div_pos (by omega) one_pos
  · simp [isPositive] at ht
  · simp [isPositive] at ht
  · simp at hn
  · simp at hn

/-- Checked settings leave a handler some time. -/
theorem Settings.Valid.timeLimit_pos {st : Settings} (h : st.Valid) {n : Nat}
    (hn : st.timeLimit = some n) : 0 < n := by
  obtain ⟨t, ht, hc⟩ := Option.bind_eq_some_iff.mp hn
  exact Double.ceil?_pos (h.timeout_pos t ht) hc

/-! ## Standard handlers -/

/-- The last occurrence of a key is the one with no other behind it. -/
theorem Arguments.find?_reverse_eq_some_iff {args : Arguments} {key : Text}
    {a : Argument} :
    (args.reverse.find? fun a => a.key = key) = some a
      ↔ a.key = key ∧ ∃ front back, args = front ++ a :: back
        ∧ ∀ a ∈ back, a.key ≠ key := by
  rw [List.find?_eq_some_iff_append]
  refine and_congr (by simp) ⟨?_, ?_⟩
  · rintro ⟨back, front, he, hb⟩
    refine ⟨front.reverse, back.reverse, ?_, by simpa using hb⟩
    rw [List.reverse_eq_iff] at he
    simpa using he
  · rintro ⟨front, back, rfl, hb⟩
    exact ⟨back.reverse, front.reverse, by simp, by simpa using hb⟩

/-- A key that has a default has no value if its last occurrence has
none. -/
theorem Arguments.get_eq_none_iff {args : Arguments} {key default : Text} :
    args.get key (some default) = none
      ↔ ∃ front back, args = front ++ ⟨key, none⟩ :: back
        ∧ ∀ a ∈ back, a.key ≠ key := by
  unfold get
  constructor
  · intro h
    split at h
    · next a ha =>
      obtain ⟨hk, front, back, he, hb⟩ := find?_reverse_eq_some_iff.mp ha
      obtain ⟨k, v⟩ := a
      obtain rfl : v = none := h
      obtain rfl : k = key := hk
      exact ⟨front, back, he, hb⟩
    · simp at h
  · intro h
    rw [find?_reverse_eq_some_iff.mpr ⟨rfl, h⟩]

/-- The first binding that has the name decides. -/
theorem Registry.resolve?_cons (b : Text × Handler)
    (rest : List (Text × Handler)) (frozen : Bool) (name : Text) :
    resolve? ⟨b :: rest, frozen⟩ name
      = if b.1 = name then some b.2 else resolve? ⟨rest, frozen⟩ name := by
  unfold resolve?
  dsimp only
  rw [List.find?_cons]
  by_cases h : b.1 = name
  · rw [decide_eq_true h, if_pos h]
    rfl
  · rw [decide_eq_false h, if_neg h]

namespace Standard

/-- The names of the standard shortcodes. -/
def names : List Text := handlers.map Prod.fst

/-- **What an invocation has expanded**, of a standard shortcode: the
content of a callout, which can be missing, or the body of a heading. -/
def content? (inv : Invocation) : Option (Option Text) :=
  if inv.name = "info".toList ∨ inv.name = "tick".toList then
    some (calloutContent inv)
  else if inv.name = "daily-drop".toList then some (some (inv.body.getD []))
  else none

/-- The fragments of a standard shortcode: what is expanded, between
others that are not and have a text, or one that is not expanded. -/
def Frames : Option (Option Text) → List Fragment → Prop
  | some c, fs => ∃ before behind,
    fs = [⟨some before, false⟩, ⟨c, true⟩, ⟨some behind, false⟩]
  | none, fs => ∃ t, fs = [⟨some t, false⟩]

/-- **A program that finishes at once** on an invocation, whatever the
depth, the settings and the document are, with fragments that frame what
is expanded. -/
def Finishes (program : View → Program) (inv : Invocation)
    (content : Option (Option Text)) : Prop :=
  ∃ o fs, (∀ depth settings metadata,
      program ⟨inv, depth, settings, metadata⟩ = .finish o)
    ∧ o.fragments = .ok fs ∧ Frames content fs

/-- A view of an invocation; handlers look at nothing else. -/
def viewOf (inv : Invocation) : View :=
  { (default : View) with invocation := inv }

theorem finishes_callout (icon : String) (inv : Invocation) :
    Finishes (callout icon) inv (some (calloutContent inv)) := by
  have h : ∀ depth settings metadata,
      callout icon ⟨inv, depth, settings, metadata⟩
        = callout icon (viewOf inv) := fun _ _ _ => rfl
  exact ⟨_, _, h, rfl, _, _, rfl⟩

theorem finishes_dailyDrop (inv : Invocation) :
    Finishes dailyDrop inv (some (some (inv.body.getD []))) := by
  have h : ∀ depth settings metadata,
      dailyDrop ⟨inv, depth, settings, metadata⟩
        = dailyDrop (viewOf inv) := fun _ _ _ => rfl
  exact ⟨_, _, h, rfl, _, _, rfl⟩

theorem finishes_raw (inv : Invocation) : Finishes raw inv none := by
  have h : ∀ depth settings metadata,
      raw ⟨inv, depth, settings, metadata⟩ = raw (viewOf inv) :=
    fun _ _ _ => rfl
  exact ⟨_, _, h, rfl, _, rfl⟩

/-- What the standard registry binds. -/
theorem bindings_eq : registry.bindings =
    [("info".toList, ⟨"<InfoBlock 'info'>".toList, true, callout infoIcon⟩),
      ("tick".toList, ⟨"<TickBlock 'tick'>".toList, true, callout tickIcon⟩),
      ("daily-drop".toList, Candidate.functionHandler
        (Text.quoted "register.<locals>.daily_drop".toList) false dailyDrop),
      ("raw".toList, Candidate.functionHandler
        (Text.quoted "register.<locals>.raw_shortcode".toList) false raw)] :=
  rfl

/-- **The standard handlers finish at once** on every invocation, and on
those of their names with what these have expanded. -/
theorem finishes_of_resolve? {r : Registry}
    (hb : r.bindings = registry.bindings) {name : Text} {h : Handler}
    (hr : r.resolve? name = some h) (inv : Invocation) :
    ∃ c, Finishes h.program inv c ∧ (inv.name = name → content? inv = c) := by
  obtain ⟨bindings, frozen⟩ := r
  obtain rfl : bindings = _ := hb
  rw [bindings_eq] at hr
  iterate 4 rw [Registry.resolve?_cons] at hr
  unfold content?
  split at hr
  · next hn =>
    obtain rfl := Option.some.inj hr
    refine ⟨_, finishes_callout infoIcon inv, fun hi => ?_⟩
    exact if_pos (.inl (hi.trans hn.symm))
  split at hr
  · next hn =>
    obtain rfl := Option.some.inj hr
    refine ⟨_, finishes_callout tickIcon inv, fun hi => ?_⟩
    exact if_pos (.inr (hi.trans hn.symm))
  next hinfo htick =>
  have hplain : inv.name = name →
      ¬(inv.name = "info".toList ∨ inv.name = "tick".toList) := by
    rintro rfl
    exact not_or.mpr ⟨Ne.symm hinfo, Ne.symm htick⟩
  split at hr
  · next hn =>
    obtain rfl := Option.some.inj hr
    refine ⟨_, finishes_dailyDrop inv, fun hi => ?_⟩
    exact (if_neg (hplain hi)).trans (if_pos (hi.trans hn.symm))
  split at hr
  · next hn _ =>
    obtain rfl := Option.some.inj hr
    refine ⟨_, finishes_raw inv, fun hi => ?_⟩
    have hd : inv.name ≠ "daily-drop".toList := fun h => hn (h.symm.trans hi)
    exact (if_neg (hplain hi)).trans (if_neg hd)
  · simp [Registry.resolve?] at hr

/-- So their programs finish at once, whatever they are run for. -/
theorem exists_finish_of_resolve? {r : Registry}
    (hb : r.bindings = registry.bindings) {name : Text} {h : Handler}
    (hr : r.resolve? name = some h) (v : View) :
    ∃ o, h.program v = .finish o := by
  obtain ⟨c, ⟨o, fs, ho, -⟩, -⟩ := finishes_of_resolve? hb hr v.invocation
  exact ⟨o, ho v.depth v.settings v.metadata⟩

/-- A name has a handler if it is one of the standard names. -/
theorem resolve?_eq_none_iff {r : Registry}
    (hb : r.bindings = registry.bindings) {name : Text} :
    r.resolve? name = none ↔ name ∉ names := by
  unfold Registry.resolve?
  rw [hb, Option.map_eq_none_iff, List.find?_eq_none]
  have hnames : names = registry.bindings.map Prod.fst := rfl
  rw [hnames, List.mem_map]
  constructor
  · rintro h ⟨b, hb, rfl⟩
    exact h b hb (decide_eq_true rfl)
  · intro h b hb hn
    exact h ⟨b, hb, of_decide_eq_true hn⟩

/-! ## Sessions with the standard shortcodes -/

end Standard

/-- **A session with the standard shortcodes**, and with settings that
were checked. -/
structure Session.Standard (s : Session) : Prop where
  bindings : s.registry.bindings = Standard.registry.bindings
  valid : s.settings.Valid

namespace Standard

variable {s : Session}

/-- The standard handlers do everything at once, and a time limit that was
checked leaves them the time for it. -/
theorem straight (hs : s.Standard) : s.Straight := by
  intro name h hr
  have himmediate (v : View) : (h.program v).Immediate := by
    obtain ⟨o, ho⟩ := exists_finish_of_resolve? hs.bindings hr v
    rw [ho]
    exact trivial
  exact ⟨fun v => (himmediate v).straight,
    fun _ time htime => ⟨hs.valid.timeLimit_pos htime, himmediate⟩⟩

/-! ## What is expanded, one after the other -/

section

variable {expand : Invocation → Option Text → Evaluated Text}
  {produced : Invocation → Outcome (List Fragment)} {inv : Invocation}
  {segments : List Segment}

/-- What an invocation has expanded gives a text, if it has anything
expanded. -/
def Settles (expand : Invocation → Option Text → Evaluated Text)
    (inv : Invocation) : Prop :=
  ∀ c, content? inv = some c → ∃ t, (expand inv c).outcome = .returned t

/-- Invocations that produced fragments that frame what they have
expanded. -/
def Produces (produced : Invocation → Outcome (List Fragment))
    (segments : List Segment) : Prop :=
  ∀ inv ∈ Segment.invocations segments,
    ∃ fs, produced inv = .returned fs ∧ Frames (content? inv) fs

/-- Fragments give their texts and those of the others behind them, where
what is expanded gives a text. -/
theorem outcome_fragmentTexts_of_settles {fs : List Fragment}
    (hf : Frames (content? inv) fs) (h : Settles expand inv)
    (others : Evaluated (List (Option Text))) :
    ∃ us : List Text, (Behaviour.fragmentTexts (expand inv) others fs).outcome
      = others.outcome.bind fun ts => .ok (us.map some ++ ts) := by
  cases hc : content? inv with
  | none =>
    rw [hc] at hf
    obtain ⟨t, rfl⟩ := hf
    exact ⟨[t], rfl⟩
  | some c =>
    obtain ⟨t, ht⟩ := h c hc
    rw [hc] at hf
    obtain ⟨before, behind, rfl⟩ := hf
    refine ⟨[before, t, behind], ?_⟩
    unfold Behaviour.fragmentTexts Behaviour.fragmentTexts
    generalize expand inv c = e at ht
    obtain ⟨o, time⟩ := e
    obtain rfl : o = .returned t := ht
    obtain ⟨o, time⟩ := others
    cases o <;> rfl

/-- Fragments fail where what is expanded does. -/
theorem outcome_fragmentTexts_of_failed {fs : List Fragment}
    {c : Option Text} {f : Failure} (hf : Frames (content? inv) fs)
    (hc : content? inv = some c) (h : (expand inv c).outcome = .failed f)
    (others : Evaluated (List (Option Text))) :
    (Behaviour.fragmentTexts (expand inv) others fs).outcome
      = .failed f := by
  rw [hc] at hf
  obtain ⟨before, behind, rfl⟩ := hf
  unfold Behaviour.fragmentTexts Behaviour.fragmentTexts
  generalize expand inv c = e at h
  obtain ⟨o, time⟩ := e
  obtain rfl : o = .failed f := h
  rfl

/-- **Where all that is expanded gives texts**, the segments do. -/
theorem outcome_texts_of_settles (hp : Produces produced segments)
    (hs : ∀ inv ∈ Segment.invocations segments, Settles expand inv) :
    ∃ us : List Text, (Behaviour.texts produced expand segments).outcome
      = .returned (us.map some) := by
  induction segments with
  | nil => exact ⟨[], rfl⟩
  | cons seg rest ih =>
    cases seg with
    | literal t n =>
      obtain ⟨us, hu⟩ := ih hp hs
      refine ⟨t :: us, ?_⟩
      rw [Behaviour.texts, Evaluated.outcome_mapResult, hu]
      rfl
    | invocation inv =>
      obtain ⟨⟨fs, hr, hf⟩, hp⟩ := List.forall_mem_cons.mp hp
      obtain ⟨hset, hs⟩ := List.forall_mem_cons.mp hs
      obtain ⟨us, hu⟩ := ih hp hs
      rw [Behaviour.texts, hr, Evaluated.andThen_of_returned]
      obtain ⟨vs, hv⟩ := outcome_fragmentTexts_of_settles hf hset
        (Behaviour.texts produced expand rest)
      refine ⟨vs ++ us, ?_⟩
      rw [hv, hu, List.map_append]
      rfl

/-- **The first failure of what is expanded** is the segments' own. -/
theorem outcome_texts_of_failed {front back : List Segment} {c : Option Text}
    {f : Failure}
    (hp : Produces produced (front ++ .invocation inv :: back))
    (hs : ∀ i ∈ Segment.invocations front, Settles expand i)
    (hc : content? inv = some c) (h : (expand inv c).outcome = .failed f) :
    (Behaviour.texts produced expand (front ++ .invocation inv :: back)).outcome
      = .failed f := by
  induction front with
  | nil =>
    obtain ⟨⟨fs, hr, hf⟩, -⟩ := List.forall_mem_cons.mp hp
    rw [List.nil_append, Behaviour.texts, hr, Evaluated.andThen_of_returned]
    exact outcome_fragmentTexts_of_failed hf hc h _
  | cons seg rest ih =>
    cases seg with
    | literal t n =>
      rw [List.cons_append, Behaviour.texts, Evaluated.outcome_mapResult,
        ih hp hs]
      rfl
    | invocation i =>
      obtain ⟨⟨fs, hr, hf⟩, hp⟩ := List.forall_mem_cons.mp hp
      obtain ⟨hset, hs⟩ := List.forall_mem_cons.mp hs
      rw [List.cons_append, Behaviour.texts, hr,
        Evaluated.andThen_of_returned]
      obtain ⟨us, hu⟩ := outcome_fragmentTexts_of_settles hf hset
        (Behaviour.texts produced expand (rest ++ .invocation inv :: back))
      rw [hu, ih hp hs]
      rfl

/-- Either all that segments have expanded gives texts, or something is
the first that does not. -/
theorem settles_or (expand : Invocation → Option Text → Evaluated Text)
    (segments : List Segment) :
    (∀ inv ∈ Segment.invocations segments, Settles expand inv)
      ∨ ∃ front inv back, segments = front ++ .invocation inv :: back
        ∧ (∀ i ∈ Segment.invocations front, Settles expand i)
        ∧ ∃ c, content? inv = some c
          ∧ ¬∃ t, (expand inv c).outcome = .returned t := by
  induction segments with
  | nil => exact .inl (List.forall_mem_nil _)
  | cons seg rest ih =>
    cases seg with
    | literal t n =>
      rcases ih with hs | ⟨front, inv, back, rfl, hs, hn⟩
      · exact .inl hs
      · exact .inr ⟨.literal t n :: front, inv, back, rfl, hs, hn⟩
    | invocation i =>
      by_cases hi : Settles expand i
      · rcases ih with hs | ⟨front, inv, back, rfl, hs, hn⟩
        · exact .inl (List.forall_mem_cons.mpr ⟨hi, hs⟩)
        · exact .inr ⟨.invocation i :: front, inv, back, rfl,
            List.forall_mem_cons.mpr ⟨hi, hs⟩, hn⟩
      · have hc : ∃ c, content? i = some c
            ∧ ¬∃ t, (expand i c).outcome = .returned t := by
          simpa [Settles] using hi
        exact .inr ⟨[], i, rest, rfl, List.forall_mem_nil _, hc⟩

/-- Texts that are all there are put together. -/
theorem concat_map_some (us : List Text) :
    Session.concat (us.map some) = .ok us.flatten := by
  have hn : (us.map some).findIdx? Option.isNone = none := by
    simp [List.findIdx?_eq_none_iff]
  unfold Session.concat
  rw [hn]
  simp [List.filterMap_map]

end

/-! ## Texts with standard shortcodes -/

variable {depth : Nat} {expand : Invocation → Option Text → Evaluated Text}
  {segments : List Segment}

theorem execute_of_mem (hs : s.Standard) (depth : Nat)
    (expand : Invocation → Option Text → Evaluated Text) {inv : Invocation}
    (hn : inv.name ∈ names) : ∃ fs, Frames (content? inv) fs
      ∧ (s.behaviour.execute depth expand inv).outcome = .returned fs := by
  cases hr : s.registry.resolve? inv.name with
  | none => exact absurd hn ((resolve?_eq_none_iff hs.bindings).mp hr)
  | some h =>
    obtain ⟨c, ⟨o, fs, ho, hfs, hframes⟩, hc⟩ :=
      finishes_of_resolve? hs.bindings hr inv
    refine ⟨fs, by rwa [hc rfl], ?_⟩
    unfold Behaviour.execute Session.behaviour
    dsimp only
    rw [hr]
    dsimp only [Option.map_some]
    rw [ho]
    show ((Outcome.returned o).bind Output.fragments).mapFailure _ = _
    rw [Outcome.bind, hfs]
    rfl

theorem execute_of_notMem (hs : s.Standard) {inv : Invocation}
    (hn : inv.name ∉ names) :
    (s.behaviour.execute depth expand inv).outcome
      = .failed (.error
          ⟨.unknownShortcode, some inv.name, some inv.offset⟩) := by
  unfold Behaviour.execute Session.behaviour
  dsimp only
  rw [(resolve?_eq_none_iff hs.bindings).mpr hn]
  rfl

/-- The invocations that fail are those of unknown shortcodes. -/
theorem failures_eq (hs : s.Standard) (depth : Nat)
    (expand : Invocation → Option Text → Evaluated Text)
    (invs : List Invocation) :
    Behaviour.failures (s.behaviour.execute depth expand) invs
      = (invs.filter fun inv => inv.name ∉ names).map fun inv =>
          (inv,
            .error ⟨.unknownShortcode, some inv.name, some inv.offset⟩) := by
  unfold Behaviour.failures
  induction invs with
  | nil => rfl
  | cons inv invs ih =>
    rw [List.filterMap_cons, ih]
    by_cases hn : inv.name ∈ names
    · obtain ⟨fs, -, he⟩ := execute_of_mem hs depth expand hn
      rw [he, List.filter_cons_of_neg (by simpa using hn)]
      rfl
    · rw [execute_of_notMem hs hn, List.filter_cons_of_pos (by simpa using hn)]
      rfl

/-- **Failures that are not told apart** here: those of the family. -/
def Related (f g : Failure) : Prop :=
  f = g ∨ f.isError = true ∧ g.isError = true

theorem isError_escape (f : Failure) : f.escape.isError = f.isError := by
  cases f <;> rfl

theorem isError_report (inv : Invocation) {f : Failure}
    (h : f.isError = true) : (Session.report inv f).isError = true := by
  unfold Session.report
  split
  · exact h
  · rfl

theorem congruence_related : Failure.Congruence Related where
  refl _ := .inl rfl
  symm := by
    rintro f g (rfl | ⟨hf, hg⟩)
    · exact .inl rfl
    · exact .inr ⟨hg, hf⟩
  trans := by
    rintro f g h (rfl | ⟨hf, hg⟩) (rfl | ⟨hg', hh⟩)
    · exact .inl rfl
    · exact .inr ⟨hg', hh⟩
    · exact .inr ⟨hf, hg⟩
    · exact .inr ⟨hf, hh⟩
  escape := by
    rintro f g (rfl | ⟨hf, hg⟩)
    · exact .inl rfl
    · exact .inr ⟨(isError_escape f).trans hf, (isError_escape g).trans hg⟩
  report := by
    rintro inv f g (rfl | ⟨hf, hg⟩)
    · exact .inl rfl
    · exact .inr ⟨isError_report inv hf, isError_report inv hg⟩

/-- Which of several unknown shortcodes is reported is not to be told. -/
theorem confuses_related (hs : s.Standard) :
    s.behaviour.Confuses Related := by
  have h : ∀ {depth expand inv f},
      (s.behaviour.execute depth expand inv).outcome = .failed f →
      f.isError = true := by
    intro depth expand inv f hf
    by_cases hn : inv.name ∈ names
    · obtain ⟨fs, -, he⟩ := execute_of_mem hs depth expand hn
      rw [he] at hf
      cases hf
    · rw [execute_of_notMem hs hn] at hf
      cases hf
      rfl
  exact fun depth expand inv inv' f f' hf hf' => .inr ⟨h hf, h hf'⟩

/-- **A document is expanded as it is evaluated**, up to which error of the
family it fails with. -/
theorem agrees_expand (hs : s.Standard) (text : Text) (now : Moment) :
    (s.expand text now none).outcome.Agrees Related
      (s.behaviour.evaluate 0 none 0 (some text)).outcome :=
  (Session.gives_expand congruence_related (straight hs)
    (.inr (confuses_related hs)) hs.valid.opening.1 text now).outcome

/-- Where no shortcode is unknown, the text is put together. -/
theorem outcome_evaluateSegments (hs : s.Standard)
    (hn : ∀ i ∈ Segment.invocations segments, i.name ∈ names) :
    (s.behaviour.evaluateSegments expand depth segments).outcome
      = (Behaviour.texts (fun inv =>
          (s.behaviour.execute depth expand inv).outcome) expand
            segments).outcome.bind Session.concat := by
  have hnil : (Segment.invocations segments).filter
      (fun inv => inv.name ∉ names) = [] :=
    List.filter_eq_nil_iff.mpr fun i hi => by simpa using hn i hi
  unfold Behaviour.evaluateSegments
  dsimp only
  rw [failures_eq hs, hnil]
  rfl

/-- Where one is, this is an error of the family. -/
theorem outcome_evaluateSegments_unknown (hs : s.Standard)
    (ho : (Segment.invocations segments).Pairwise
      fun a b => a.start ≤ b.start)
    (hn : ¬∀ i ∈ Segment.invocations segments, i.name ∈ names) :
    ∃ e, (s.behaviour.evaluateSegments expand depth segments).outcome
      = .failed (.error e) := by
  unfold Behaviour.evaluateSegments
  dsimp only
  rw [earliest?_eq_head? (Behaviour.pairwise_failures ho), failures_eq hs]
  cases hf : (Segment.invocations segments).filter
      (fun inv => inv.name ∉ names) with
  | nil =>
    refine absurd (fun i hi => ?_) hn
    simpa using List.filter_eq_nil_iff.mp hf i hi
  | cons i rest => exact ⟨_, rfl⟩

/-- **A callout without a content**: it stands alone, and the last of its
arguments `text` has no value. -/
def Bare (inv : Invocation) : Prop :=
  (inv.name = "info".toList ∨ inv.name = "tick".toList)
    ∧ inv.block = none
    ∧ ∃ front back, inv.arguments = front ++ ⟨"text".toList, none⟩ :: back
      ∧ ∀ a ∈ back, a.key ≠ "text".toList

theorem bare_iff {inv : Invocation} :
    Bare inv ↔ content? inv = some none := by
  have hcontent : calloutContent inv = none ↔ inv.block = none
      ∧ inv.arguments.get "text".toList (some []) = none := by
    unfold calloutContent Invocation.body
    cases inv.block <;> simp
  unfold Bare content?
  by_cases hn : inv.name = "info".toList ∨ inv.name = "tick".toList
  · rw [if_pos hn, Option.some_inj, hcontent, Arguments.get_eq_none_iff]
    exact and_iff_right hn
  · rw [if_neg hn]
    refine iff_of_false (fun h => hn h.1) ?_
    split <;> simp

/-- What an invocation gives rise to, evaluated at the next depth. -/
def nested (b : Behaviour) (depth : Nat) (inv : Invocation)
    (text : Option Text) : Evaluated Text :=
  b.evaluate (depth + 1) (some inv.name)
    ((text.map inv.originOf).getD inv.offset) text

/-- **An expansion comes to an invocation** at the top level of a text:
the text is read, all its shortcodes are standard ones, and what is
expanded in front of the invocation gives texts. -/
def Reaches (b : Behaviour) (depth : Nat) (origin : Int) (text : Text)
    (inv : Invocation) : Prop :=
  Text.has b.delimiters.opening text = true ∧ depth ≤ b.maxDepth
    ∧ ∃ front back,
      Segment.parse b.delimiters text origin
          = .ok (front ++ .invocation inv :: back)
        ∧ (∀ i ∈ Segment.invocations (front ++ .invocation inv :: back),
            i.name ∈ names)
        ∧ ∀ i ∈ Segment.invocations front, Settles (nested b depth) i

/-- **An expansion stumbles** over a missing text: it comes to a callout
without a content, or to an invocation in whose content it stumbles. -/
inductive Stumbles (b : Behaviour) : Nat → Int → Text → Prop
  | bare {depth : Nat} {origin : Int} {text : Text} {inv : Invocation} :
      Reaches b depth origin text inv → Bare inv →
      Stumbles b depth origin text
  | inside {depth : Nat} {origin : Int} {text t : Text} {inv : Invocation} :
      Reaches b depth origin text inv → content? inv = some (some t) →
      Stumbles b (depth + 1) (inv.originOf t) t →
      Stumbles b depth origin text

theorem evaluate_read {b : Behaviour} (trigger : Option Text) {origin : Int}
    {t : Text} (h : Text.has b.delimiters.opening t = true)
    (hd : depth ≤ b.maxDepth)
    (hp : Segment.parse b.delimiters t origin = .ok segments) :
    b.evaluate depth trigger origin (some t)
      = b.evaluateSegments (nested b depth) depth segments :=
  Behaviour.evaluate_ok h hd hp

/-- The segments produce what frames their contents. -/
theorem produces_execute (hs : s.Standard)
    (hn : ∀ i ∈ Segment.invocations segments, i.name ∈ names) :
    Produces (fun inv => (s.behaviour.execute depth expand inv).outcome)
      segments := by
  intro inv hi
  obtain ⟨fs, hf, he⟩ := execute_of_mem hs depth expand (hn inv hi)
  exact ⟨fs, he, hf⟩

/-- Where the content of an invocation that is reached fails, the text
does. -/
theorem Reaches.outcome (hs : s.Standard) {origin : Int} {t : Text}
    {inv : Invocation} (h : Reaches s.behaviour depth origin t inv)
    {c : Option Text} {f : Failure} (hc : content? inv = some c)
    (hf : (nested s.behaviour depth inv c).outcome = .failed f)
    (trigger : Option Text) :
    (s.behaviour.evaluate depth trigger origin (some t)).outcome
      = .failed f := by
  obtain ⟨ht, hd, front, back, hp, hn, hsettles⟩ := h
  rw [evaluate_read trigger ht hd hp, outcome_evaluateSegments hs hn,
    outcome_texts_of_failed (produces_execute hs hn) hsettles hc hf]
  rfl

/-- **Where an expansion stumbles**, it fails for the missing text. -/
theorem Stumbles.outcome (hs : s.Standard) {origin : Int} {t : Text}
    (h : Stumbles s.behaviour depth origin t) (trigger : Option Text) :
    (s.behaviour.evaluate depth trigger origin (some t)).outcome
      = .failed Session.missingText := by
  induction h generalizing trigger with
  | bare hr hb =>
    refine hr.outcome hs (bare_iff.mp hb) ?_ trigger
    unfold nested
    rw [Behaviour.evaluate_none]
    rfl
  | inside hr hc _ ih => exact hr.outcome hs hc (ih _) trigger

/-- **How an expansion can end**: with a text, an error of the family, or
because it stumbles. -/
def Ends (b : Behaviour) (depth : Nat) (origin : Int) (text : Option Text)
    (o : Outcome Text) : Prop :=
  (∃ t, o = .returned t) ∨ (∃ e, o = .failed (.error e))
    ∨ o = .failed Session.missingText
      ∧ ∀ t, text = some t → Stumbles b depth origin t

/-- A text that is read ends so if all that is expanded in it does. -/
theorem ends_of_read (hs : s.Standard) {origin : Int} {t : Text}
    (ht : Text.has s.behaviour.delimiters.opening t = true)
    (hd : depth ≤ s.behaviour.maxDepth)
    (hp : Segment.parse s.behaviour.delimiters t origin = .ok segments)
    (hn : ∀ i ∈ Segment.invocations segments, i.name ∈ names)
    (ih : ∀ inv text, Ends s.behaviour (depth + 1)
      ((text.map inv.originOf).getD inv.offset) text
      (nested s.behaviour depth inv text).outcome) (trigger : Option Text) :
    Ends s.behaviour depth origin (some t)
      (s.behaviour.evaluate depth trigger origin (some t)).outcome := by
  rcases settles_or (nested s.behaviour depth) segments with
    hset | ⟨front, inv, back, rfl, hset, c, hc, hno⟩
  · obtain ⟨us, hu⟩ := outcome_texts_of_settles (produces_execute hs hn) hset
    refine .inl ⟨us.flatten, ?_⟩
    rw [evaluate_read trigger ht hd hp, outcome_evaluateSegments hs hn, hu,
      Outcome.bind, concat_map_some]
  · -- the first content that gives no text decides
    have hreach : Reaches s.behaviour depth origin t inv :=
      ⟨ht, hd, front, back, hp, hn, hset⟩
    rcases ih inv c with ⟨u, hu⟩ | ⟨e, he⟩ | ⟨hm, hst⟩
    · exact absurd ⟨u, hu⟩ hno
    · exact .inr (.inl ⟨e, hreach.outcome hs hc he trigger⟩)
    · refine .inr (.inr ⟨hreach.outcome hs hc hm trigger, ?_⟩)
      rintro _ ⟨⟩
      cases c with
      | none => exact .bare hreach (bare_iff.mpr hc)
      | some u => exact .inside hreach hc (hst u rfl)

/-- **Every expansion ends so.** -/
theorem ends_evaluate (hs : s.Standard) (depth : Nat)
    (trigger : Option Text) (origin : Int) (text : Option Text) :
    Ends s.behaviour depth origin text
      (s.behaviour.evaluate depth trigger origin text).outcome := by
  fun_induction Behaviour.evaluate s.behaviour depth trigger origin text with
  | case1 => exact .inr (.inr ⟨rfl, by simp⟩)
  | case2 depth trigger origin t h => exact .inl ⟨t, rfl⟩
  | case3 => exact .inr (.inl ⟨_, rfl⟩)
  | case4 => exact .inr (.inl ⟨_, rfl⟩)
  | case5 depth trigger origin t h hd segments hp ih =>
    have ht : Text.has s.behaviour.delimiters.opening t = true := by
      simpa using h
    have hd : depth ≤ s.behaviour.maxDepth := Nat.not_lt.mp hd
    by_cases hn : ∀ i ∈ Segment.invocations segments, i.name ∈ names
    · rw [← Behaviour.evaluate_ok ht hd hp]
      exact ends_of_read hs ht hd hp hn ih trigger
    · exact .inr (.inl (outcome_evaluateSegments_unknown hs
        (Segment.pairwise_start hp) hn))

/-- **What expansions with the standard shortcodes fail with.** Such an
expansion gives a text or fails with an error of the family, unless it
stumbles over a callout without a content; then it fails for the missing
text. -/
theorem expand_failure (hs : s.Standard) (text : Text) (now : Moment) :
    (¬Stumbles s.behaviour 0 0 text
        ∧ ((∃ t, (s.expand text now none).outcome = .returned t)
          ∨ ∃ f, (s.expand text now none).outcome = .failed f
            ∧ f.isError = true))
      ∨ (Stumbles s.behaviour 0 0 text
        ∧ (s.expand text now none).outcome
            = .failed Session.missingText) := by
  have hagrees := agrees_expand hs text now
  by_cases hst : Stumbles s.behaviour 0 0 text
  · -- a missing text is no error of the family
    refine .inr ⟨hst, ?_⟩
    rw [hst.outcome hs none] at hagrees
    rcases hagrees.elim with ⟨_, -, h⟩ | ⟨f, g, hf, hg, rfl | ⟨-, h⟩⟩
    · cases h
    · cases hg
      exact hf
    · cases hg
      cases h
  · refine .inl ⟨hst, ?_⟩
    rcases ends_evaluate hs 0 none 0 (some text) with ⟨t, ht⟩ | ⟨e, he⟩ | ⟨-, h⟩
    · rw [ht] at hagrees
      rcases hagrees.elim with ⟨u, hu, -⟩ | ⟨_, _, -, h, -⟩
      · exact .inl ⟨u, hu⟩
      · cases h
    · rw [he] at hagrees
      rcases hagrees.elim with ⟨_, -, h⟩ | ⟨f, g, hf, hg, rfl | ⟨h, -⟩⟩
      · cases h
      · cases hg
        exact .inr ⟨_, hf, rfl⟩
      · exact .inr ⟨f, hf, h⟩
    · exact absurd (h text rfl) hst

/-- A session with the standard shortcodes and the shortest of all time
limits. -/
def brief : Session where
  settings := { handlerTimeout := some (.finite false 1) }
  registry := registry.freeze

theorem standard_brief : brief.Standard := by
  refine ⟨rfl, ⟨by decide, ?_⟩, ⟨by decide, ?_⟩, by decide, by decide,
    by decide, ?_⟩
  · simp [brief, Settings.reservedCharacters]
  · simp [brief, Settings.reservedCharacters]
  · rintro t ⟨⟩
    rfl

/-- A callout inside another one, with an argument `text` that has a
value, and with one that has none. -/
theorem expand_failure_nested :
    brief.Standard
      ∧ ¬Stumbles brief.behaviour 0 0
          "<% info %><% tick text='a' /%><% /info %>".toList
      ∧ Stumbles brief.behaviour 0 0
          "<% info %><% tick text /%><% /info %>".toList := by
  refine ⟨standard_brief, ?_, ?_⟩
  · have hr : (brief.expand "<% info %><% tick text='a' /%><% /info %>".toList
        ⟨0, 0⟩ none).outcome.result?.isSome = true := by decide +kernel
    rcases expand_failure standard_brief
      "<% info %><% tick text='a' /%><% /info %>".toList ⟨0, 0⟩ with
      ⟨hst, -⟩ | ⟨-, ho⟩
    · exact hst
    · rw [ho] at hr
      simp [Outcome.result?] at hr
  · have hr : (brief.expand "<% info %><% tick text /%><% /info %>".toList
        ⟨0, 0⟩ none).outcome.failure?.map Failure.isError = some false := by
      decide +kernel
    rcases expand_failure standard_brief
      "<% info %><% tick text /%><% /info %>".toList ⟨0, 0⟩ with
      ⟨-, ⟨t, ho⟩ | ⟨f, ho, he⟩⟩ | ⟨hst, -⟩
    · rw [ho] at hr
      simp [Outcome.failure?] at hr
    · rw [ho] at hr
      simp [Outcome.failure?, he] at hr
    · exact hst

/-- **Not every failure is an error of the family.** -/
theorem exists_failure_not_error :
    ¬∀ s : Session, s.Standard → ∀ text now,
      (∃ t, (s.expand text now none).outcome = .returned t)
        ∨ ∃ f, (s.expand text now none).outcome = .failed f
          ∧ f.isError = true := by
  intro h
  have hf : (brief.expand "<%info text/%>".toList ⟨0, 0⟩
      none).outcome.failure?.map Failure.isError = some false := by
    decide +kernel
  rcases h brief standard_brief "<%info text/%>".toList ⟨0, 0⟩ with
    ⟨t, ho⟩ | ⟨f, ho, he⟩
  · rw [ho] at hf
    simp [Outcome.failure?] at hf
  · rw [ho] at hf
    simp [Outcome.failure?, he] at hf

end Standard

end Shortcode
