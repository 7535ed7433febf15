import Shortcode.Proofs.Groups
import Shortcode.Proofs.RoundTrip
import Shortcode.Proofs.Standard

/-!
# How deep expansions go

What an invocation gives rise to stands one level deeper, whichever way it
goes there: out of a handler's output, or by its request while it runs. A
text that stands below the greatest depth is not read any more. So each
expansion comes to an end, whatever the handlers have expanded: themselves,
or one another in a circle.

An expansion is defined here by the levels that are left to it, and so by
structural recursion. The recursion that only looks at the depth of a text
(`Session.Unfolds`) knows nothing of levels. It has one solution, and that
is the expansion (`Session.expand_bounded`): to look at the depth is enough
to end it.

The limit is exact. A text whose handler has it expanded again some number
of times is expanded to the end if the limit allows as many levels, and
fails otherwise.
-/

namespace Shortcode

/-! ## Where calls are made -/

/-- **A run inside bounds**: its handlers are entered from a moment on, and
at some depths only. -/
def Run.Inside {α : Type} (now : Moment) (low high : Nat) (r : Run α) : Prop :=
  ∀ c ∈ r.calls, now ≤ c.entered ∧ low ≤ c.depth ∧ c.depth < high

/-- An expander whose runs are inside bounds. -/
def Expander.Inside (low high : Nat) (e : Expander) : Prop :=
  ∀ text now cancels, (e text now cancels).Inside now low high

variable {s : Session} {low high : Nat}

namespace Run

variable {α β : Type} {now : Moment} {cancels : Option Moment} {r : Run α}

theorem inside_now (o : Outcome α) : (Run.now now o).Inside now low high :=
  List.forall_mem_nil _

theorem Inside.mono {later : Moment} {low' : Nat}
    (h : r.Inside later low' high) (hle : now ≤ later) (hl : low ≤ low') :
    r.Inside now low high := fun c hc =>
  have hcall := h c hc
  ⟨Moment.le_trans hle hcall.1, Nat.le_trans hl hcall.2.1, hcall.2.2⟩

/-- Calls that are left after a cut stay inside. -/
theorem Inside.kept {r' : Run β} (h : r.Inside now low high)
    (hk : Call.Kept r'.calls r.calls) : r'.Inside now low high := by
  intro d hd
  obtain ⟨c, hc, rfl | ⟨m, -, rfl⟩⟩ := hk.exists_of_mem hd
  · exact h d hc
  · exact h c hc

theorem Inside.after {r' : Run β} (h : r.Inside now low high)
    (hle : now ≤ r.finish) (h' : r'.Inside r.finish low high) :
    (r.after r').Inside now low high :=
  List.forall_mem_append.mpr ⟨h, h'.mono hle low.le_refl⟩

theorem Inside.andThen {next : α → Moment → Option Moment → Run β}
    (h : r.Inside now low high) (hle : now ≤ r.finish)
    (hn : ∀ a m known, (next a m known).Inside m low high) :
    (r.andThen cancels next).Inside now low high := by
  unfold Run.andThen
  split
  · exact h.after hle (hn _ _ _)
  · exact h
  · exact h

end Run

/-- **A program runs inside the bounds** of what it has expanded. -/
theorem Program.inside_run (p : Program) {e : Expander} (ho : e.Orderly s)
    (he : e.Inside low high) (b : Bool) (now : Moment)
    (cancels : Option Moment) :
    (p.run b e now cancels).Inside now low high := by
  induction p generalizing now cancels with
  | finish | fail | interrupt => exact Run.inside_now _
  | sleep time next ih =>
    exact (ih _ _).mono (now.le_later time) low.le_refl
  | askCancelled next ih => exact ih _ _ _
  | cancel next ih =>
    rw [run]
    split
    · have h := ih now (Moment.earliest? cancels (some now))
      exact Run.Inside.after (r := Run.asking now) (List.forall_mem_nil _)
        now.le_refl h
    · exact ih now cancels
  | expand text next ih =>
    have h := he text now cancels
    have hle := (ho text now cancels).le
    rw [run]
    split
    · exact h.after hle (ih _ _ _)
    · exact h.after hle (ih _ _ _)
    · exact h

namespace Session

variable {depth : Nat} {now : Moment} {cancels : Option Moment}
  {expander : Invocation → Expander}

/-- A handler is called at the depth of its text, and what it has expanded
stands deeper. -/
theorem inside_enter (h : Handler) (inv : Invocation) {e : Expander}
    (ho : e.Orderly s) (he : e.Inside (depth + 1) high) (hd : depth < high)
    (cleared started entered : Moment) (cancels : Option Moment) :
    (s.enter h inv depth e cleared started entered cancels).Inside entered
      depth high := by
  have hrun := Program.inside_run
    (h.program ⟨inv, depth, s.settings, s.metadata⟩) ho he s.cancellable
    entered cancels
  exact List.forall_mem_cons.mpr ⟨⟨entered.le_refl, depth.le_refl, hd⟩,
    hrun.mono entered.le_refl depth.le_succ⟩

theorem inside_invoke {inv : Invocation} {e : Expander} (ho : e.Orderly s)
    (he : e.Inside (depth + 1) high) (hd : depth < high) (cleared : Moment) :
    (s.invoke inv depth e cleared now cancels).Inside now depth high := by
  unfold invoke
  split
  · exact Run.inside_now _
  · next h _ =>
    cases hlimit : s.limit? h with
    | none =>
      rw [call_of_none hlimit]
      exact inside_enter h inv ho he hd cleared now now cancels
    | some time =>
      rw [call_of_some hlimit]
      have henter := inside_enter h inv ho he hd cleared now now.next cancels
      exact (henter.mono now.le_next depth.le_refl).kept
        (Run.kept_waitedFor _ now time _)

theorem inside_member (ho : ∀ inv, (expander inv).Orderly s)
    (he : ∀ inv, (expander inv).Inside (depth + 1) high) (hd : depth < high)
    (called start : Moment) (inv : Invocation) :
    (s.member depth expander called inv start cancels).Inside start depth
      high := by
  unfold member
  split
  · exact inside_invoke (ho inv) (he inv) hd called
  · split
    · exact List.forall_mem_nil _
    · exact inside_invoke (ho inv) (he inv) hd start

end Session

/-- **A group stays inside**: of the calls of its members it keeps all, or
a part. -/
theorem Group.Gathering.inside_run {α : Type} {g : Gathering α}
    {first : Moment} (hr : ∀ r ∈ g.runs, r.Inside first low high) :
    g.run.Inside first low high := by
  intro d hd
  obtain ⟨c, hc, hcut⟩ := g.kept_run.exists_of_mem hd
  obtain ⟨r, hmem, hc⟩ := List.mem_flatMap.mp hc
  rcases hcut with rfl | ⟨m, -, rfl⟩
  · exact hr r hmem d hc
  · exact hr r hmem c hc

namespace Session

variable {depth : Nat} {now : Moment} {cancels : Option Moment}
  {expander : Invocation → Expander}

theorem inside_invokeAll (ho : ∀ inv, (expander inv).Orderly s)
    (he : ∀ inv, (expander inv).Inside (depth + 1) high) (hd : depth < high)
    (invs : List Invocation) :
    (s.invokeAll invs depth expander now cancels).Inside now depth high := by
  unfold invokeAll
  split
  · exact Run.inside_now _
  · split
    · exact Run.inside_now _
    · refine (Group.Gathering.inside_run fun r hr => ?_).mono now.le_next
        depth.le_refl
      obtain ⟨m, hm, start, known, hle, rfl⟩ := Group.exists_of_mem_members hr
      obtain ⟨inv, -, rfl⟩ := List.mem_map.mp hm
      exact (inside_member ho he hd now start inv).mono hle depth.le_refl

theorem inside_splice (ho : ∀ inv, (expander inv).Orderly s)
    (he : ∀ inv, (expander inv).Inside low high) (ps : List Part)
    (now : Moment) (cancels : Option Moment) :
    (splice expander ps now cancels).Inside now low high := by
  induction ps generalizing now cancels with
  | nil => exact Run.inside_now _
  | cons part rest ih =>
    cases part with
    | ready t => exact ih now cancels
    | pending inv t =>
      exact (he inv t now cancels).andThen (ho inv t now cancels).le
        fun _ m known => ih m known

theorem inside_expandSegments (ho : ∀ inv, (expander inv).Orderly s)
    (he : ∀ inv, (expander inv).Inside (depth + 1) high) (hd : depth < high)
    (segments : List Segment) :
    (s.expandSegments expander depth segments now cancels).Inside now depth
      high := by
  have hescaping : ∀ inv, Expander.Orderly s (escaping (expander inv)) :=
    fun inv text now cancels => (ho inv text now cancels).withOutcome _
  have hgroup : (s.invokeAll (Segment.invocations segments) depth
      (fun inv => escaping (expander inv)) now cancels).Inside now depth high :=
    inside_invokeAll hescaping he hd _
  refine hgroup.andThen (orderly_invokeAll hescaping _).le fun produced m known
    => ?_
  exact inside_splice ho
    (fun inv text now cancels =>
      (he inv text now cancels).mono now.le_refl depth.le_succ) _ m known

/-- **Calls are made as deep as levels are left**, and not before the
expansion begins. -/
theorem inside_expandFrom (levels depth : Nat) (trigger : Option Text)
    (origin : Int) :
    (s.expandFrom levels depth trigger origin).Inside depth
      (depth + levels) := by
  intro text now cancels
  refine s.expandFrom_induction
    (P := fun levels depth _ _ _ now _ r =>
      r.Inside now depth (depth + levels))
    ?_ ?_ ?_ ?_ ?_ ?_ levels depth trigger origin text now cancels
  · exact fun _ => Run.inside_now _
  · exact fun _ => Run.inside_now _
  · exact fun _ _ => Run.inside_now _
  · exact fun _ _ => List.forall_mem_nil _
  · exact fun _ _ _ => Run.inside_now _
  · intro levels depth trigger origin t now cancels segments _ _ _ ih
    refine inside_expandSegments
      (fun inv text => orderly_expandFrom _ _ _ _ text)
      (fun inv text now cancels => ?_) (by omega) _
    rw [show depth + (levels + 1) = depth + 1 + levels by omega]
    exact ih inv text now cancels

/-! ## The recursion by depth -/

/-- **An expansion that only looks at depths**: the expander of a text at a
depth, where the expander of every text at every depth is given. -/
def unfolding (s : Session)
    (expand : Nat → Option Text → Int → Expander) (depth : Nat)
    (trigger : Option Text) (origin : Int) : Expander :=
  fun text now cancels =>
    if Moment.reached cancels now then
      .now now (.failed (cancelledAt origin))
    else
      match text with
      | none => .now now (.failed missingText)
      | some t =>
        if !Text.has s.settings.delimiters.opening t then
          .now now (.returned t)
        else if s.settings.maxDepth < depth then
          .tooDeep now (.error
            ⟨.depthExceeded s.settings.maxDepth, trigger, some origin⟩)
        else
          match Segment.parse s.settings.delimiters t origin with
          | .error e => .now now (.failed (.error e))
          | .ok segments =>
            s.expandSegments
              (fun inv text =>
                expand (depth + 1) (some inv.name)
                  ((text.map inv.originOf).getD inv.offset) text)
              depth segments now cancels

/-- **Expanders that solve the recursion** which has each text expanded by
them, and looks at its depth to come to an end. -/
def Unfolds (s : Session) (expand : Nat → Option Text → Int → Expander) :
    Prop :=
  expand = s.unfolding expand

/-- The expander of a text at a depth. -/
def expandAt (s : Session) (depth : Nat) : Option Text → Int → Expander :=
  s.expandFrom (s.settings.maxDepth + 1 - depth) depth

theorem unfolds_expandAt (s : Session) : s.Unfolds s.expandAt := by
  funext depth trigger origin text now cancels
  unfold expandAt unfolding
  by_cases hd : s.settings.maxDepth < depth
  · rw [show s.settings.maxDepth + 1 - depth = 0 by omega]
    unfold expandFrom
    cases text with
    | none => rfl
    | some t =>
      dsimp only
      split
      · rfl
      · split
        · rfl
        · rfl
  · rw [show s.settings.maxDepth + 1 - depth
      = s.settings.maxDepth + 1 - (depth + 1) + 1 by omega, expandFrom.eq_def]
    cases text with
    | none => rfl
    | some t =>
      dsimp only
      split
      · rfl
      · split
        · rfl
        · rfl

/-- **The recursion has one solution.** Texts that stand too deep are not
expanded any further, and each text above them is expanded by what stands
one level deeper. -/
theorem Unfolds.eq_expandAt {expand : Nat → Option Text → Int → Expander}
    (h : s.Unfolds expand) : expand = s.expandAt := by
  funext depth
  -- the induction goes upwards from the greatest depth
  generalize hk : s.settings.maxDepth + 1 - depth = k
  induction k generalizing depth with
  | zero =>
    rw [h, s.unfolds_expandAt]
    funext trigger origin text now cancels
    unfold unfolding
    have hd : s.settings.maxDepth < depth := by omega
    simp only [if_pos hd]
  | succ k ih =>
    rw [h, s.unfolds_expandAt]
    funext trigger origin text now cancels
    unfold unfolding
    rw [ih (depth + 1) (by omega)]

theorem expand_eq_expandAt {text : Text} (h : text ≠ []) (now : Moment)
    (cancels : Option Moment) :
    s.expand text now cancels
      = s.expandAt 0 none 0 (some text) now cancels := by
  unfold expand
  rw [if_neg (by simpa using h)]
  rfl

end Session

/-! ## Texts that have themselves expanded again -/

/-- A fragment that is put in as it is. -/
def Fragment.Ready (f : Fragment) : Prop :=
  f.rescan = false ∧ ∃ t, f.text = some t

/-- **What is produced some number of times before the end**: a text that is
expanded again, among others that are put in as they are; and at the end
only such. -/
def Session.Emits (texts : Nat → Text) : Nat → List Fragment → Prop
  | 0, fs => ∀ f ∈ fs, f.Ready
  | n + 1, fs => ∃ front back, fs = front ++ ⟨some (texts n), true⟩ :: back
      ∧ (∀ f ∈ front, f.Ready) ∧ ∀ f ∈ back, f.Ready

/-- **Texts that are expanded again and again.** The text `texts n` has one
invocation. Its handler is done, wherever and whenever it is called, and
what it produces has the next text in it, until there is none left. -/
structure Session.Reemits (s : Session) (texts : Nat → Text) : Prop where
  ne_nil : ∀ n, texts n ≠ []
  opening : ∀ n, Text.has s.settings.delimiters.opening (texts n) = true
  reads : ∀ n origin, ∃ segments inv,
    Segment.parse s.settings.delimiters (texts n) origin = .ok segments
      ∧ Segment.invocations segments = [inv]
      ∧ ∀ depth e cleared now,
        let r := s.invoke inv depth e cleared now none
        r.cancels = none ∧ ∃ fs, r.outcome = .returned fs ∧ Emits texts n fs

/-- **A run that ends** with a result or a failure of some kind, and asks
for no cancellation. -/
structure Run.EndsIn {α : Type} (returns : α → Prop) (fails : Failure → Prop)
    (r : Run α) : Prop where
  cancels : r.cancels = none
  outcome : (∃ a, r.outcome = .returned a ∧ returns a)
    ∨ ∃ f, r.outcome = .failed f ∧ fails f

namespace Run.EndsIn

variable {α β : Type} {returns : α → Prop} {returns' : β → Prop}
  {fails : Failure → Prop} {r : Run α}

theorem mono {returns₂ : α → Prop} {fails₂ : Failure → Prop}
    (h : r.EndsIn returns fails) (hr : ∀ a, returns a → returns₂ a)
    (hf : ∀ f, fails f → fails₂ f) : r.EndsIn returns₂ fails₂ := by
  refine ⟨h.cancels, ?_⟩
  rcases h.outcome with ⟨a, ho, ha⟩ | ⟨f, ho, hf'⟩
  · exact .inl ⟨a, ho, hr a ha⟩
  · exact .inr ⟨f, ho, hf f hf'⟩

theorem mapResult {f : α → Except Failure β} (h : r.EndsIn returns fails)
    (hf : ∀ a, returns a → ∃ b, f a = .ok b ∧ returns' b) :
    (r.mapResult f).EndsIn returns' fails := by
  refine ⟨h.cancels, ?_⟩
  rcases h.outcome with ⟨a, ho, ha⟩ | ⟨e, ho, he⟩
  · obtain ⟨b, hb, hr⟩ := hf a ha
    exact .inl ⟨b, Outcome.bind_eq_returned_iff.mpr ⟨a, ho, hb⟩, hr⟩
  · exact .inr ⟨e, Outcome.bind_eq_failed_iff.mpr (.inl ho), he⟩

theorem andThen {next : α → Moment → Option Moment → Run β}
    (h : r.EndsIn returns fails)
    (hn : ∀ a m, returns a → (next a m none).EndsIn returns' fails) :
    (r.andThen none next).EndsIn returns' fails := by
  unfold Run.andThen
  rcases h.outcome with ⟨a, ho, ha⟩ | ⟨f, ho, hf⟩
  · have hnext := hn a r.finish ha
    rw [ho, h.cancels]
    refine ⟨?_, hnext.outcome⟩
    unfold Run.after
    dsimp only
    rw [h.cancels]
    exact hnext.cancels
  · rw [ho]
    exact ⟨h.cancels, .inr ⟨f, rfl, hf⟩⟩

end Run.EndsIn

namespace Session

variable {depth : Nat} {expander : Invocation → Expander}
  {fails : Failure → Prop}

/-- A part that is put in as it is. -/
def Part.Ready (p : Part) : Prop :=
  ∃ t, p = .ready (some t)

theorem ready_partOf {inv : Invocation} {fs : List Fragment}
    (h : ∀ f ∈ fs, f.Ready) : ∀ p ∈ fs.map (partOf inv), Part.Ready p := by
  refine List.forall_mem_map.mpr fun f hf => ?_
  obtain ⟨hr, t, ht⟩ := h f hf
  exact ⟨t, by simp [partOf, hr, ht]⟩

/-- Texts that are all there, on a condition. -/
def Whole (q : Prop) (ts : List (Option Text)) : Prop :=
  q ∧ ∃ us : List Text, ts = us.map some

/-- Parts that are ready give their texts, before those of others. -/
theorem endsIn_splice_append {front rest : List Part} {q : Prop}
    (hfront : ∀ p ∈ front, Part.Ready p) {now : Moment}
    (h : (splice expander rest now none).EndsIn (Whole q) fails) :
    (splice expander (front ++ rest) now none).EndsIn (Whole q) fails := by
  induction front with
  | nil => exact h
  | cons p front ih =>
    obtain ⟨hp, hrest⟩ := List.forall_mem_cons.mp hfront
    obtain ⟨t, rfl⟩ := hp
    exact (ih hrest).mapResult fun ts ⟨hq, us, hts⟩ =>
      ⟨_, rfl, hq, t :: us, by rw [hts, List.map_cons]⟩

theorem endsIn_splice_ready {ps : List Part} {q : Prop} (hq : q)
    (h : ∀ p ∈ ps, Part.Ready p) (now : Moment) :
    (splice expander ps now none).EndsIn (Whole q) fails := by
  have hnil : (splice expander [] now none).EndsIn (Whole q) fails :=
    ⟨rfl, .inl ⟨[], rfl, hq, [], rfl⟩⟩
  have happend := endsIn_splice_append h hnil
  rwa [List.append_nil] at happend

/-- Where there are no invocations, all parts are ready. -/
theorem ready_parts {segments : List Segment}
    (h : Segment.invocations segments = []) :
    ∀ p ∈ parts segments [], Part.Ready p := by
  induction segments with
  | nil => exact List.forall_mem_nil _
  | cons seg rest ih =>
    cases seg with
    | literal t n => exact List.forall_mem_cons.mpr ⟨⟨t, rfl⟩, ih h⟩
    | invocation inv => simp [Segment.invocations, Segment.invocation?] at h

/-- Of texts with one invocation, the parts are those of its fragments,
among others that are ready. -/
theorem exists_parts {inv : Invocation} {segments : List Segment}
    (h : Segment.invocations segments = [inv]) (fs : List Fragment) :
    ∃ front back, parts segments [fs] = front ++ (fs.map (partOf inv) ++ back)
      ∧ (∀ p ∈ front, Part.Ready p) ∧ ∀ p ∈ back, Part.Ready p := by
  induction segments with
  | nil => simp [Segment.invocations] at h
  | cons seg rest ih =>
    cases seg with
    | literal t n =>
      obtain ⟨front, back, hp, hfront, hback⟩ := ih h
      refine ⟨.ready (some t) :: front, back, ?_,
        List.forall_mem_cons.mpr ⟨⟨t, rfl⟩, hfront⟩, hback⟩
      rw [parts, hp, List.cons_append]
    | invocation i =>
      obtain ⟨rfl, hrest⟩ : i = inv ∧ Segment.invocations rest = [] := by
        simpa [Segment.invocations, Segment.invocation?] using h
      exact ⟨[], parts rest [], rfl, List.forall_mem_nil _, ready_parts hrest⟩

/-- A group of one invocation that is done gives what it produced. -/
theorem endsIn_invokeAll_single {inv : Invocation}
    {returns : List Fragment → Prop} (ho : ∀ inv, (expander inv).Orderly s)
    (h : ∀ cleared start,
      (s.invoke inv depth (expander inv) cleared start none).EndsIn returns
        fun _ => False) (now : Moment) :
    (s.invokeAll [inv] depth expander now none).EndsIn
      (fun produced => ∃ fs, produced = [fs] ∧ returns fs) fails := by
  let start := Group.start s.settings.maxConcurrency now.next []
  let r := s.member depth expander now inv start none
  have hstart : now.next ≤ start := Group.first_le_start _ _ _
  have hends : r.EndsIn returns fun _ => False := by
    have hinvoke := h (if s.settings.maxConcurrency = 0 then now else start)
      start
    unfold r
    rw [member_eq]
    exact ⟨hinvoke.cancels, hinvoke.outcome⟩
  have hle : now.next ≤ r.finish := by
    unfold r
    rw [member_eq]
    refine Moment.le_trans hstart (le_finish_invoke (ho inv) inv _ start none)
  rcases hends.outcome with ⟨fs, hfs, hreturns⟩ | ⟨f, -, hf⟩
  · have hq : Group.Gathering.Quiet ⟨s.settings.maxConcurrency, s.cancellable,
        now, cancelledAt inv.offset, none, [r]⟩ := by
      refine ⟨rfl, fun x hx => ?_⟩
      obtain rfl := List.mem_singleton.mp hx
      exact ⟨hle, hends.cancels, fun m hm => by rw [hfs] at hm; cases hm⟩
    have hc := hq.completes_of_returned fun x hx => by
      obtain rfl := List.mem_singleton.mp hx
      exact ⟨fs, hfs⟩
    obtain ⟨as, has, hforall⟩ := hc.outcome
    cases hforall with
    | cons hx hnil =>
      cases hnil
      rw [hfs] at hx
      cases hx
      exact ⟨hq.quiet_run.cancels, .inl ⟨[fs], has, fs, rfl, hreturns⟩⟩
  · exact hf.elim

/-- The failure of a text that stands too deep. -/
def Deep (s : Session) (f : Failure) : Prop :=
  ∃ trigger origin, f = .error
    ⟨.depthExceeded s.settings.maxDepth, trigger, some origin⟩

/-- Where the next text of a row is emitted, what is put together needs one
level more than that text does. -/
theorem endsIn_splice_emits {texts : Nat → Text} {n levels : Nat}
    {inv : Invocation} {segments : List Segment} {fs : List Fragment}
    (hinvs : Segment.invocations segments = [inv]) (hemits : Emits texts n fs)
    (hnext : ∀ k, n = k + 1 → ∀ now,
      (expander inv (some (texts k)) now none).EndsIn (fun _ => k < levels)
        fun f => levels ≤ k ∧ s.Deep f) (now : Moment) :
    (splice expander (parts segments [fs]) now none).EndsIn
      (Whole (n < levels + 1)) fun f => levels + 1 ≤ n ∧ s.Deep f := by
  obtain ⟨front, back, hparts, hfront, hback⟩ := exists_parts hinvs fs
  rw [hparts]
  refine endsIn_splice_append hfront ?_
  cases n with
  | zero =>
    refine endsIn_splice_ready levels.succ_pos ?_ now
    exact List.forall_mem_append.mpr ⟨ready_partOf hemits, hback⟩
  | succ n =>
    obtain ⟨before, behind, rfl, hbefore, hbehind⟩ := hemits
    rw [List.map_append, List.map_cons, List.append_assoc, List.cons_append]
    refine endsIn_splice_append (ready_partOf hbefore) ?_
    refine ((hnext n rfl now).mono (fun _ => id) fun f ⟨hle, hdeep⟩ =>
      ⟨Nat.succ_le_succ hle, hdeep⟩).andThen fun t m hn => ?_
    refine (endsIn_splice_ready (Nat.succ_lt_succ hn) ?_ m).mapResult
      fun ts ⟨hq, us, hts⟩ => ⟨_, rfl, hq, t :: us, by rw [hts, List.map_cons]⟩
    exact List.forall_mem_append.mpr ⟨ready_partOf hbehind, hback⟩

/-- **A text that is expanded again some number of times** is expanded to
the end if as many levels are left, and otherwise fails at the last of
them. -/
theorem endsIn_expandFrom {texts : Nat → Text} (h : s.Reemits texts)
    (n levels depth : Nat) (trigger : Option Text) (origin : Int)
    (now : Moment) :
    (s.expandFrom levels depth trigger origin (some (texts n)) now none).EndsIn
      (fun _ => n < levels) fun f => levels ≤ n ∧ s.Deep f := by
  induction levels generalizing n depth trigger origin now with
  | zero =>
    rw [expandFrom_zero rfl (h.opening n)]
    exact ⟨rfl, .inr ⟨_, rfl, Nat.zero_le n, trigger, origin, rfl⟩⟩
  | succ levels ih =>
    obtain ⟨segments, inv, hp, hinvs, hinvoke⟩ := h.reads n origin
    rw [expandFrom_succ rfl (h.opening n), hp]
    dsimp only
    let expander : Invocation → Expander := fun inv text =>
      s.expandFrom levels (depth + 1) (some inv.name)
        ((text.map inv.originOf).getD inv.offset) text
    have hgroup : (s.invokeAll [inv] depth
        (fun inv => escaping (expander inv)) now none).EndsIn
        (fun produced => ∃ fs, produced = [fs] ∧ Emits texts n fs)
        fun f => levels + 1 ≤ n ∧ s.Deep f :=
      endsIn_invokeAll_single (fun inv text now cancels =>
        (orderly_expandFrom _ _ _ _ text now cancels).withOutcome _)
        (fun cleared start =>
        have hr := hinvoke depth (escaping (expander inv)) cleared start
        ⟨hr.1, .inl hr.2⟩) now
    show ((s.invokeAll (Segment.invocations segments) depth
      (fun inv => escaping (expander inv)) now none).andThen none
        fun produced m cancels =>
          (splice expander (parts segments produced) m cancels).mapResult
            concat).EndsIn _ _
    rw [hinvs]
    refine hgroup.andThen fun produced m ⟨fs, hfs, hemits⟩ => ?_
    rw [hfs]
    -- the next text is expanded one level deeper
    have hsplice : (splice expander (parts segments [fs]) m none).EndsIn
        (Whole (n < levels + 1)) fun f => levels + 1 ≤ n ∧ s.Deep f :=
      endsIn_splice_emits hinvs hemits (fun k _ => ih k (depth + 1) _ _) m
    exact hsplice.mapResult fun ts ⟨hn, us, hus⟩ =>
      ⟨us.flatten, by rw [hus, Standard.concat_map_some], hn⟩

/-! ## The limit -/

/-- **Expansions end, and go as deep as they may.** The expansion of texts
solves the recursion that has each text expanded by what stands one level
deeper, and looks at depths to come to an end; and nothing else solves it.
In it handlers are called at the depth of their text or deeper, and no
deeper than the greatest depth. A text without an opening delimiter is
returned at every depth, and a text with one that stands too deep fails,
with no call of a handler. And a text that is expanded again some number
of times is expanded to the end if that number is at most the greatest
depth, and fails for its depth if it is greater. -/
theorem expand_bounded (s : Session) :
    s.Unfolds s.expandAt
      ∧ (∀ other, s.Unfolds other → other = s.expandAt)
      ∧ (∀ text now cancels, text ≠ [] →
          s.expand text now cancels
            = s.expandAt 0 none 0 (some text) now cancels)
      ∧ (∀ depth trigger origin text now cancels,
          ∀ c ∈ (s.expandAt depth trigger origin text now cancels).calls,
            depth ≤ c.depth ∧ c.depth ≤ s.settings.maxDepth)
      ∧ (∀ depth trigger origin t now,
          Text.has s.settings.delimiters.opening t = false →
            s.expandAt depth trigger origin (some t) now none
              = .now now (.returned t))
      ∧ (∀ depth trigger origin t now, s.settings.maxDepth < depth →
          Text.has s.settings.delimiters.opening t = true →
            s.expandAt depth trigger origin (some t) now none
              = .tooDeep now (.error
                  ⟨.depthExceeded s.settings.maxDepth, trigger,
                    some origin⟩))
      ∧ ∀ texts, s.Reemits texts → ∀ n now,
          (n ≤ s.settings.maxDepth
              ∧ ∃ t, (s.expand (texts n) now none).outcome = .returned t)
            ∨ (s.settings.maxDepth < n
              ∧ ∃ f, (s.expand (texts n) now none).outcome = .failed f
                ∧ s.Deep f) := by
  refine ⟨s.unfolds_expandAt, fun _ h => h.eq_expandAt,
    fun _ now cancels h => expand_eq_expandAt h now cancels, ?_, ?_, ?_, ?_⟩
  · intro depth trigger origin text now cancels c hc
    obtain ⟨-, hlow, hhigh⟩ :=
      inside_expandFrom _ _ trigger origin text now cancels c hc
    exact ⟨hlow, by omega⟩
  · exact fun _ _ _ _ _ h => expandFrom_plain rfl h
  · intro depth trigger origin t now hd ht
    unfold expandAt
    rw [show s.settings.maxDepth + 1 - depth = 0 by omega, expandFrom_zero rfl ht]
  · intro texts h n now
    have hends := endsIn_expandFrom h n (s.settings.maxDepth + 1) 0 none 0 now
    have he : s.expand (texts n) now none = s.expandFrom
        (s.settings.maxDepth + 1) 0 none 0 (some (texts n)) now none :=
      expand_eq_expandAt (h.ne_nil n) now none
    rw [he]
    rcases hends.outcome with ⟨t, ho, hn⟩ | ⟨f, ho, hn, hdeep⟩
    · exact .inl ⟨Nat.le_of_lt_succ hn, t, ho⟩
    · exact .inr ⟨hn, f, ho, hdeep⟩

/-- A self-closing use of a shortcode, with a number of strokes. -/
def strokes (n : Nat) : Tree :=
  .single "again".toList [⟨['n'], some (List.replicate n 'i')⟩] .nil

/-- What the handler of that shortcode leaves in its output: the shortcode
with a stroke less, until there is none. -/
def leftover : Option Text → Output
  | some (_ :: rest) =>
    .fragment ⟨some ((strokes rest.length).write {}), true⟩
  | _ => .text "done".toList

/-- A session with such a handler. -/
def again (maxDepth : Nat) : Session where
  settings := { maxDepth := maxDepth }
  registry :=
    { bindings :=
        [("again".toList,
          { shown := "again".toList
            concurrent := false
            program v :=
              .finish (leftover (v.invocation.arguments.get ['n'])) })] }

/-- A self-closing use with nothing behind it is one segment. -/
theorem exists_of_ofSegments_single {d : Delimiters} {segments : List Segment}
    {name : Text} {args : Arguments}
    (h : Tree.OfSegments d segments (.single name args .nil)) :
    ∃ inv, segments = [.invocation inv] ∧ inv.name = name
      ∧ inv.arguments = args := by
  cases h with
  | @single inv _ _ hb hnil =>
    cases hnil
    exact ⟨inv, rfl, rfl, rfl⟩

/-- The shortcode is read as it is written. -/
theorem exists_parse_strokes (n : Nat) (origin : Int) :
    ∃ inv, Segment.parse {} ((strokes n).write {}) origin
        = .ok [.invocation inv]
      ∧ inv.name = "again".toList
      ∧ inv.arguments = [⟨['n'], some (List.replicate n 'i')⟩] := by
  have hplain : Delimiters.Plain {} :=
    ⟨by decide, '%', ['>'], rfl, by decide, by decide, by decide, by decide,
      by decide⟩
  have hkey : IsKey ['n'] := by decide
  have hfits : (strokes n).Fits {} false := by
    refine ⟨by decide, fun a ha => ?_, trivial⟩
    obtain rfl := List.mem_singleton.mp ha
    refine ⟨hkey, fun v hv => .inl fun hmem => ?_⟩
    obtain rfl := Option.mem_some_iff.mp hv
    simp [List.mem_replicate] at hmem
  obtain ⟨ls, hls⟩ := Tree.exists_pieces hplain (Tree.written_write hfits) hfits
  obtain ⟨segments, hp, ho⟩ := hls.reads_text hplain.opening origin
  obtain ⟨inv, rfl, hname, hargs⟩ := exists_of_ofSegments_single ho
  exact ⟨inv, hp, hname, hargs⟩

/-- The handler finds its shortcode again in what it leaves. -/
theorem reemits_again (maxDepth : Nat) :
    (again maxDepth).Reemits fun n => (strokes n).write {} where
  ne_nil := fun _ => by simp [strokes, Tree.write]
  opening := fun _ => rfl
  reads := by
    intro n origin
    obtain ⟨inv, hp, hname, hargs⟩ := exists_parse_strokes n origin
    refine ⟨[.invocation inv], inv, hp, rfl, fun depth e cleared now => ?_⟩
    have hget : inv.arguments.get ['n'] = some (List.replicate n 'i') := by
      rw [hargs]
      rfl
    unfold invoke
    rw [hname, show (again maxDepth).registry.resolve? "again".toList
      = some _ from rfl]
    dsimp only
    rw [call_of_none (limit?_of_not_concurrent rfl)]
    refine ⟨rfl, ?_⟩
    show ∃ fs, ((Outcome.returned (leftover (inv.arguments.get ['n']))).bind
      Output.fragments).mapFailure (report inv) = .returned fs ∧ _
    rw [hget]
    cases n with
    | zero =>
      refine ⟨_, rfl, fun f hf => ?_⟩
      obtain rfl := List.mem_singleton.mp hf
      exact ⟨rfl, _, rfl⟩
    | succ n =>
      refine ⟨_, rfl, [], [], ?_, List.forall_mem_nil _, List.forall_mem_nil _⟩
      simp

/-- A limit of two levels is enough for two strokes, and not for three. -/
theorem expand_bounded_again :
    let r (n : Nat) := (again 2).expand ((strokes n).write {}) ⟨0, 0⟩ none
    (again 2).Reemits (fun n => (strokes n).write {})
      ∧ (∃ t, (r 2).outcome = .returned t)
      ∧ ∃ f, (r 3).outcome = .failed f ∧ (again 2).Deep f := by
  intro r
  obtain ⟨-, -, -, -, -, -, hexact⟩ := expand_bounded (again 2)
  have h := reemits_again 2
  refine ⟨h, ?_, ?_⟩
  · rcases hexact _ h 2 ⟨0, 0⟩ with ⟨-, ht⟩ | ⟨hn, -⟩
    · exact ht
    · exact absurd hn (by decide)
  · rcases hexact _ h 3 ⟨0, 0⟩ with ⟨hn, -⟩ | ⟨-, hf⟩
    · exact absurd hn (by decide)
    · exact hf

end Session

end Shortcode
