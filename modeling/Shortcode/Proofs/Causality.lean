import Shortcode.Proofs.Descent
import Shortcode.Proofs.Frontier

/-!
# What has not happened yet has no part in what has

Two expansions of one text that differ in what is known of a cancellation, or
in how deep texts may stand, do the same until the difference shows. Nothing
that happens before depends on what happens after, although much is known in
advance in the model: a member of a group is handed the requests of those
before it, whenever they are made, and a run carries what it will leave of
itself at each cut.

The step from the members of a group to the group is made elsewhere, for any
frontier. What is shown here is how a frontier comes down to the members and
what they do. A handler is followed up to the horizon of its member, or, where
it may take some time only, up to the moment at which its time is up
(`Session.inner`); a text that it asks for is followed up to the same horizon;
and the parts of a text are followed one behind the other. Each of these
steps is stated for two sessions that match (`Session.Matches`), which have the
same handlers and the same limits apart from the one for depth. Whoever
compares two expansions has to say what he knows of the texts that are asked
for, and nothing else.

The first use of it is that an expansion does not know of what is asked for
later (`Session.agrees_expandFrom`). The induction is on the levels of depth
that are left. Before the instant, whether the expansion was cancelled is
answered alike wherever somebody looks, and that is all that the answers
depend on.
-/

namespace Shortcode

namespace Session

variable {s s' : Session} {H : Horizon} {t depth : Nat} {now start : Moment}
  {known known' : Option Moment} {inv : Invocation} {e e' : Expander}
  {cleared called : Moment} {expander expander' : Invocation → Expander}

/-! ## Calls -/

/-- **Sessions that match**: they read texts alike and under the same
limits, apart from how deep they are expanded, and they have the same
handlers, which do the same in both. -/
structure Matches (s s' : Session) : Prop where
  registry : s'.registry = s.registry
  programs : ∀ name h, s.registry.resolve? name = some h → ∀ inv depth,
    h.program ⟨inv, depth, s'.settings, s'.metadata⟩
      = h.program ⟨inv, depth, s.settings, s.metadata⟩
  cancellable : s'.cancellable = s.cancellable
  timeLimit : s'.settings.timeLimit = s.settings.timeLimit
  maxConcurrency : s'.settings.maxConcurrency = s.settings.maxConcurrency
  delimiters : s'.settings.delimiters = s.settings.delimiters

theorem Matches.refl (s : Session) : s.Matches s :=
  ⟨rfl, fun _ _ _ _ _ => rfl, rfl, rfl, rfl, rfl⟩

theorem Matches.limit?_eq (h : s.Matches s') (hd : Handler) :
    s'.limit? hd = s.limit? hd := by
  unfold limit?
  rw [h.timeLimit]

/-- How far a handler is followed whose invocation is followed up to a
horizon. Under a time limit it is waited for, and may be cut sooner. -/
def inner {α : Type} (s : Session) (hd : Handler) (now : Moment) (r : Run α)
    (H : Horizon) : Horizon :=
  match s.limit? hd with
  | none => H
  | some time => H.clamp (r.due now time)

theorem within_inner {α : Type} (hH : H.Within t) (hd : Handler)
    (now : Moment) (r : Run α) : (s.inner hd now r H).Within t := by
  unfold inner
  split
  · exact hH
  · exact hH.clamp _

theorem le_finish_enter (hb : e.Onward) (s : Session) (hd : Handler)
    (inv : Invocation) (depth : Nat) (cleared start now : Moment)
    (known : Option Moment) :
    now ≤ (s.enter hd inv depth e cleared start now known).finish :=
  Program.le_finish_run _ hb now known

/-- **Handlers do the same up to a horizon** if what they ask for within it
is answered by runs that agree. -/
theorem Matches.agrees_enter (h : s.Matches s') (hH : H.Within t)
    {hd : Handler} (hr : s.registry.resolve? inv.name = some hd)
    (hb : e.Onward) (hb' : e'.Onward)
    (he : ∀ text asked heard,
      (hd.program ⟨inv, depth, s.settings, s.metadata⟩).Asks s.cancellable e
        text asked heard now known → ¬H.Precedes asked →
      ∀ heard', Moment.Alike t heard heard' →
        Run.Agrees H asked (e text asked heard) (e' text asked heard'))
    (hk : Moment.Alike t known known') :
    Run.Agrees H now (s.enter hd inv depth e cleared start now known)
      (s'.enter hd inv depth e' cleared start now known') := by
  have hrun := Program.agrees_run hH
    (hd.program ⟨inv, depth, s.settings, s.metadata⟩) hb hb' he hk
  have hle := Program.le_finish_run (b := s.cancellable)
    (hd.program ⟨inv, depth, s.settings, s.metadata⟩) hb now known
  unfold enter
  rw [h.cancellable, h.programs _ hd hr]
  refine (hrun.withOutcome fun o =>
    (o.bind Output.fragments).mapFailure (report inv)).inside ?_ ?_
  · intro hnow m ending
    rw [← hk.reached_eq (hH.instant_lt hnow)]
  · intro hno heq
    have hnow : ¬H.Precedes now := fun hp => hno (hp.mono hle)
    have heq : Program.run s.cancellable e'
        (hd.program ⟨inv, depth, s.settings, s.metadata⟩) now known' = _ :=
      hrun.same hno
    rw [heq, ← hk.reached_eq (hH.instant_lt hnow)]

/-- Calls agree if the handlers do as far as they are followed. -/
theorem Matches.agrees_call (h : s.Matches s') {hd : Handler}
    (hb : e.Onward) (hb' : e'.Onward)
    (hrun : Run.Agrees
      (s.inner hd now
        (s.enter hd inv depth e cleared now (s.entry hd now) known) H)
      (s.entry hd now)
      (s.enter hd inv depth e cleared now (s.entry hd now) known)
      (s'.enter hd inv depth e' cleared now (s.entry hd now) known')) :
    Run.Agrees H now (s.call hd inv depth e cleared now known)
      (s'.call hd inv depth e' cleared now known') := by
  unfold inner at hrun
  cases hl : s.limit? hd with
  | none =>
    rw [hl, entry_of_none hl] at hrun
    rw [call_of_none hl, call_of_none ((h.limit?_eq hd).trans hl)]
    exact hrun
  | some time =>
    rw [hl, entry_of_some hl] at hrun
    rw [call_of_some hl, call_of_some ((h.limit?_eq hd).trans hl)]
    exact hrun.waitedFor (le_finish_enter hb ..) (le_finish_enter hb' ..) _

/-- **Invocations run alike up to a horizon** if what their handlers ask for,
as far as they are followed, is answered by runs that agree. -/
theorem Matches.agrees_invoke (h : s.Matches s') (hH : H.Within t)
    (hb : e.Onward) (hb' : e'.Onward)
    (he : ∀ hd, s.registry.resolve? inv.name = some hd → ∀ K,
      s.inner hd now
        (s.enter hd inv depth e cleared now (s.entry hd now) known) H = K →
      ∀ text asked heard,
        (hd.program ⟨inv, depth, s.settings, s.metadata⟩).Asks s.cancellable
          e text asked heard (s.entry hd now) known →
        ¬K.Precedes asked → ∀ heard', Moment.Alike t heard heard' →
          Run.Agrees K asked (e text asked heard) (e' text asked heard'))
    (hk : Moment.Alike t known known') :
    Run.Agrees H now (s.invoke inv depth e cleared now known)
      (s'.invoke inv depth e' cleared now known') := by
  unfold invoke
  rw [h.registry]
  cases hr : s.registry.resolve? inv.name with
  | none => exact .refl H now _
  | some hd =>
    exact h.agrees_call hb hb'
      (h.agrees_enter (within_inner hH hd _ _) hr hb hb' (he hd hr _ rfl) hk)

/-! ## Members -/

/-- What a member does when its turn comes. -/
def turn (s : Session) (depth : Nat) (e : Expander) (called : Moment)
    (inv : Invocation) (start : Moment) (known : Option Moment) :
    Run (List Fragment) :=
  if s.settings.maxConcurrency = 0 then
    s.invoke inv depth e called start known
  else if Moment.reached known start then
    .now start (.failed (cancelledAt inv.offset))
  else s.invoke inv depth e start start known

theorem turn_eq_or (s : Session) (depth : Nat) (e : Expander)
    (called : Moment) (inv : Invocation) (start : Moment)
    (known : Option Moment) :
    s.turn depth e called inv start known
        = .now start (.failed (cancelledAt inv.offset))
      ∨ ∃ cleared, s.turn depth e called inv start known
        = s.invoke inv depth e cleared start known := by
  unfold turn
  split
  · exact .inr ⟨_, rfl⟩
  · split
    · exact .inl rfl
    · exact .inr ⟨_, rfl⟩

/-- Members look alike whether they were cancelled, and run alike if their
invocations do. -/
theorem Matches.agrees_turn (h : s.Matches s') (hH : H.Within t)
    (hk : Moment.Alike t known known')
    (hle : start ≤ (s.turn depth e called inv start known).finish)
    (hle' : start ≤ (s'.turn depth e' called inv start known').finish)
    (hi : ∀ cleared, s.turn depth e called inv start known
        = s.invoke inv depth e cleared start known →
      Run.Agrees H start (s.invoke inv depth e cleared start known)
        (s'.invoke inv depth e' cleared start known')) :
    Run.Agrees H start (s.turn depth e called inv start known)
      (s'.turn depth e' called inv start known') := by
  by_cases hp : H.Precedes start
  · exact Run.agrees_of_precedes hp hle hle'
  · unfold turn at hi ⊢
    rw [h.maxConcurrency, ← hk.reached_eq (hH.instant_lt hp)]
    split
    · next h0 => exact hi called (if_pos h0)
    · next h0 =>
      rw [if_neg h0] at hi
      split
      · exact .refl H start _
      · next hc => exact hi start (if_neg hc)

theorem le_finish_turn (he : e.Orderly s) (depth : Nat) (called : Moment)
    (inv : Invocation) (start : Moment) (known : Option Moment) :
    start ≤ (s.turn depth e called inv start known).finish := by
  rcases s.turn_eq_or depth e called inv start known with heq | ⟨c, heq⟩
  · rw [heq]
    exact start.le_refl
  · rw [heq]
    exact le_finish_invoke he inv c start known

/-- A member asks for a cancellation only when its turn has come. -/
theorem since_turn (he : e.Orderly s) (depth : Nat) (called : Moment)
    (inv : Invocation) (start : Moment) (known : Option Moment) :
    start.NotAfter (s.turn depth e called inv start known).cancels := by
  rcases s.turn_eq_or depth e called inv start known with heq | ⟨c, heq⟩
  · rw [heq]
    exact Moment.notAfter_none _
  rw [heq]
  unfold invoke
  cases hr : s.registry.resolve? inv.name with
  | none => exact Moment.notAfter_none _
  | some hd =>
    dsimp only
    have hprogram (m : Moment) :
        m.NotAfter (s.enter hd inv depth e c start m known).cancels :=
      (orderly_program hr ⟨inv, depth, s.settings, s.metadata⟩ he m known).since
    cases hl : s.limit? hd with
    | none =>
      rw [call_of_none hl]
      exact hprogram start
    | some time =>
      rw [call_of_some hl]
      obtain ⟨d, m, hwhole, -⟩ := Run.exists_whole_waitedFor
        (le_finish_enter he.onward s hd inv depth c start start.next known) time
        (.failed (report inv (.fault .timeout [])))
      have hcancels := congrArg Course.cancels hwhole
      show start.NotAfter (Run.whole _).cancels
      rw [hcancels]
      exact Run.notAfter_upTo
        (r := (s.enter hd inv depth e c start start.next known).behind
          start.next)
        ((hprogram start.next).mono start.le_next) d

/-! ## Groups -/

/-- The group that runs the handlers of some invocations. -/
def gathering (s : Session) (invs : List Invocation) (depth : Nat)
    (expander : Invocation → Expander) (now : Moment)
    (known : Option Moment) (cancelled : Failure) :
    Group.Gathering (List Fragment) :=
  ⟨s.settings.maxConcurrency, s.cancellable, now, cancelled, known,
    Group.members s.settings.maxConcurrency now.next known []
      (invs.map (s.member depth expander now))⟩

theorem called_gathering (he : ∀ inv, (expander inv).Orderly s)
    (invs : List Invocation) (cancelled : Failure) :
    (s.gathering invs depth expander now known cancelled).Called :=
  called_members he depth now known invs

/-- **The groups of sessions that match agree** up to a frontier, if what
their members do in their turns does. -/
theorem Matches.agrees_gathering (h : s.Matches s')
    (he : ∀ inv, (expander inv).Orderly s)
    (he' : ∀ inv, (expander' inv).Orderly s') {invs : List Invocation}
    {cancelled : Failure} {F : Group.Frontier now.next}
    (ok : Group.Placed (List Fragment) → Prop)
    (hnow : now.instant < t) (hF : ∀ place, (F.horizon place).Within t)
    (hc : now.NotAfter known) (hc' : now.NotAfter known')
    (hk : Moment.Alike t known known')
    (hearly : ∀ inv ∈ invs, ∀ n start known known', now.next ≤ start →
      (s.member depth expander now inv start known).Orderly s now known →
      (s'.member depth expander' now inv start known').Orderly s' now known' →
      Moment.Alike t known known' →
      ok ⟨n, s.member depth expander now inv start known⟩ →
      Run.Agrees (F.horizon n) start
          (s.turn depth (expander inv) now inv start known)
          (s'.turn depth (expander' inv) now inv start known')
        ∧ Moment.Alike t (s.turn depth (expander inv) now inv start known).cancels
          (s'.turn depth (expander' inv) now inv start known').cancels)
    (hlate : ∀ inv ∈ invs, ∀ start known, now.next ≤ start →
      (s.member depth expander now inv start known).Orderly s now known →
      F.Behind start →
      Moment.NotBefore t
        (s.turn depth (expander inv) now inv start known).cancels)
    (hlate' : ∀ inv ∈ invs, ∀ start known, now.next ≤ start →
      (s'.member depth expander' now inv start known).Orderly s' now known →
      F.Behind start →
      Moment.NotBefore t
        (s'.turn depth (expander' inv) now inv start known).cancels)
    (hok : ∀ y ∈ (s.gathering invs depth expander now known cancelled).members,
      ok y) :
    Group.Gathering.Agrees
      (g := s.gathering invs depth expander now known cancelled) t F
      (s'.gathering invs depth expander' now known' cancelled) where
  called := rfl
  cancellable := h.cancellable
  cancelled := rfl
  cancels := hk
  members := by
    have hlimit := h.maxConcurrency
    show List.Forall₂ _ (Group.placed s.settings.maxConcurrency now.next []
        (Group.members _ _ _ _ _))
      (Group.placed s'.settings.maxConcurrency now.next []
        (Group.members s'.settings.maxConcurrency now.next known' []
          (invs.map (s'.member depth expander' now))))
    rw [hlimit]
    refine Group.agrees_members ok invs ?_ ?_ ?_ ?_ hk hc hc' .nil hok
    · intro inv hinv n start known known' hle hzero hk hk' halike hoky
      obtain ⟨hturn, hcancels⟩ := hearly inv hinv n start known known' hle
        (orderly_member he inv hle hzero hk)
        (orderly_member he' inv hle (fun h0 => hzero (hlimit.symm.trans h0)) hk')
        halike hoky
      have hfinish := le_finish_turn (he inv) depth now inv start known
      have hfinish' := le_finish_turn (he' inv) depth now inv start known'
      exact Group.Placed.agrees_behind
        (hturn.behind hfinish hfinish' now.next)
        (Moment.le_trans hle hfinish) (Moment.le_trans hle hfinish') hcancels
    · intro inv hinv n n' start start' known known' hle hle' h0 h0' hk hk' hs hs'
      exact Group.Placed.agrees_of_behind hs hs' hle hle'
        (le_finish_turn (he inv) depth now inv start known)
        (le_finish_turn (he' inv) depth now inv start' known')
        (hlate inv hinv start known hle (orderly_member he inv hle h0 hk) hs)
        (hlate' inv hinv start' known' hle'
          (orderly_member he' inv hle' (fun h => h0' (hlimit.symm.trans h)) hk')
          hs')
    · intro inv hinv start known hle
      exact (since_turn (he inv) depth now inv start known).mono
        (Moment.le_trans now.le_next hle)
    · intro inv hinv start known hle
      exact (since_turn (he' inv) depth now inv start known).mono
        (Moment.le_trans now.le_next hle)
  within := hF
  starts := called_gathering he invs cancelled
  cleared x hx c hlt d hd := by
    have hrun : x.run.Orderly s now known := by
      refine Group.orderly_members (fun m hm start known hle h0 hk => ?_) hc []
        x.run (Group.Gathering.run_mem hx)
      obtain ⟨inv, -, rfl⟩ := List.mem_map.mp hm
      exact orderly_member he inv hle h0 hk
    exact hrun.cleared_upTo hnow hlt d hd

/-- The invocations of a text run alike if their groups do. -/
theorem agrees_invokeAll (hH : H.Within t)
    (he : ∀ inv, (expander inv).Orderly s)
    (he' : ∀ inv, (expander' inv).Orderly s') (hk : Moment.Alike t known known')
    (invs : List Invocation)
    (hgroup : ¬H.Precedes now → now.NotAfter known → now.NotAfter known' →
      ∀ cancelled, s.invokeAll invs depth expander now known
        = (s.gathering invs depth expander now known cancelled).run →
      Run.Agrees H now
        (s.gathering invs depth expander now known cancelled).run
        (s'.gathering invs depth expander' now known' cancelled).run) :
    Run.Agrees H now (s.invokeAll invs depth expander now known)
      (s'.invokeAll invs depth expander' now known') := by
  by_cases hp : H.Precedes now
  · exact Run.agrees_of_precedes hp (orderly_invokeAll he invs).le
      (orderly_invokeAll he' invs).le
  · have hreached := hk.reached_eq (hH.instant_lt hp)
    unfold invokeAll at hgroup ⊢
    cases invs with
    | nil => exact .refl H now _
    | cons inv invs =>
      dsimp only at hgroup ⊢
      rw [← hreached]
      split
      · exact .refl H now _
      · next hc =>
        rw [if_neg hc] at hgroup
        have hno {known : Option Moment} (h : Moment.reached known now = false) :
            now.NotAfter known :=
          (Moment.reached_eq_false_iff.mp h).mono now.le_next
        have hc : Moment.reached known now = false := by simpa using hc
        exact hgroup hp (hno hc) (hno (hreached ▸ hc)) _ rfl

/-! ## Texts -/

/-- **Texts are put together alike up to a horizon**, if the parts are that
are expanded within it. -/
theorem agrees_splice (he : ∀ inv, (expander inv).Orderly s)
    (he' : ∀ inv, (expander' inv).Orderly s') (ps : List Part)
    (hk : Moment.Alike t known known')
    (hp : ∀ inv text asked heard,
      Pends expander inv text asked heard ps now known → ¬H.Precedes asked →
      ∀ heard', Moment.Alike t heard heard' →
        Run.Agrees H asked (expander inv text asked heard)
          (expander' inv text asked heard')) :
    Run.Agrees H now (splice expander ps now known)
      (splice expander' ps now known') := by
  by_cases hnow : H.Precedes now
  · exact Run.agrees_of_precedes hnow (orderly_splice he ps now known).le
      (orderly_splice he' ps now known').le
  · induction ps generalizing now known known' with
    | nil => exact .refl H now _
    | cons part rest ih =>
      cases part with
      | ready u =>
        exact (ih hk (fun _ _ _ _ h => hp _ _ _ _ (.ready h)) hnow).mapResult _
      | pending inv u =>
        have ha := hp inv u now known .here hnow known' hk
        refine ha.andThen (fun a ho hend heq => ?_)
          (fun _ m k => (orderly_splice he rest m k).le)
          (fun _ m k => (orderly_splice he' rest m k).le)
        exact (ih (hk.earliest? (.refl t _))
          (fun _ _ _ _ h => hp _ _ _ _ (.behind ho h)) hend).mapResult _

/-- **Segments are expanded alike up to a horizon**, if their invocations run
alike, and then the parts that are expanded within it. -/
theorem agrees_expandSegments (he : ∀ inv, (expander inv).Orderly s)
    (he' : ∀ inv, (expander' inv).Orderly s')
    (hk : Moment.Alike t known known') {segments : List Segment}
    (hgroup : Run.Agrees H now
      (s.invokeAll (Segment.invocations segments) depth
        (fun inv => escaping (expander inv)) now known)
      (s'.invokeAll (Segment.invocations segments) depth
        (fun inv => escaping (expander' inv)) now known'))
    (hp : ∀ group, s.invokeAll (Segment.invocations segments) depth
        (fun inv => escaping (expander inv)) now known = group →
      ∀ produced, group.outcome = .returned produced →
        ¬H.Precedes group.finish → ∀ inv text asked heard,
        Pends expander inv text asked heard (parts segments produced)
          group.finish (Moment.earliest? known group.cancels) →
        ¬H.Precedes asked → ∀ heard', Moment.Alike t heard heard' →
          Run.Agrees H asked (expander inv text asked heard)
            (expander' inv text asked heard')) :
    Run.Agrees H now
      (s.expandSegments expander depth segments now known)
      (s'.expandSegments expander' depth segments now known') := by
  unfold expandSegments
  refine hgroup.andThen (fun produced ho hend _ => ?_)
    (fun produced m k =>
      ((orderly_splice he (parts segments produced) m k).withOutcome _).le)
    (fun produced m k =>
      ((orderly_splice he' (parts segments produced) m k).withOutcome _).le)
  exact (agrees_splice he he' _ (hk.earliest? (.refl t _))
    (hp _ rfl produced ho hend)).mapResult concat

/-- Texts are expanded alike up to a horizon if those that are read are put
together alike. -/
theorem Matches.agrees_of_reads (h : s.Matches s') (hH : H.Within t)
    (hk : Moment.Alike t known known') {levels levels' : Nat}
    {trigger : Option Text} {origin : Int} {text : Option Text}
    (hin : ∀ segments,
      Request.Reads ⟨levels + 1, depth, trigger, origin, text, now, known⟩ s
        segments →
      Run.Agrees H now
        (s.expandSegments
          (fun inv text => s.expandFrom levels (depth + 1) (some inv.name)
            ((text.map inv.originOf).getD inv.offset) text)
          depth segments now known)
        (s'.expandSegments
          (fun inv text => s'.expandFrom levels' (depth + 1) (some inv.name)
            ((text.map inv.originOf).getD inv.offset) text)
          depth segments now known')) :
    Run.Agrees H now
      (s.expandFrom (levels + 1) depth trigger origin text now known)
      (s'.expandFrom (levels' + 1) depth trigger origin text now known') := by
  by_cases hp : H.Precedes now
  · exact Run.agrees_of_precedes hp
      (orderly_expandFrom _ depth trigger origin text now known).le
      (orderly_expandFrom _ depth trigger origin text now known').le
  · have hreached := hk.reached_eq (hH.instant_lt hp)
    unfold expandFrom
    rw [← hreached]
    by_cases hc : Moment.reached known now = true
    · rw [if_pos hc, if_pos hc]
      exact .refl H now _
    · rw [if_neg hc, if_neg hc]
      cases text with
      | none => exact .refl H now _
      | some u =>
        dsimp only
        rw [h.delimiters]
        cases hu : Text.has s.settings.delimiters.opening u with
        | false =>
          rw [Bool.not_false, if_pos rfl, if_pos rfl]
          exact .refl H now _
        | true =>
          rw [Bool.not_true, if_neg Bool.false_ne_true,
            if_neg Bool.false_ne_true]
          cases hparse : Segment.parse s.settings.delimiters u origin with
          | error f =>
            dsimp only
            exact .refl H now _
          | ok segments =>
            exact hin segments
              ⟨levels.succ_ne_zero, by simpa using hc, u, rfl, hu, hparse⟩

/-! ## Expansions -/

theorem orderly_escaping (he : e.Orderly s) : (escaping e).Orderly s :=
  fun text now known => (he text now known).withOutcome _

/-- **An expansion does not know of what is asked for later.** Before an
instant it is the same whatever is asked for at that instant or later. -/
theorem agrees_expandFrom (s : Session) (levels depth : Nat)
    (trigger : Option Text) (origin : Int) (text : Option Text)
    (hk : Moment.Alike t known known') :
    Run.Agrees (.instant t) now
      (s.expandFrom levels depth trigger origin text now known)
      (s.expandFrom levels depth trigger origin text now known') := by
  induction levels generalizing depth trigger origin text now known known' with
  | zero =>
    by_cases hlt : now.instant < t
    · unfold expandFrom
      rw [← hk.reached_eq hlt]
      exact .refl _ now _
    · exact Run.agrees_of_precedes (Nat.not_lt.mp hlt)
        (orderly_expandFrom 0 depth trigger origin text now known).le
        (orderly_expandFrom 0 depth trigger origin text now known').le
  | succ levels ih =>
    have hs := Matches.refl s
    have hH := Horizon.within_instant t
    refine hs.agrees_of_reads hH hk fun segments _ => ?_
    have he (inv : Invocation) : Expander.Orderly s fun text =>
        s.expandFrom levels (depth + 1) (some inv.name)
          ((text.map inv.originOf).getD inv.offset) text :=
      fun text => orderly_expandFrom levels (depth + 1) _ _ text
    refine agrees_expandSegments he he hk ?_
      fun _ _ _ _ _ _ _ _ _ _ _ _ hh => ih _ _ _ _ hh
    have hescaping (inv : Invocation) := orderly_escaping (he inv)
    refine agrees_invokeAll hH hescaping hescaping hk _
      fun hnow hc hc' cancelled _ => ?_
    have hlt : now.instant < t := Nat.not_le.mp hnow
    have hlate (inv : Invocation) (start : Moment) (known : Option Moment)
        (hle : now.next ≤ start)
        (hs : (Group.Frontier.instant now.next t).Behind start) :
        Moment.NotBefore t (s.turn depth (escaping fun text =>
          s.expandFrom levels (depth + 1) (some inv.name)
            ((text.map inv.originOf).getD inv.offset) text)
          now inv start known).cancels := by
      exact Moment.NotAfter.notBefore
        (since_turn (hescaping inv) depth now inv start known)
        (hs.le_instant hle)
    refine Group.Gathering.Agrees.run_instant
      (hs.agrees_gathering hescaping hescaping (fun _ => True) hlt
        (fun _ => hH) hc hc' hk ?_ (fun inv _ start known hle _ hs =>
          hlate inv start known hle hs) (fun inv _ start known hle _ hs =>
          hlate inv start known hle hs) fun _ _ => trivial)
    intro inv _ _ start known known' hle ho ho' hh _
    have hfinish := le_finish_turn (hescaping inv) depth now inv start known
    have hfinish' := le_finish_turn (hescaping inv) depth now inv start known'
    have hturn : Run.Agrees (.instant t) start
        (s.turn depth (escaping _) now inv start known)
        (s.turn depth (escaping _) now inv start known') :=
      hs.agrees_turn hH hh hfinish hfinish' fun cleared _ =>
        hs.agrees_invoke hH (hescaping inv).onward (hescaping inv).onward
          (fun hd _ K hK _ _ _ _ _ _ hh => by
            subst hK
            exact ((ih _ _ _ _ hh).mapFailure _).of_instant
              (within_inner hH hd _ _)) hh
    exact ⟨hturn, ((hturn.behind hfinish hfinish' now.next).behind
      (Moment.le_trans hle hfinish) (Moment.le_trans hle hfinish')
      now).alike_cancels ho ho'⟩

/-- Nor does one whose text is empty, and is not looked at. -/
theorem agrees_expand (s : Session) (text : Text) (now : Moment)
    (hk : Moment.Alike t known known') :
    Run.Agrees (.instant t) now (s.expand text now known)
      (s.expand text now known') := by
  unfold expand
  split
  · exact .refl _ now _
  · exact s.agrees_expandFrom _ _ _ _ _ hk

end Session

end Shortcode
