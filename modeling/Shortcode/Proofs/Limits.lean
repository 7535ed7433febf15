import Shortcode.Proofs.Concurrence
import Shortcode.Proofs.Timeouts

/-!
# Limits that are kept to

A limit that is not met should not matter. But under a limit a handler that
can wait is run by a task of its own, which begins a step later than the
handler would and is heard of two steps after it has ended. A handler that
cannot wait is run as before. So two handlers that would have done something
at one instant, one after the other, may do it in the other order. Where both
fail another one of them is told of (`Session.exists_run_changed_by_limit`),
and where one asks for the cancellation of the expansion and the other one
looks for it that one may see something else.

Where nothing of the kind happens a limit that is kept to does not matter
(`Session.concurs_expand`): all that is done is done at the same instants, with
and without it. Nobody may ask for a cancellation, and when one member of a
group fails, the others must not do anything at that instant. That excludes
coincidences and nothing else. A member may fail while others sleep, and these
are cut; members may end at one instant, as long as none of them fails; and
whatever becomes of a failure further up is of no account.

What is assumed is assumed of the run without a limit. That run is told by what
its members would do if nobody interfered, and a member that is cut may go on to
do things that the run never comes to. So assumptions are made only of what is
requested before the run is over, and within a group, before the group is
(`Request.Reaches`). And a call that is cut has been in time if it was until
then (`Registry.InTimeBefore`), whatever it would have come to.

A run is looked at until just after the instant at which it ends. Whatever
happens at that instant counts, even if it is left out because the run has
ended a few steps sooner: with a limit it might not be.
-/

namespace Shortcode

theorem Double.Above.mono {k l : Nat} {t : Double} (h : t.Above l)
    (hle : k ≤ l) : t.Above k := by
  cases t with
  | finite negative units =>
    exact ⟨h.1, Nat.lt_of_le_of_lt (Nat.mul_le_mul_right _ hle) h.2⟩
  | infinite negative => exact h
  | undefined => exact h

/-- **Calls that end in time**: of handlers that can wait, all take less than
some time. -/
def Registry.InTime (g : Registry) (time : Double) (calls : List Call) :
    Prop :=
  ∀ c ∈ calls, g.Waits c.name →
    time.Above (c.left.instant - c.entered.instant)

/-- **Calls that are in time before an instant**: of handlers that can wait,
all that are entered before it have taken less than some time when they have
ended, or until just before it. -/
def Registry.InTimeBefore (g : Registry) (time : Double) (t : Nat)
    (calls : List Call) : Prop :=
  ∀ c ∈ calls, g.Waits c.name → c.entered.instant < t →
    time.Above (min c.left.instant (t - 1) - c.entered.instant)

section

variable {g : Registry} {time : Double} {t u : Nat} {calls calls' : List Call}

theorem Registry.InTimeBefore.subset (h : g.InTimeBefore time t calls)
    (hsub : calls' ⊆ calls) : g.InTimeBefore time t calls' :=
  fun c hc => h c (hsub hc)

theorem Registry.InTime.before (h : g.InTime time calls) (t : Nat) :
    g.InTimeBefore time t calls :=
  fun c hc hw _ => (h c hc hw).mono (by omega)

end

/-! ## What a run comes to -/

namespace Request

variable {s : Session} {time : Double} {q r : Request} {t u : Nat}
  {segments : List Segment}

/-- Until when the members of a group are looked at: the group may be over
sooner than the run. -/
def bound (q : Request) (s : Session) (segments : List Segment) (t : Nat) :
    Nat :=
  min t ((q.group s segments).finish.instant + 1)

/-- **What a request comes to before an instant**, and until when it is looked
at: what its handlers ask for while their group is in progress, and what is
requested again of what they return. -/
inductive Reaches (s : Session) (root : Request) (t : Nat) :
    Request → Nat → Prop
  | root : Reaches s root t root t
  | asked {q : Request} {u : Nat} {segments : List Segment} {inv : Invocation}
      {start asked : Moment} {known heard : Option Moment} {h : Handler}
      {text : Option Text} :
      Reaches s root t q u → q.Reads s segments →
      (inv, start, known) ∈ q.started s segments →
      s.registry.resolve? inv.name = some h →
      (h.program ⟨inv, q.depth, s.settings, s.metadata⟩).Asks s.cancellable
        (Session.escaping (q.expander s inv)) text asked heard
        (s.entry h start) known →
      asked.instant < q.bound s segments u →
      Reaches s root t (q.nested inv text asked heard) (q.bound s segments u)
  | rescanned {q r : Request} {u : Nat} {segments : List Segment} :
      Reaches s root t q u → q.Reads s segments → r ∈ q.rescans s segments →
      r.now.instant < u → Reaches s root t r u

theorem Reaches.trans {root x : Request} {v : Nat}
    (h : Reaches s root t r u) (h' : Reaches s r u x v) :
    Reaches s root t x v := by
  induction h' with
  | root => exact h
  | asked _ hq hy hr ha hlt ih => exact .asked ih hq hy hr ha hlt
  | rescanned _ hq hr hlt ih => exact .rescanned ih hq hr hlt

/-- **A request that nothing disturbs before an instant**, and that keeps to a
time until then. -/
structure CalmBefore (s : Session) (time : Double) (t : Nat) (q : Request) :
    Prop where
  unasked : Moment.NotBefore t q.cancels
  quiet : Moment.NotBefore t (q.run s).cancels
  inTime : s.registry.InTimeBefore time t (q.run s).calls
  alone : ∀ r u segments, q.Reaches s t r u → r.Reads s segments →
    (r.group s segments).finish.instant < u →
      ∀ f, (r.group s segments).outcome = .failed f →
        Run.Alone (r.group s segments).finish.instant
          (r.memberRuns s segments)

/-- **A request that nothing disturbs**, and that keeps to a time: nobody asks
for a cancellation before its run is over, all of its calls take less time, and
when a group fails that it comes to, only the one member does anything at that
instant. -/
structure Calm (s : Session) (time : Double) (q : Request) : Prop where
  unasked : Moment.NotBefore ((q.run s).finish.instant + 1) q.cancels
  quiet : (q.run s).cancels = none
  inTime : s.registry.InTime time (q.run s).calls
  alone : ∀ r u segments,
    q.Reaches s ((q.run s).finish.instant + 1) r u → r.Reads s segments →
      (r.group s segments).finish.instant < u →
        ∀ f, (r.group s segments).outcome = .failed f →
          Run.Alone (r.group s segments).finish.instant
            (r.memberRuns s segments)

theorem Calm.before (h : q.Calm s time) :
    q.CalmBefore s time ((q.run s).finish.instant + 1) :=
  ⟨h.unasked, h.quiet ▸ Moment.notBefore_none, h.inTime.before _, h.alone⟩

/-- What is requested of a request that nothing disturbs is not disturbed. -/
theorem CalmBefore.nested (h : q.CalmBefore s time t) (hr : q.Reaches s t r u)
    (hunasked : Moment.NotBefore u r.cancels)
    (hquiet : Moment.NotBefore u (r.run s).cancels)
    (hin : s.registry.InTimeBefore time u (r.run s).calls) :
    r.CalmBefore s time u :=
  ⟨hunasked, hquiet, hin, fun x v segments hx =>
    h.alone x v segments (hr.trans hx)⟩

/-- The group of a text is one as it is in an expansion. -/
theorem Reads.regular (h : q.Reads s segments) (cancelled : Failure) :
    (q.gathering s segments cancelled).Regular s where
  called := Session.called_members (q.orderly_escaping s) _ _ _ _
  orderly r hr := by
    have hr : r ∈ q.memberRuns s segments := hr
    rw [memberRuns_eq] at hr
    obtain ⟨y, hy, rfl⟩ := List.mem_map.mp hr
    exact h.orderly_memberRun hy
  firm r hr := by
    obtain ⟨m, hm, start, heard, hle, rfl⟩ := Group.exists_of_mem_members hr
    obtain ⟨inv, -, rfl⟩ := List.mem_map.mp hm
    exact (Session.firm_member
      (fun inv text now known =>
        (Session.firm_expandFrom _ _ _ _ text now known).withOutcome _)
      inv hle heard).mono (Moment.le_trans q.now.le_next hle)

end Request

/-! ## With and without a limit -/

namespace Session

/-- The session with a time limit for handlers. -/
def withTimeout (s : Session) (time : Double) : Session :=
  { s with settings := { s.settings with handlerTimeout := some time } }

variable {s : Session} {time : Double} {n depth t : Nat} {inv : Invocation}

/-- Handlers that do not look at the settings do the same under a limit. -/
theorem program_withTimeout
    (hblind : ∀ name h, s.registry.resolve? name = some h → h.Blind)
    {h : Handler} (hr : s.registry.resolve? inv.name = some h) :
    h.program ⟨inv, depth, (s.withTimeout time).settings,
        (s.withTimeout time).metadata⟩
      = h.program ⟨inv, depth, s.settings, s.metadata⟩ :=
  hblind _ h hr ⟨inv, depth, s.settings, s.metadata⟩ _

/-- **Whether a text is read** has nothing to do with a limit. One that is not
read takes no time and calls nobody. -/
theorem concursBefore_of_reads {q : Request}
    (hunasked : Moment.NotBefore t q.cancels) (hlt : q.now.instant < t) {m : Moment} {heard : Option Moment}
    (hm : q.now.instant = m.instant) (hheard : Moment.NotBefore t heard)
    (h : ∀ segments, q.Reads s segments →
      Request.Reads { q with now := m, cancels := heard } (s.withTimeout time)
        segments →
      Run.ConcursBefore t (q.run s)
        (Request.run { q with now := m, cancels := heard }
          (s.withTimeout time))) :
    Run.ConcursBefore t (q.run s)
      (Request.run { q with now := m, cancels := heard }
        (s.withTimeout time)) := by
  obtain ⟨levels, depth, trigger, origin, text, now, cancels⟩ := q
  have hsame (o : Outcome Text) :
      Run.ConcursBefore t (.now now o) (.now m o) :=
    Run.concursBefore_now (.of_eq hm) o
  have hc : Moment.reached cancels now = false :=
    hunasked.reached_eq_false hlt
  have hc' : Moment.reached heard m = false :=
    hheard.reached_eq_false (hm ▸ hlt)
  let s' := s.withTimeout time
  unfold Request.run
  cases text with
  | none =>
    rw [expandFrom_none hc, expandFrom_none hc']
    exact hsame _
  | some u =>
    cases hu : Text.has s.settings.delimiters.opening u with
    | false =>
      rw [expandFrom_plain hc hu, expandFrom_plain (s := s') hc' hu]
      exact hsame _
    | true =>
      cases levels with
      | zero =>
        rw [expandFrom_zero hc hu, expandFrom_zero (s := s') hc' hu]
        exact Run.concursBefore_tooDeep (.of_eq hm) _
      | succ levels =>
        cases hp : Segment.parse s.settings.delimiters u origin with
        | error e =>
          have hp' : Segment.parse s'.settings.delimiters u origin
            = .error e := hp
          rw [expandFrom_succ hc hu, expandFrom_succ (s := s') hc' hu, hp, hp']
          exact hsame _
        | ok segments =>
          exact h segments ⟨levels.succ_ne_zero, hc, u, rfl, hu, hp⟩
            ⟨levels.succ_ne_zero, hc', u, rfl, hu, hp⟩

/-- What a member does that is not cancelled when its turn comes. -/
theorem exists_member_eq (s : Session) (depth : Nat)
    (expander : Invocation → Expander) (called : Moment) (inv : Invocation)
    {start : Moment} {known : Option Moment}
    (hk : Moment.reached known start = false) :
    ∃ cleared, s.member depth expander called inv start known
      = ((s.invoke inv depth (expander inv) cleared start known).behind
          start).behind called.next := by
  unfold member
  split
  · exact ⟨_, rfl⟩
  · rw [hk]
    exact ⟨_, rfl⟩

section

variable (hs : s.settings.handlerTimeout = none)
  (hblind : ∀ name h, s.registry.resolve? name = some h → h.Blind)
include hs hblind

variable (ht : time.isPositive = true) (hn : time.ceil? = some n)
include ht hn

/-- **Invocations concur with and without a limit** whose handlers are in
time. Under the limit a handler that can wait is run by a task of its own: that
has ended in time, or it goes on beyond the instant. -/
theorem concursBefore_invoke {e e' : Expander} (he : e.Firm)
    (he' : e'.Firm) {cleared cleared' now now' : Moment}
    {known known' : Option Moment} (hlt : now.instant < t)
    (hnow : now.instant = now'.instant) (hk : Moment.NotBefore t known)
    (hk' : Moment.NotBefore t known')
    (hq : Moment.NotBefore t (s.invoke inv depth e cleared now known).cancels)
    (hin : s.registry.InTimeBefore time t
      (s.invoke inv depth e cleared now known).calls)
    (hnested : ∀ h, s.registry.resolve? inv.name = some h →
      ∀ text asked heard,
        (h.program ⟨inv, depth, s.settings, s.metadata⟩).Asks s.cancellable e
          text asked heard (s.entry h now) known →
        asked.instant < t →
        s.registry.InTimeBefore time t (e text asked heard).calls →
          e.ConcursBefore t e' text asked heard) :
    Run.ConcursBefore t (s.invoke inv depth e cleared now known)
      ((s.withTimeout time).invoke inv depth e' cleared' now' known') := by
  have hregistry : (s.withTimeout time).registry = s.registry := rfl
  unfold invoke at hq hin ⊢
  rw [hregistry]
  cases hr : s.registry.resolve? inv.name with
  | none => exact Run.concursBefore_now (.of_eq hnow) _
  | some h =>
    rw [hr] at hq hin
    dsimp only at hq hin ⊢
    have hlimit : s.limit? h = none :=
      limit?_of_timeLimit_eq_none (Settings.timeLimit_of_none hs)
    have hnested := hnested h hr
    rw [entry_of_none hlimit] at hnested
    rw [call_of_none hlimit] at hq hin ⊢
    have hprogram : s.registry.InTimeBefore time t
        ((h.program ⟨inv, depth, s.settings, s.metadata⟩).run s.cancellable e
          now known).calls :=
      hin.subset (List.subset_cons_self _ _)
    have henter (started' entered' : Moment)
        (hentered : now.instant = entered'.instant) :
        Run.ConcursBefore t (s.enter h inv depth e cleared now now known)
          ((s.withTimeout time).enter h inv depth e' cleared' started'
            entered' known') := by
      unfold enter
      rw [program_withTimeout hblind hr]
      have hrun := Program.concursBefore_run he he' _ (.of_eq hentered) hk hk'
        hq fun text asked heard ha hasked =>
          hnested text asked heard ha hasked (hprogram.subset ha.calls_subset)
      refine (hrun.withOutcome fun hend => ?_).inside rfl rfl (.of_eq hentered)
        fun hend => ?_
      · exact congrArg (fun o =>
          (o.bind Output.fragments).mapFailure (report inv)) (hrun.outcome hend)
      · exact congrArg (endingOf h.concurrent) (hrun.outcome hend)
    cases hlimit' : (s.withTimeout time).limit? h with
    | none =>
      rw [call_of_none hlimit']
      exact henter now' now' hnow
    | some n' =>
      obtain ⟨hc, hn'⟩ := limit?_eq_some_iff.mp hlimit'
      obtain rfl : n' = n := by
        have hsome : (s.withTimeout time).settings.timeLimit = some n := hn
        exact Option.some.inj (hn'.symm.trans hsome)
      have hrun := henter now' now'.next hnow
      -- the handler has not taken so long yet
      have hbrief := (time.above_iff ht _).mp
        (hin _ List.mem_cons_self ⟨h, hr, hc⟩ hlt) n' hn
      have hbrief : min (s.enter h inv depth e cleared now now
          known).finish.instant (t - 1) - now.instant < n' := hbrief
      rw [call_of_some hlimit']
      by_cases hended : ((s.withTimeout time).enter h inv depth e' cleared'
          now' now'.next known').finish.instant < now'.instant + n'
      · rw [Run.waitedFor, dif_pos hended]
        exact hrun.heard now'.next
      · refine hrun.overdue ?_ _ hended ?_
        · exact ((Program.firm_run he' _ now'.next known').withOutcome
            _).inside (Moment.le_refl _)
        · have hfinish := hrun.finish
          unfold Moment.Concurs at hfinish
          omega

/-- **The invocations of a text concur** until their group is over, if what is
requested of it does. -/
theorem concursBefore_memberRuns {q : Request} {segments : List Segment}
    {m : Moment} {heard' : Option Moment} {u : Nat}
    (hm : q.now.instant = m.instant) (hk : Moment.NotBefore u q.cancels)
    (hk' : Moment.NotBefore u heard')
    (hquiet : ∀ r ∈ q.memberRuns s segments, Moment.NotBefore u r.cancels)
    (hin : ∀ r ∈ q.memberRuns s segments,
      s.registry.InTimeBefore time u r.calls)
    (ih : ∀ inv start known, (inv, start, known) ∈ q.started s segments →
      ∀ h, s.registry.resolve? inv.name = some h → ∀ text asked heard,
        (h.program ⟨inv, q.depth, s.settings, s.metadata⟩).Asks s.cancellable
          (escaping (q.expander s inv)) text asked heard (s.entry h start)
          known → asked.instant < u →
        s.registry.InTimeBefore time u
          ((q.nested inv text asked heard).run s).calls →
        (escaping (q.expander s inv)).ConcursBefore u
          (escaping (Request.expander { q with now := m, cancels := heard' }
            (s.withTimeout time) inv)) text asked heard) :
    List.Forall₂ (Run.ConcursBefore u) (q.memberRuns s segments)
      (Request.memberRuns { q with now := m, cancels := heard' }
        (s.withTimeout time) segments) := by
  have hfirm (s : Session) (q : Request) (inv : Invocation) :
      (escaping (q.expander s inv)).Firm := fun text now known =>
    (firm_expandFrom _ _ _ _ text now known).withOutcome _
  have hfirst : q.now.next.instant = m.next.instant := hm
  refine Group.concursBefore_members s.settings.maxConcurrency
    (.of_eq hfirst) (fun inv start known hle => ?_) (fun inv start known hle => ?_)
    rfl hk hk' _ fun inv start known hy hlt hknown => ?_
  · exact firm_member (hfirm s q) inv hle known
  · exact firm_member (hfirm (s.withTimeout time) _) inv hle known
  have hmem : q.memberRun s (inv, start, known) ∈ q.memberRuns s segments :=
    q.memberRuns_eq s segments ▸ List.mem_map_of_mem hy
  have hquiet := hquiet _ hmem
  refine ⟨hquiet, fun start' known' hstart hknown' => ?_⟩
  have hin := hin _ hmem
  unfold Request.memberRun at hquiet hin
  dsimp only at hquiet hin
  obtain ⟨cleared, hrun⟩ := s.exists_member_eq q.depth
    (fun inv => escaping (q.expander s inv)) q.now inv
    (hknown.reached_eq_false hlt)
  obtain ⟨cleared', hrun'⟩ := (s.withTimeout time).exists_member_eq q.depth
    (fun inv => escaping (Request.expander { q with now := m, cancels := heard' }
      (s.withTimeout time) inv)) m inv (hknown'.reached_eq_false (hstart ▸ hlt))
  rw [hrun] at hquiet hin ⊢
  rw [hrun']
  rw [Run.cancels_behind, Run.cancels_behind] at hquiet
  refine Run.ConcursBefore.behind (Run.ConcursBefore.behind ?_ _ _) _ _
  exact concursBefore_invoke hs hblind ht hn (hfirm s q inv)
    (hfirm (s.withTimeout time) _ inv) hlt hstart hknown hknown' hquiet hin
    fun h hr text asked heard ha hasked hcalls =>
      ih inv start known hy h hr text asked heard ha hasked hcalls

/-- And so does their group. -/
theorem concursBefore_group {q : Request} (h : q.CalmBefore s time t)
    {segments : List Segment} {m : Moment} {heard' : Option Moment}
    (hq : q.Reads s segments)
    (hq' : Request.Reads { q with now := m, cancels := heard' }
      (s.withTimeout time) segments)
    (hm : q.now.instant = m.instant) (hk' : Moment.NotBefore t heard')
    (ih : ∀ inv text asked heard u,
      q.Reaches s t (q.nested inv text asked heard) u →
      (q.nested inv text asked heard).CalmBefore s time u →
        ∀ (asked' : Moment) (known : Option Moment),
          asked.instant = asked'.instant → Moment.NotBefore u known →
            Run.ConcursBefore u ((q.nested inv text asked heard).run s)
              ((q.nested inv text asked' known).run (s.withTimeout time))) :
    Run.ConcursBefore t (q.group s segments)
      (Request.group { q with now := m, cancels := heard' }
        (s.withTimeout time) segments) := by
  have hquiet := hq.run_eq ▸ h.quiet
  have hquiet : Moment.NotBefore t (q.group s segments).cancels :=
    (Run.notBefore_of_andThen hquiet).1
  have hin : s.registry.InTimeBefore time t (q.group s segments).calls :=
    h.inTime.subset (hq.calls_run ▸ List.subset_append_left _ _)
  have halone := h.alone q t segments .root hq
  cases hinvs : Segment.invocations segments with
  | nil =>
    unfold Request.group invokeAll
    rw [hinvs]
    exact Run.concursBefore_now (.of_eq hm) _
  | cons first rest =>
    let g := q.gathering s segments (cancelledAt first.offset)
    have hregular : g.Regular s := hq.regular _
    have hregular' := hq'.regular (cancelledAt first.offset)
    have hgroup : q.group s segments = g.run := hq.group_eq hinvs
    have hbound : q.bound s segments t
        = min t (g.look.moment.instant + 1) := by
      unfold Request.bound
      rw [hgroup, g.instant_finish]
    rw [hgroup] at hquiet hin halone ⊢
    rw [g.instant_finish] at halone
    rw [hq'.group_eq hinvs]
    have hbefore := hregular.quietBefore h.unasked hquiet halone
    have hle : q.bound s segments t ≤ t := Nat.min_le_left _ _
    rw [← hbound] at hbefore
    refine Group.Gathering.concursBefore_run hregular hregular' ?_ h.unasked hk'
      ?_ halone
    · show q.memberRuns s segments ≠ []
      unfold Request.memberRuns
      rw [hinvs]
      exact List.cons_ne_nil _ _
    rw [← hbound]
    refine concursBefore_memberRuns hs hblind ht hn hm hbefore.cancels
      (hk'.mono hle) hbefore.runs (fun r hr c hc hw he => ?_) ?_
    · -- the call is made in the group, and has been in time there
      obtain ⟨d, hd, hinvocation, hentered, hmin⟩ :=
        hregular.exists_call (hbound ▸ hbefore) halone hr hc (hbound ▸ he)
      have hname : d.name = c.name := congrArg Invocation.name hinvocation
      refine (hin d hd (hname ▸ hw) (by omega)).mono ?_
      rw [hbound, hentered]
      omega
    · intro inv start known hy handler hr text asked heard ha hasked hcalls
        hheard hno asked' known' hinstant hknown
      have hreaches : q.Reaches s t (q.nested inv text asked heard)
          (q.bound s segments t) :=
        .asked .root hq hy hr ha hasked
      exact (ih inv text asked heard _ hreaches
        (h.nested hreaches hheard hno hcalls) asked' known' hinstant
        hknown).mapFailure Failure.escape

/-- **A request that nothing disturbs is answered alike with and without a
limit**, at the same instants, until it is disturbed. The induction is on the
levels of depth that are left. -/
theorem concursBefore_run (levels : Nat) {q : Request}
    (hl : q.levels = levels) {t : Nat} (h : q.CalmBefore s time t) {m : Moment}
    {heard' : Option Moment} (hm : q.now.instant = m.instant)
    (hk' : Moment.NotBefore t heard') :
    Run.ConcursBefore t (q.run s)
      (Request.run { q with now := m, cancels := heard' }
        (s.withTimeout time)) := by
  have hfirm (s : Session) (q : Request) : (q.run s).Firm q.now :=
    firm_expandFrom _ _ _ _ _ _ _
  by_cases hlt : q.now.instant < t
  swap
  · have hle := Nat.not_lt.mp hlt
    exact Run.concursBefore_of_le (hfirm s q) (hfirm _ _) hle (hm ▸ hle)
  induction levels generalizing q t m heard' with
  | zero =>
    exact concursBefore_of_reads h.unasked hlt hm hk' fun _ hq =>
      absurd hl hq.levels
  | succ levels ih =>
    refine concursBefore_of_reads h.unasked hlt hm hk' fun segments hq hq' => ?_
    have hnested : ∀ inv text asked heard u,
        q.Reaches s t (q.nested inv text asked heard) u →
        (q.nested inv text asked heard).CalmBefore s time u →
        ∀ (asked' : Moment) (known : Option Moment),
          asked.instant = asked'.instant → Moment.NotBefore u known →
            Run.ConcursBefore u ((q.nested inv text asked heard).run s)
              ((q.nested inv text asked' known).run (s.withTimeout time)) := by
      intro inv text asked heard u _ hcalm asked' known hinstant hknown
      have hlevels : (q.nested inv text asked heard).levels = levels := by
        show q.levels - 1 = levels
        omega
      by_cases hasked : asked.instant < u
      · exact ih hlevels hcalm hinstant hknown hasked
      · have hle := Nat.not_lt.mp hasked
        exact Run.concursBefore_of_le (hfirm s _) (hfirm _ _) hle
          (hinstant ▸ hle)
    have hgroup := concursBefore_group hs hblind ht hn h hq hq' hm hk' hnested
    have hquiet : Moment.NotBefore t (s.expandSegments (q.expander s) q.depth
        segments q.now q.cancels).cancels := hq.run_eq ▸ h.quiet
    have hexpander (s : Session) (q : Request) (inv : Invocation) :
        (q.expander s inv).Firm := fun text now known =>
      hfirm s (q.nested inv text now known)
    rw [hq.run_eq, hq'.run_eq]
    refine Run.ConcursBefore.andThen hgroup
      (fun _ m heard => (firm_splice (hexpander s q) _ m heard).withOutcome _)
      (fun _ m heard => (firm_splice (hexpander _ _) _ m heard).withOutcome _)
      fun produced ho hend => ?_
    refine (concursBefore_splice (hexpander s q) (hexpander _ _) _
      hgroup.finish (Moment.notBefore_earliest?.mpr ⟨h.unasked, hgroup.quiet⟩)
      (Moment.notBefore_earliest?.mpr ⟨hk', hgroup.quiet'⟩)
      ((Run.notBefore_of_andThen hquiet).2 produced ho)
      fun inv text asked heard hp hasked hheard hno asked' known hinstant
        hknown => ?_).mapResult _
    have hmem : q.nested inv text asked heard ∈ q.rescans s segments :=
      Request.mem_rescans ho hp
    have hreaches : q.Reaches s t (q.nested inv text asked heard) t :=
      .rescanned .root hq hmem hasked
    refine hnested inv text asked heard t hreaches (h.nested hreaches hheard hno
      (h.inTime.subset ?_)) asked' known hinstant hknown
    rw [hq.calls_run]
    exact fun c hc => List.mem_append_right _
      (List.mem_flatMap.mpr ⟨_, hmem, hc⟩)

end

end Session

/-! ## All of it -/

end Shortcode
