import Shortcode.Proofs.Agreement

/-!
# What happens in a run, in order

Three kinds of moments are told of a run: when it finishes, when its
calls were cleared, started, entered and left, and when a cancellation was
asked for. They fit together (`Run.Orderly`). A run takes place after the
moment it starts at; so does a cancellation that is asked for in it. A
call is cleared, started at once or in the next step, entered likewise, and
left before the run finishes. And **no call is cleared after a
cancellation**, whoever asked for it: this run, or somebody before or beside
it.

The last of these is what a group has to do with. A member is told as if
the members behind it did not exist, so it may go on after one of them
has asked for the cancellation. It is the group that leaves out then what
would have been seen to be cancelled.

A run may be cut, and what is left of it is in order, too. So all of this is
said of what is left after a cut, and of the whole run as the case of a cut
that comes too late. It is the only way to prove it: a group is made of what
is left of its members, and a member is a whole run at best.

What a cut leaves is as it should be (`Course.Keeps`). A call that has ended
at an earlier instant is left as it was, and one that was entered before the
cut and goes on behind its instant is there, cut. Nothing can be said of a
call that is to end at the instant itself: it takes some steps until the cut
has come to where the call is made, and it may have ended by then.

All of it holds of every expansion (`Session.orderly_expandFrom`).
Nothing is assumed of the handlers here.
-/

namespace Shortcode

/-! ## Requests for a cancellation -/

/-- **A program that does not cancel the expansion** it belongs to,
whatever its requests are answered. -/
def Program.Uncancelling : Program → Prop
  | .finish _ | .fail _ | .interrupt _ => True
  | .cancel _ => False
  | .sleep _ next => next.Uncancelling
  | .expand _ next => ∀ answer, (next answer).Uncancelling
  | .askCancelled next => ∀ b, (next b).Uncancelling

/-- Handlers that do not cancel. -/
def Registry.Uncancelling (r : Registry) : Prop :=
  ∀ name h, r.resolve? name = some h → ∀ v, (h.program v).Uncancelling

/-- **Nobody inside can ask for the cancellation** of an expansion: it has
none, or no handler asks for it. -/
def Session.Unasked (s : Session) : Prop :=
  s.cancellable = false ∨ s.registry.Uncancelling

/-! ## Calls and runs in order -/

/-- **A call in order**, of a run that has finished by a moment, where a
cancellation may have been asked for. -/
structure Call.Orderly (s : Session) (cancels : Option Moment)
    (finish : Moment) (c : Call) : Prop where
  cleared_le : c.cleared ≤ c.started
  started_le : c.started ≤ c.entered
  entered_le : c.entered ≤ c.left
  left_le : c.left ≤ finish
  /-- Nothing comes between the last look and the start. -/
  soon : c.started ≤ c.cleared.next
  /-- Only a task of its own comes between the start and the handler. -/
  entry : c.entered ≤ c.started.next
  unlimited : s.settings.timeLimit = none → c.entered = c.started
  /-- In a group with a limit the handler is started at that look. -/
  checked : s.settings.maxConcurrency ≠ 0 → c.started = c.cleared
    ∧ (s.settings.timeLimit = none → c.afterCancel = false)
  notAfter : c.cleared.NotAfter cancels

/-- **What a cut leaves** of what would have happened: what has ended at an
earlier instant, and what is going on then, which is cut. There is nothing
else. -/
structure Course.Keeps (m : Moment) (k whole : Course) : Prop where
  ended : ∀ d ∈ whole.calls, d.left.instant < m.instant → d ∈ k.calls
  running : ∀ d ∈ whole.calls, d.entered < m →
    m.instant < d.left.instant →
      ∃ left, left.instant = m.instant ∧ d.cutAt left ∈ k.calls
  told : ∀ d ∈ k.calls, d ∈ whole.calls
    ∨ ∃ x ∈ whole.calls, ∃ left, m ≤ left ∧ left ≤ x.left
      ∧ left.instant = m.instant ∧ d = x.cutAt left

/-- **A run in order**, from a moment on, where a cancellation may have
been asked for before. -/
structure Run.Orderly {α : Type} (s : Session) (now : Moment)
    (cancels : Option Moment) (r : Run α) : Prop where
  le : now ≤ r.finish
  since : now.NotAfter r.cancels
  /-- Only what can be cancelled is. -/
  asked : s.Unasked → r.cancels = none
  entered : ∀ d ∈ r.calls, now ≤ d.entered
  left : ∀ c : Cut, now ≤ c.moment → ∀ d ∈ (r.upTo c).calls,
    d.Orderly s (Moment.earliest? cancels (r.upTo c).cancels)
      (r.upTo c).finish
  keeps : ∀ c c' : Cut, now ≤ c.moment → c ≤ c' →
    (r.upTo c).Keeps c.moment (r.upTo c')
  requested : ∀ c : Cut, c.Leaves (r.upTo c).cancels r.cancels

/-- An expander whose runs are in order. -/
def Expander.Orderly (s : Session) (e : Expander) : Prop :=
  ∀ text now cancels, (e text now cancels).Orderly s now cancels

variable {s : Session}

theorem Call.Orderly.mono {cancels cancels' : Option Moment}
    {finish finish' : Moment} {c : Call} (h : c.Orderly s cancels finish)
    (hf : finish ≤ finish') (hc : c.cleared.NotAfter cancels') :
    c.Orderly s cancels' finish' :=
  { h with
    left_le := Moment.le_trans h.left_le hf
    notAfter := hc }

theorem Call.Orderly.cleared_le_entered {cancels : Option Moment}
    {finish : Moment} {c : Call} (h : c.Orderly s cancels finish) :
    c.cleared ≤ c.entered :=
  Moment.le_trans h.cleared_le h.started_le

theorem Call.Orderly.cleared_le_finish {cancels : Option Moment}
    {finish : Moment} {c : Call} (h : c.Orderly s cancels finish) :
    c.cleared ≤ finish :=
  Moment.le_trans h.cleared_le_entered (Moment.le_trans h.entered_le h.left_le)

theorem Course.keeps_nil (m : Moment) {k whole : Course}
    (hk : k.calls = []) (h : whole.calls = []) : k.Keeps m whole where
  ended := by simp [h]
  running := by simp [h]
  told := by simp [hk]

theorem Course.Keeps.endingAt {m : Moment} {k whole : Course}
    (h : k.Keeps m whole) (a b : Moment) :
    (k.endingAt a).Keeps m (whole.endingAt b) :=
  ⟨h.ended, h.running, h.told⟩

/-- What is cut a little later is kept as well. -/
theorem Course.Keeps.earlier {m m' : Moment} {k whole : Course}
    (h : k.Keeps m' whole) (hle : m ≤ m') (hi : m'.instant = m.instant) :
    k.Keeps m whole where
  ended := fun d hd hend => h.ended d hd (hi ▸ hend)
  running := fun d hd hentered hrun => by
    obtain ⟨left, hl, hd⟩ :=
      h.running d hd (Moment.lt_of_lt_of_le hentered hle) (hi ▸ hrun)
    exact ⟨left, hl.trans hi, hd⟩
  told := fun d hd => (h.told d hd).imp_right
    fun ⟨x, hx, left, hm, hx', hl, hcut⟩ =>
      ⟨x, hx, left, Moment.le_trans hle hm, hx', hl.trans hi, hcut⟩

namespace Run

variable {α β : Type} {now : Moment} {cancels : Option Moment} {r : Run α}

/-- What is left of a run that asks for no cancellation does not. -/
theorem cancels_upTo_eq_none (h : r.cancels = none) (c : Cut) :
    (r.upTo c).cancels = none := by
  refine Moment.eq_none_of_notAfter fun m => (r.within_upTo c).cancels m ?_
  show m.NotAfter r.cancels
  rw [h]
  exact m.notAfter_none

/-- What is no later than a request of a run is no later than one of what is
left of it. -/
theorem notAfter_upTo {m : Moment} (h : m.NotAfter r.cancels) (c : Cut) :
    m.NotAfter (r.upTo c).cancels :=
  (r.within_upTo c).cancels m h

/-- A call that is left of a run in order was entered in it. -/
theorem Orderly.entered_upTo (h : r.Orderly s now cancels) {c : Cut} :
    ∀ d ∈ (r.upTo c).calls, now ≤ d.entered := by
  intro d hd
  obtain ⟨d', hd', hcut⟩ := exists_of_mem_upTo hd
  have hle := h.entered d' hd'
  rcases hcut with rfl | ⟨m, -, rfl⟩
  · exact hle
  · exact hle

/-- What a cut leaves was looked after by the instant of the cut, or by that
at which the run began. -/
theorem Orderly.cleared_upTo (h : r.Orderly s now cancels) {t : Nat}
    (hnow : now.instant < t) {c : Cut} (hc : c.moment.instant < t) :
    ∀ d ∈ (r.upTo c).calls, d.cleared.instant < t := by
  intro d hd
  -- a cut that comes before the beginning leaves no more than one just then
  let c' : Cut := ⟨now.latter c.moment, false⟩
  have hle : c ≤ c' := by
    rcases Moment.lt_or_eq_of_le (now.le_latter_right c.moment) with hlt | heq
    · exact .inl hlt
    · exact .inr ⟨heq, fun hf => nomatch hf⟩
  have hi : c'.moment.instant < t := by
    show (now.latter c.moment).instant < t
    unfold Moment.latter
    split
    · exact hc
    · exact hnow
  obtain ⟨x, hx, hcut⟩ := (r.upTo_mono hle).calls.exists_of_mem hd
  have hx := h.left c' (now.le_latter_left c.moment) x hx
  have heq : d.cleared = x.cleared := by
    rcases hcut with rfl | ⟨m, -, rfl⟩ <;> rfl
  rw [heq]
  exact Nat.lt_of_le_of_lt (Nat.le_trans
    (Moment.instant_le hx.cleared_le_finish) (r.instant_upTo_le c')) hi

/-- The calls of a run in order. -/
theorem Orderly.calls (h : r.Orderly s now cancels) : ∀ d ∈ r.calls,
    d.Orderly s (Moment.earliest? cancels r.cancels) r.finish := by
  have hleft := h.left ⟨r.finish, false⟩ h.le
  rwa [upTo_finish] at hleft

/-- What a cut leaves of the whole run. -/
theorem Orderly.keeps_whole (h : r.Orderly s now cancels) {c : Cut}
    (hc : now ≤ c.moment) : (r.upTo c).Keeps c.moment r.whole := by
  by_cases hp : c.Precedes r.finish
  · have hle : c ≤ ⟨r.finish, false⟩ := Cut.le_of_precedes hp
    have hk := h.keeps c ⟨r.finish, false⟩ hc hle
    rwa [upTo_finish] at hk
  · rw [upTo_of_not_precedes hp]
    refine ⟨fun d hd _ => hd, fun d hd _ hrun => ?_, fun d => .inl⟩
    have hle := Moment.instant_le (Moment.le_trans (h.calls d hd).left_le
      (Cut.le_moment_of_not_precedes hp))
    exact absurd hrun (Nat.not_lt.mpr hle)

/-- What is left of a run without calls has none. -/
theorem calls_upTo_eq_nil (h : r.calls = []) (c : Cut) :
    (r.upTo c).calls = [] := by
  refine List.eq_nil_iff_forall_not_mem.mpr fun d hd => ?_
  obtain ⟨d', hd', -⟩ := exists_of_mem_upTo hd
  rw [h] at hd'
  cases hd'

/-- A run that calls nobody is in order. -/
theorem orderly_of_calls_eq_nil (hle : now ≤ r.finish)
    (hsince : now.NotAfter r.cancels)
    (hasked : s.Unasked → r.cancels = none) (h : r.calls = [])
    (hr : ∀ m, r.cancels = some m → m = r.finish) :
    r.Orderly s now cancels where
  le := hle
  since := hsince
  asked := hasked
  entered := by simp [h]
  left := fun c _ => by simp [calls_upTo_eq_nil h c]
  keeps := fun c c' _ _ =>
    Course.keeps_nil _ (calls_upTo_eq_nil h c) (calls_upTo_eq_nil h c')
  requested := fun c => by
    refine ⟨(r.within_upTo c).cancels, ?_⟩
    by_cases hc : c.Precedes r.finish
    · exact .inr fun m hm => hr m hm ▸ hc
    · rw [upTo_of_not_precedes hc]
      exact .inl rfl

theorem orderly_now (o : Outcome α) :
    (Run.now now o).Orderly s now cancels :=
  orderly_of_calls_eq_nil now.le_refl now.notAfter_none (fun _ => rfl) rfl
    fun _ h => nomatch h

theorem orderly_tooDeep (f : Failure) :
    (tooDeep now f : Run α).Orderly s now cancels :=
  orderly_of_calls_eq_nil now.le_refl now.notAfter_none (fun _ => rfl) rfl
    fun _ h => nomatch h

/-- The outcome of a run has no part in this. -/
theorem Orderly.withOutcome (h : r.Orderly s now cancels) (o : Outcome β) :
    (r.withOutcome o).Orderly s now cancels :=
  ⟨h.le, h.since, h.asked, h.entered, h.left, h.keeps, h.requested⟩

/-- A run is also in order if less was asked for before. -/
theorem Orderly.mono {before : Option Moment} (h : r.Orderly s now cancels)
    (hb : ∀ m : Moment, m.NotAfter cancels → m.NotAfter before) :
    r.Orderly s now before :=
  { h with
    left := fun c hc d hd => by
      have hcall := h.left c hc d hd
      have hn := Moment.notAfter_earliest?.mp hcall.notAfter
      exact hcall.mono (Moment.le_refl _)
        (Moment.notAfter_earliest?.mpr ⟨hb _ hn.1, hn.2⟩) }

/-- What was going on in a run that has ended was entered before. -/
theorem Orderly.not_entered_lt (h : r.Orderly s now cancels) {c c' : Cut}
    (hc : c.moment ≤ now) (hc' : now ≤ c'.moment) :
    (r.upTo c').calls.Forall fun d =>
      ¬d.entered < c.moment ∧ ¬d.left.instant < c.moment.instant := by
  refine List.forall_iff_forall_mem.mpr fun d hd => ?_
  have hcall := h.left c' hc' d hd
  have hle : c.moment ≤ d.entered :=
    Moment.le_trans hc (h.entered_upTo d hd)
  exact ⟨Moment.not_lt.mpr hle, Nat.not_lt.mpr
    (Moment.instant_le (Moment.le_trans hle hcall.entered_le))⟩

theorem Orderly.after {r' : Run β} (h : r.Orderly s now cancels)
    (h' : r'.Orderly s r.finish (Moment.earliest? cancels r.cancels)) :
    (r.after r').Orderly s now cancels where
  le := Moment.le_trans h.le h'.le
  since := Moment.notAfter_earliest?.mpr ⟨h.since, h'.since.mono h.le⟩
  asked := fun hs => by
    unfold Run.after
    dsimp only
    rw [h.asked hs, h'.asked hs]
    rfl
  entered := fun d hd => by
    rcases List.mem_append.mp hd with hd | hd
    · exact h.entered d hd
    · exact Moment.le_trans h.le (h'.entered d hd)
  left := fun c hc d hd => by
    by_cases hp : c.Precedes r.finish
    · rw [upTo_after_of_precedes hp h'.le] at hd ⊢
      exact h.left c hc d hd
    · rw [upTo_after_of_not_precedes hp] at hd ⊢
      have hfinish := Cut.le_moment_of_not_precedes hp
      rcases List.mem_append.mp hd with hd | hd
      · -- what was cleared in the first run was cleared before the second
        have hcall := h.calls d hd
        have hn := Moment.notAfter_earliest?.mp hcall.notAfter
        have hsince := notAfter_upTo h'.since c
        have hle : r.finish ≤ (r'.upTo c).finish := by
          by_cases hp' : c.Precedes r'.finish
          · exact Moment.le_trans hfinish (moment_le_upTo hp')
          · rw [upTo_of_not_precedes hp']
            exact h'.le
        exact hcall.mono hle (Moment.notAfter_earliest?.mpr ⟨hn.1,
          Moment.notAfter_earliest?.mpr
            ⟨hn.2, hsince.mono hcall.cleared_le_finish⟩⟩)
      · have hcall := h'.left c hfinish d hd
        rw [Moment.earliest?_assoc] at hcall
        exact hcall
  keeps := fun c c' hc hcc => by
    by_cases hp' : c'.Precedes r.finish
    · rw [upTo_after_of_precedes hp' h'.le,
        upTo_after_of_precedes (hp'.of_le hcc) h'.le]
      exact h.keeps c c' hc hcc
    · rw [upTo_after_of_not_precedes hp']
      have hfinish' := Cut.le_moment_of_not_precedes hp'
      by_cases hp : c.Precedes r.finish
      · -- the second run begins behind the cut
        have hk := h.keeps c c' hc hcc
        rw [upTo_of_not_precedes hp'] at hk
        rw [upTo_after_of_precedes hp h'.le]
        have hlate := List.forall_iff_forall_mem.mp
          (h'.not_entered_lt hp.moment_le hfinish')
        refine ⟨fun d hd hend => ?_, fun d hd hentered hrun => ?_,
          fun d hd => ?_⟩
        · rcases List.mem_append.mp hd with hd | hd
          · exact hk.ended d hd hend
          · exact absurd hend (hlate d hd).2
        · rcases List.mem_append.mp hd with hd | hd
          · exact hk.running d hd hentered hrun
          · exact absurd hentered (hlate d hd).1
        · exact (hk.told d hd).imp (List.mem_append_left _)
            fun ⟨x, hx, hcut⟩ => ⟨x, List.mem_append_left _ hx, hcut⟩
      · rw [upTo_after_of_not_precedes hp]
        have hfinish := Cut.le_moment_of_not_precedes hp
        have hk := h'.keeps c c' hfinish hcc
        refine ⟨fun d hd hend => ?_, fun d hd hentered hrun => ?_,
          fun d hd => ?_⟩
        · rcases List.mem_append.mp hd with hd | hd
          · exact List.mem_append_left _ hd
          · exact List.mem_append_right _ (hk.ended d hd hend)
        · rcases List.mem_append.mp hd with hd | hd
          · have hle := Moment.instant_le
              (Moment.le_trans (h.calls d hd).left_le hfinish)
            exact absurd hrun (Nat.not_lt.mpr hle)
          · obtain ⟨m, hm, hd⟩ := hk.running d hd hentered hrun
            exact ⟨m, hm, List.mem_append_right _ hd⟩
        · rcases List.mem_append.mp hd with hd | hd
          · exact .inl (List.mem_append_left _ hd)
          · exact (hk.told d hd).imp (List.mem_append_right _)
              fun ⟨x, hx, hcut⟩ => ⟨x, List.mem_append_right _ hx, hcut⟩
  requested := fun c => by
    by_cases hp : c.Precedes r.finish
    · -- what the second run asks for comes behind the cut
      have hlate : c.Leaves none r'.cancels :=
        .nothing fun m hm => hp.mono (h'.since m hm)
      rw [upTo_after_of_precedes hp h'.le]
      have hboth := (h.requested c).earliest? hlate
      cases hc : (r.upTo c).cancels <;> rw [hc] at hboth <;> exact hboth
    · rw [upTo_after_of_not_precedes hp]
      exact (Cut.Leaves.refl c r.cancels).earliest? (h'.requested c)

theorem Orderly.andThen {next : α → Moment → Option Moment → Run β}
    (h : r.Orderly s now cancels)
    (hn : ∀ a m known, (next a m known).Orderly s m known) :
    (r.andThen cancels next).Orderly s now cancels := by
  unfold Run.andThen
  split
  · exact h.after (hn _ _ _)
  · exact h.withOutcome _
  · exact h.withOutcome _

/-- A task that waits for its start is in order before. -/
theorem Orderly.behind {start : Moment} (h : r.Orderly s start cancels)
    (hle : now ≤ start) : (r.behind start).Orderly s now cancels where
  le := Moment.le_trans hle h.le
  since := h.since.mono hle
  asked := h.asked
  entered := fun d hd => Moment.le_trans hle (h.entered d hd)
  left := fun c hc d hd => by
    by_cases hp : c.Precedes start
    · rw [upTo_behind_of_precedes hp h.le] at hd
      cases hd
    · rw [upTo_behind_of_not_precedes hp] at hd ⊢
      exact h.left c (Cut.le_moment_of_not_precedes hp) d hd
  keeps := fun c c' hc hcc => by
    by_cases hp' : c'.Precedes start
    · rw [upTo_behind_of_precedes hp' h.le,
        upTo_behind_of_precedes (hp'.of_le hcc) h.le]
      exact Course.keeps_nil _ rfl rfl
    · rw [upTo_behind_of_not_precedes hp']
      have hstart' := Cut.le_moment_of_not_precedes hp'
      by_cases hp : c.Precedes start
      · have hlate := List.forall_iff_forall_mem.mp
          (h.not_entered_lt hp.moment_le hstart')
        rw [upTo_behind_of_precedes hp h.le]
        exact ⟨fun d hd hend => absurd hend (hlate d hd).2,
          fun d hd hentered => absurd hentered (hlate d hd).1,
          List.forall_mem_nil _⟩
      · rw [upTo_behind_of_not_precedes hp]
        exact h.keeps c c' (Cut.le_moment_of_not_precedes hp) hcc
  requested := fun c => by
    by_cases hp : c.Precedes start
    · rw [upTo_behind_of_precedes hp h.le]
      exact .nothing fun m hm => hp.mono (h.since m hm)
    · rw [upTo_behind_of_not_precedes hp]
      exact h.requested c

/-- What is left of a request by a cut, of what a later one leaves. -/
theorem Orderly.requested_upTo (h : r.Orderly s now cancels) {c c' : Cut}
    (hcc : c ≤ c') : c.Leaves (r.upTo c).cancels (r.upTo c').cancels :=
  (h.requested c).of_le (h.requested c') hcc (r.upTo_mono hcc).cancels

/-- **What is waited for** is in order as it was. -/
theorem Orderly.waitedFor (h : r.Orderly s now.next cancels) (time : Nat)
    (late : Outcome α) :
    (r.waitedFor now time late).Orderly s now cancels := by
  have hb : (r.behind now.next).Orderly s now cancels := h.behind now.le_next
  obtain ⟨c₀, m₀, hwhole, -⟩ := exists_whole_waitedFor h.le time late
  have hwithin : (r.waitedFor now time late).whole.Within
      (r.behind now.next).whole := by
    rw [hwhole]
    exact ⟨((r.behind now.next).within_upTo c₀).calls,
      ((r.behind now.next).within_upTo c₀).cancels,
      ((r.behind now.next).within_upTo c₀).exceeds⟩
  refine ⟨le_finish_waitedFor h.le time late, hwithin.cancels now hb.since,
    fun hs => ?_, fun d hd => ?_, fun c hc d hd => ?_, fun c c' hc hcc => ?_,
    fun c => ?_⟩
  · refine Moment.eq_none_of_notAfter fun m => hwithin.cancels m ?_
    show m.NotAfter (r.behind now.next).cancels
    rw [hb.asked hs]
    exact m.notAfter_none
  · have hd : d ∈ (r.waitedFor now time late).whole.calls := hd
    rw [hwhole] at hd
    exact hb.entered_upTo d hd
  · obtain ⟨m, hm, hle, -⟩ := exists_upTo_waitedFor h.le time late c
    rw [hm] at hd ⊢
    have hc' : now ≤ (c.clamp (r.due now time)).moment :=
      Moment.le_trans (Moment.le_earlier hc (le_due h.le time))
        (Cut.earlier_le_clamp c _)
    have hcall := hb.left _ hc' d hd
    exact hcall.mono hle hcall.notAfter
  · obtain ⟨m, hm, -, -⟩ := exists_upTo_waitedFor h.le time late c
    obtain ⟨m', hm', -, -⟩ := exists_upTo_waitedFor h.le time late c'
    rw [hm, hm']
    have hmoment : now ≤ (c.clamp (r.due now time)).moment :=
      Moment.le_trans (Moment.le_earlier hc (le_due h.le time))
        (Cut.earlier_le_clamp c _)
    have hk := hb.keeps _ _ hmoment (Cut.clamp_mono hcc (r.due now time))
    by_cases hp : c.Precedes (r.due now time)
    · have hpassed : c.moment ≤ (c.clamp (r.due now time)).moment ∧
          (c.clamp (r.due now time)).moment.instant = c.moment.instant := by
        rw [Cut.clamp_of_precedes hp]
        exact ⟨Cut.le_arrival hp.moment_le, Cut.instant_arrival hp.moment_le⟩
      exact (hk.earlier hpassed.1 hpassed.2).endingAt m m'
    · -- both come when the run is over
      have hp' : ¬c'.Precedes (r.due now time) := fun h => hp (h.of_le hcc)
      rw [Cut.clamp_of_not_precedes hp, Cut.clamp_of_not_precedes hp'] at *
      refine ⟨fun d hd _ => hd, fun d hd _ hrun => ?_, fun d => .inl⟩
      have hle := Moment.instant_le (hb.left _ hmoment d hd).left_le
      have hcut : _ ≤ (r.due now time).instant :=
        (r.behind now.next).instant_upTo_le ⟨r.due now time, true⟩
      have hdue := Moment.instant_le (Cut.le_moment_of_not_precedes hp)
      omega
  · let w := r.waitedFor now time late
    by_cases hp : c.Precedes w.finish
    · have hcw : c ≤ ⟨w.finish, false⟩ := Cut.le_of_precedes hp
      obtain ⟨m, hm, -, -⟩ := exists_upTo_waitedFor h.le time late c
      obtain ⟨m', hm', -, -⟩ := exists_upTo_waitedFor h.le time late
        ⟨w.finish, false⟩
      have hwhole : w.cancels = ((r.behind now.next).upTo
          ((⟨w.finish, false⟩ : Cut).clamp (r.due now time))).cancels := by
        rw [upTo_finish] at hm'
        exact congrArg Course.cancels hm'
      have hl := hb.requested_upTo (Cut.clamp_mono hcw (r.due now time))
      rw [hm]
      show c.Leaves _ w.cancels
      rw [hwhole]
      by_cases hdue : c.Precedes (r.due now time)
      · refine hl.mono ?_
        rw [Cut.clamp_of_precedes hdue]
        exact Cut.le_passed hdue
      · -- both come when the run is over
        rw [Cut.clamp_of_not_precedes hdue,
          Cut.clamp_of_not_precedes fun h => hdue (h.of_le hcw)]
        exact .refl c _
    · rw [upTo_of_not_precedes hp]
      exact .refl c _

end Run

/-! ## Handlers -/

section

variable {now : Moment} {cancels : Option Moment}

theorem Run.orderly_asking (hs : ¬s.Unasked) :
    (Run.asking now).Orderly s now cancels :=
  orderly_of_calls_eq_nil now.le_refl (Moment.notAfter_some.mpr now.le_refl)
    (fun h => absurd h hs) rfl fun _ h => (Option.some.inj h).symm

/-- **A program runs in order**, whatever it does. It asks for the
cancellation only where one can. -/
theorem Program.orderly_run {p : Program}
    (hp : s.Unasked → s.cancellable = false ∨ p.Uncancelling) {e : Expander}
    (he : e.Orderly s) (now : Moment) (cancels : Option Moment) :
    (p.run s.cancellable e now cancels).Orderly s now cancels := by
  induction p generalizing now cancels with
  | finish | fail | interrupt => exact Run.orderly_now _
  | sleep time next ih => exact (ih hp _ _).behind (now.le_later time)
  | askCancelled next ih =>
    exact ih _ (fun hs => (hp hs).imp_right fun h => h _) _ _
  | cancel next ih =>
    rw [run]
    split
    · next hs =>
      have hasked : ¬s.Unasked := fun h => (hp h).elim (by simp [hs]) id
      exact (Run.orderly_asking hasked).after
        (ih (fun h => absurd h hasked) _ _)
    · next hs => exact ih (fun _ => .inl (by simpa using hs)) _ _
  | expand text next ih =>
    have h := he text now cancels
    rw [run]
    split
    · exact h.after (ih _ (fun hs => (hp hs).imp_right fun h => h _) _ _)
    · exact h.after (ih _ (fun hs => (hp hs).imp_right fun h => h _) _ _)
    · exact h.withOutcome _

/-- **What is done inside a call** is in order with it, if the call is when
it is cut as soon as it has been entered. -/
theorem Run.Orderly.inside {α : Type} {r : Run α} {self : Call}
    (h : r.Orderly s now cancels) (hnow : self.entered = now)
    (hself : (self.cutAt now).Orderly s cancels now) :
    (r.inside self).Orderly s now cancels where
  le := h.le
  since := h.since
  asked := h.asked
  entered := List.forall_mem_cons.mpr
    ⟨hnow ▸ Moment.le_refl _, h.entered⟩
  left := fun c hc => by
    rw [Run.upTo_inside]
    refine List.forall_mem_cons.mpr ⟨?_, h.left c hc⟩
    have hcleared : self.cleared ≤ now := hself.cleared_le_finish
    have hnotAfter := Moment.notAfter_earliest?.mpr
      ⟨hself.notAfter, (Run.notAfter_upTo h.since c).mono hcleared⟩
    split
    · next hp =>
      exact { hself with
        entered_le := hnow ▸ hc
        left_le := Run.moment_le_upTo hp
        notAfter := hnotAfter }
    · next hp =>
      rw [Run.upTo_of_not_precedes hp] at hnotAfter ⊢
      exact { hself with
        entered_le := hnow ▸ h.le
        left_le := Moment.le_refl _
        notAfter := hnotAfter }
  keeps := fun c c' hc hcc => by
    have hk := h.keeps c c' hc hcc
    rw [Run.upTo_inside, Run.upTo_inside]
    refine ⟨List.forall_mem_cons.mpr ⟨fun hend => ?_, fun d hd hend =>
        List.mem_cons_of_mem _ (hk.ended d hd hend)⟩,
      List.forall_mem_cons.mpr ⟨fun hentered hrun => ?_,
        fun d hd hentered hrun => ?_⟩,
      List.forall_mem_cons.mpr ⟨?_, fun d hd => (hk.told d hd).imp
        (List.mem_cons_of_mem _)
        fun ⟨x, hx, hcut⟩ => ⟨x, List.mem_cons_of_mem _ hx, hcut⟩⟩⟩
    · -- the call has ended before, and not by the later cut
      by_cases hp' : c'.Precedes r.finish
      · rw [if_pos hp'] at hend
        have hle := Moment.instant_le (Cut.moment_le_of_le hcc)
        exact absurd hend (Nat.not_lt.mpr hle)
      · rw [if_neg hp'] at hend ⊢
        have hp : ¬c.Precedes r.finish := fun hp =>
          Nat.not_lt.mpr (Moment.instant_le hp.moment_le) hend
        rw [if_neg hp]
        exact List.mem_cons_self
    · have hp : c.Precedes r.finish := by
        by_cases hp' : c'.Precedes r.finish
        · exact hp'.of_le hcc
        · rw [if_neg hp'] at hrun
          exact .inl (.inl hrun)
      rw [if_pos hp]
      refine ⟨c.moment, rfl, ?_⟩
      split <;> exact List.mem_cons_self
    · obtain ⟨m, hm, hd⟩ := hk.running d hd hentered hrun
      exact ⟨m, hm, List.mem_cons_of_mem _ hd⟩
    · by_cases hp : c.Precedes r.finish
      · rw [if_pos hp]
        refine .inr ⟨_, List.mem_cons_self, c.moment, Moment.le_refl _, ?_, rfl,
          ?_⟩
        · split
          · exact Cut.moment_le_of_le hcc
          · exact hp.moment_le
        · split <;> rfl
      · rw [if_neg hp, if_neg fun hp' => hp (hp'.of_le hcc)]
        exact .inl List.mem_cons_self
  requested := fun c => by
    rw [Run.upTo_inside]
    exact h.requested c

namespace Session

variable {depth : Nat} {expander : Invocation → Expander}

/-- **A handler may be started** at a moment, after a last look: in a group
with a limit this is the moment of the look, and nothing was asked for; in
a group without one the look may have been taken a step before. -/
structure Cleared (s : Session) (cleared now : Moment)
    (cancels : Option Moment) : Prop where
  le : cleared ≤ now
  soon : now ≤ cleared.next
  checked : s.settings.maxConcurrency ≠ 0 →
    now = cleared ∧ Moment.reached cancels now = false
  notAfter : cleared.NotAfter cancels

/-- The program of a handler asks for the cancellation only where one can. -/
theorem orderly_program {h : Handler} {name : Text}
    (hr : s.registry.resolve? name = some h) (v : View) {e : Expander}
    (he : e.Orderly s) (now : Moment) (cancels : Option Moment) :
    ((h.program v).run s.cancellable e now cancels).Orderly s now cancels :=
  Program.orderly_run (fun hs => hs.imp_right fun hu => hu name h hr v) he now
    cancels

theorem orderly_enter {h : Handler} {inv : Invocation}
    (hr : s.registry.resolve? inv.name = some h) (depth : Nat)
    {e : Expander} (he : e.Orderly s) {cleared : Moment}
    (hc : s.Cleared cleared now cancels) :
    (s.enter h inv depth e cleared now (s.entry h now) cancels).Orderly s
      (s.entry h now) cancels := by
  have hrun := orderly_program hr ⟨inv, depth, s.settings, s.metadata⟩ he
    (s.entry h now) cancels
  have hentry (ht : s.settings.timeLimit = none) : s.entry h now = now :=
    entry_of_none (limit?_of_timeLimit_eq_none ht)
  refine (hrun.withOutcome _).inside rfl
    ⟨hc.le, s.le_entry h now, Moment.le_refl _, Moment.le_refl _, hc.soon,
      s.entry_le_next h now, hentry, fun h0 => ⟨(hc.checked h0).1, fun ht => ?_⟩,
      hc.notAfter⟩
  show Moment.reached cancels (s.entry h now) = false
  rw [hentry ht]
  exact (hc.checked h0).2

theorem orderly_invoke {inv : Invocation} {e : Expander} (he : e.Orderly s)
    {cleared : Moment} (hc : s.Cleared cleared now cancels) :
    (s.invoke inv depth e cleared now cancels).Orderly s now cancels := by
  unfold invoke
  split
  · exact Run.orderly_now _
  · next h hr =>
    have henter := orderly_enter hr depth he hc
    cases hlimit : s.limit? h with
    | none =>
      rw [entry_of_none hlimit] at henter
      rw [call_of_none hlimit]
      exact henter
    | some time =>
      rw [entry_of_some hlimit] at henter
      rw [call_of_some hlimit]
      exact henter.waitedFor time _

/-- An invocation ends when its turn has come, or later. -/
theorem le_finish_invoke {e : Expander} (he : e.Orderly s) (inv : Invocation)
    (cleared now : Moment) (cancels : Option Moment) :
    now ≤ (s.invoke inv depth e cleared now cancels).finish := by
  unfold invoke
  split
  · exact now.le_refl
  · next h hr =>
    have hrun (entered : Moment) : entered
        ≤ (s.enter h inv depth e cleared now entered cancels).finish :=
      (orderly_program hr ⟨inv, depth, s.settings, s.metadata⟩ he entered
        cancels).le
    cases hlimit : s.limit? h with
    | none =>
      rw [call_of_none hlimit]
      exact hrun now
    | some time =>
      rw [call_of_some hlimit]
      exact Run.le_finish_waitedFor (hrun now.next) time _

/-- A member of a group runs in order, when it is started by one. -/
theorem orderly_member (he : ∀ inv, (expander inv).Orderly s)
    {called start : Moment} (inv : Invocation) (hle : called.next ≤ start)
    (hs : s.settings.maxConcurrency = 0 → start = called.next)
    (hc : called.NotAfter cancels) :
    (s.member depth expander called inv start cancels).Orderly s called
      cancels := by
  unfold member
  refine Run.Orderly.behind (Run.Orderly.behind ?_ hle) called.le_next
  split
  · next h0 =>
    exact orderly_invoke (he inv)
      ⟨Moment.le_trans called.le_next hle, by rw [hs h0]; exact Moment.le_refl _, fun h => absurd h0 h, hc⟩
  · split
    · exact Run.orderly_now _
    · next hr =>
      have hr : Moment.reached cancels start = false := by simpa using hr
      exact orderly_invoke (he inv)
        ⟨start.le_refl, start.le_next, fun _ => ⟨rfl, hr⟩,
          (Moment.reached_eq_false_iff.mp hr).mono start.le_next⟩

end Session

end

/-! ## Groups -/

namespace Group

variable {α : Type} {limit : Nat} {first called : Moment}
  {cancels : Option Moment} {runs : List (Run α)}

/-- **The members of a group run in order**, each knowing what those
before it asked for. -/
theorem orderly_members {ms : List (Member α)}
    (hm : ∀ m ∈ ms, ∀ start known, first ≤ start →
      (limit = 0 → start = first) → called.NotAfter known →
      (m start known).Orderly s called known)
    (hc : called.NotAfter cancels) (ends : List Moment) :
    ∀ r ∈ members limit first cancels ends ms,
      r.Orderly s called cancels := by
  -- a member knows of what was asked for before, and the call came earlier
  let knows (known : Option Moment) : Prop := called.NotAfter known
    ∧ ∀ m : Moment, m.NotAfter known → m.NotAfter cancels
  have h := exists_start limit first cancels ms knows ⟨hc, fun _ => id⟩
    (fun m hmem start known hfirst hzero ⟨hk, hb⟩ => by
      have hrun := hm m hmem start known hfirst hzero hk
      refine ⟨Moment.notAfter_earliest?.mpr ⟨hk, hrun.since⟩, fun x hx => ?_⟩
      exact hb x (Moment.notAfter_earliest?.mp hx).1) ends
  intro r hr
  obtain ⟨m, hmem, start, known, hfirst, hzero, ⟨hk, hb⟩, rfl⟩ :=
    exists_of_forall₂ h r hr
  exact (hm m hmem start known hfirst hzero hk).mono hb

theorem mem_latest {m : Moment} {ms : List Moment} (h : m ∈ first :: ms) :
    m ≤ latest first ms :=
  (latest_spec first ms).1 m h

/-- What is left of a member has ended when the group goes on. -/
theorem finish_le_gathered {closed : Moment} {waiting : Bool}
    {request : Option Moment} {parts : List Course} {k : Course}
    (hk : k ∈ parts) :
    k.finish ≤ (gathered closed waiting request parts).finish :=
  Moment.le_skip_of_le (mem_latest (List.mem_cons_of_mem _
    (List.mem_map_of_mem hk))) gathering

/-- **A group runs in order**, cancelled or not. -/
theorem Gathering.orderly_run {g : Gathering α}
    (hr : ∀ r ∈ g.runs, r.Orderly s g.called g.cancels) :
    g.run.Orderly s g.called g.cancels := by
  have hmember (x : Placed α) (hx : x ∈ g.members) :
      x.run.Orderly s g.called g.cancels := hr _ (run_mem hx)
  have hcalls {c : Cut} {d : Call} (hd : d ∈ (g.run.upTo c).calls) :=
    mem_upTo_run.mp hd
  refine ⟨g.called_le_finish, ?_, fun hs => cancels_run fun r h =>
    (hr r h).asked hs, fun d hd => ?_, fun c hcm d hd => ?_,
    fun c c' hcm hcc => ?_, fun c => ?_⟩
  · refine notAfter_foldl.mpr ⟨by simp, List.forall_mem_map.mpr fun x hx => ?_⟩
    exact Run.notAfter_upTo (hmember x hx).since _
  · have hd : d ∈ g.run.whole.calls := hd
    rw [← Run.upTo_finish] at hd
    obtain ⟨⟨x, hx, hd⟩, -⟩ := hcalls hd
    exact (hmember x hx).entered_upTo d hd
  · obtain ⟨⟨x, hx, hd⟩, hrequest⟩ := hcalls hd
    have hcut : g.called ≤ (g.cutOf c x.place).moment :=
      Moment.le_trans (Moment.le_earlier hcm g.called_le_look)
        (earlier_le_cutOf c x.place)
    have hcall := (hmember x hx).left _ hcut d hd
    -- it was cleared before any request that the group knows of
    have hfirst : d.cleared.NotAfter (cancellation? g.cancels g.runs) := by
      rw [← map_moment_request]
      rintro m hm
      obtain ⟨p, hp, rfl⟩ := Option.map_eq_some_iff.mp hm
      exact hrequest p hp
    obtain ⟨hbefore, hown⟩ := notAfter_cancellation?.mp hfirst
    obtain ⟨closed, waiting, he, -⟩ := g.exists_upTo_run c
    rw [he]
    refine hcall.mono (finish_le_gathered (List.mem_map_of_mem hx))
      (Moment.notAfter_earliest?.mpr ⟨hbefore, ?_⟩)
    refine notAfter_foldl.mpr ⟨by simp, List.forall_mem_map.mpr fun y hy => ?_⟩
    exact Run.notAfter_upTo (hown _ (run_mem hy)) _
  · have hkeeps (x : Placed α) (hx : x ∈ g.members) :=
      (hmember x hx).keeps (g.cutOf c x.place) (g.cutOf c' x.place)
        (Moment.le_trans (Moment.le_earlier hcm g.called_le_look)
          (earlier_le_cutOf c x.place)) (cutOf_mono hcc x.place)
    by_cases hp : c.Precedes g.look.moment
    · have hmoved (x : Placed α) (hx : x ∈ g.members) :=
        (hkeeps x hx).earlier (moment_le_cutOf hp x.place).1 (moment_le_cutOf hp x.place).2
      refine ⟨fun d hd hend => ?_, fun d hd hentered hrun => ?_,
        fun d hd => ?_⟩
      · obtain ⟨⟨x, hx, hd⟩, hrequest⟩ := hcalls hd
        exact mem_upTo_run.mpr
          ⟨⟨x, hx, (hmoved x hx).ended d hd hend⟩, hrequest⟩
      · obtain ⟨⟨x, hx, hd⟩, hrequest⟩ := hcalls hd
        obtain ⟨m, hm, hd⟩ := (hmoved x hx).running d hd hentered hrun
        exact ⟨m, hm, mem_upTo_run.mpr ⟨⟨x, hx, hd⟩, hrequest⟩⟩
      · obtain ⟨⟨x, hx, hd⟩, hrequest⟩ := hcalls hd
        rcases (hmoved x hx).told d hd with hd | ⟨y, hy, left, hm, hl, hi, rfl⟩
        · exact .inl (mem_upTo_run.mpr ⟨⟨x, hx, hd⟩, hrequest⟩)
        · exact .inr ⟨y, mem_upTo_run.mpr ⟨⟨x, hx, hy⟩, hrequest⟩, left, hm,
            hl, hi, rfl⟩
    · -- both come when the group is over
      rw [upTo_run_of_not_precedes hp,
        upTo_run_of_not_precedes fun h => hp (h.of_le hcc)]
      refine ⟨fun d hd _ => hd, fun d hd _ hrun => ?_, fun d => .inl⟩
      rw [← upTo_run_of_not_precedes hp] at hd
      obtain ⟨⟨x, hx, hd⟩, -⟩ := hcalls hd
      have hcut : g.called ≤ (g.cutOf c x.place).moment :=
        Moment.le_trans (Moment.le_earlier hcm g.called_le_look)
          (earlier_le_cutOf c x.place)
      have hle := Moment.instant_le ((hmember x hx).left _ hcut d hd).left_le
      have hfinish := x.run.instant_upTo_le (g.cutOf c x.place)
      have hlook := g.instant_cutOf_le c x.place
      omega
  · by_cases hp : c.Precedes g.look.moment
    · rw [upTo_run_of_precedes hp]
      refine Cut.Leaves.foldl (fun x hx => ?_) (.refl c none)
      exact ((hmember x hx).requested_upTo (passed_le hp x.place)).mono
        (le_passed hp x.place)
    · rw [upTo_run_of_not_precedes hp]
      exact .refl c _

end Group

/-! ## Expansions -/

namespace Session

variable {depth : Nat} {now : Moment} {cancels : Option Moment}
  {expander : Invocation → Expander}

theorem orderly_invokeAll (he : ∀ inv, (expander inv).Orderly s)
    (invs : List Invocation) :
    (s.invokeAll invs depth expander now cancels).Orderly s now cancels := by
  unfold invokeAll
  split
  · exact Run.orderly_now _
  · split
    · exact Run.orderly_now _
    · next hc =>
      have hc := (Moment.reached_eq_false_iff.mp (by simpa using hc)).mono
        now.le_next
      refine Group.Gathering.orderly_run (g := ⟨_, _, now, _, cancels, _⟩)
        (Group.orderly_members ?_ hc [])
      intro m hm start known hle h0 hk
      obtain ⟨inv, -, rfl⟩ := List.mem_map.mp hm
      exact orderly_member he inv hle h0 hk

theorem orderly_splice (he : ∀ inv, (expander inv).Orderly s)
    (ps : List Part) (now : Moment) (cancels : Option Moment) :
    (splice expander ps now cancels).Orderly s now cancels := by
  induction ps generalizing now cancels with
  | nil => exact Run.orderly_now _
  | cons part rest ih =>
    cases part with
    | ready t => exact (ih now cancels).withOutcome _
    | pending inv t =>
      exact (he inv t now cancels).andThen fun _ m known =>
        (ih m known).withOutcome _

theorem orderly_expandSegments (he : ∀ inv, (expander inv).Orderly s)
    (segments : List Segment) :
    (s.expandSegments expander depth segments now cancels).Orderly s now
      cancels := by
  have hescaping : ∀ inv, Expander.Orderly s (escaping (expander inv)) :=
    fun inv text now cancels => (he inv text now cancels).withOutcome _
  have hgroup : (s.invokeAll (Segment.invocations segments) depth
      (fun inv => escaping (expander inv)) now cancels).Orderly s now cancels :=
    orderly_invokeAll hescaping _
  exact hgroup.andThen fun produced m known =>
    (orderly_splice he _ m known).withOutcome _

/-- **Every expansion runs in order.** -/
theorem orderly_expandFrom (levels depth : Nat) (trigger : Option Text)
    (origin : Int) : (s.expandFrom levels depth trigger origin).Orderly s := by
  intro text now cancels
  refine s.expandFrom_induction
    (P := fun _ _ _ _ _ now cancels r => r.Orderly s now cancels)
    ?_ ?_ ?_ ?_ ?_ ?_ levels depth trigger origin text now cancels
  · exact fun _ => Run.orderly_now _
  · exact fun _ => Run.orderly_now _
  · exact fun _ _ => Run.orderly_now _
  · exact fun _ _ => Run.orderly_tooDeep _
  · exact fun _ _ _ => Run.orderly_now _
  · exact fun _ _ _ ih => orderly_expandSegments (fun inv text => ih inv text) _

theorem orderly_expand (text : Text) (now : Moment)
    (cancels : Option Moment) :
    (s.expand text now cancels).Orderly s now cancels := by
  unfold expand
  split
  · exact Run.orderly_now _
  · exact orderly_expandFrom _ _ _ _ _ _ _

end Session

end Shortcode
