import Shortcode.Proofs.Requests
import Shortcode.Proofs.Timeline

/-!
# Runs that agree up to a horizon

Two runs of the same thing can part. Somebody asks for a cancellation in one
of them, or a text is met that stands too deep in one and not in the other.
Until then they do the same, and what this means is said here. There are two
ways to say how long it lasts: up to a cut, or before an instant. Both are
needed. A limit for depth that is met by what a cut keeps from happening is
not met, so runs are followed to the very step of the cut; a request for a
cancellation is told by its instant, and whoever is asked at an earlier one
does not know of it.

Both are *horizons* (`Horizon`). Runs *agree* up to a horizon if whatever is
left of them after a cut within it is the same, and if they are the same
altogether where the first ends within it (`Run.Agrees`). Nothing is said of
what they do beyond. In particular they need not end at the same moment, or
alike, and it is enough that both end beyond the horizon.

A run that is waited for is cut by others at moments of their own. So the
horizon of what a task waits for is not that of the task: cuts reach it a
step later, or not at all once it is due (`Horizon.clamp`).
-/

namespace Shortcode

/-! ## Moments -/

namespace Moment

/-- Nothing before an instant. -/
def NotBefore (t : Nat) (m : Option Moment) : Prop :=
  ∀ a, m = some a → t ≤ a.instant

/-- **Moments that are alike before an instant**: they are the same, or
none of them comes before it. -/
def Alike (t : Nat) (m m' : Option Moment) : Prop :=
  m = m' ∨ NotBefore t m ∧ NotBefore t m'

variable {t : Nat} {a b now : Moment} {m m' n n' : Option Moment}

@[simp] theorem notBefore_none : NotBefore t none := by
  simp [NotBefore]

@[simp] theorem notBefore_some : NotBefore t (some a) ↔ t ≤ a.instant := by
  simp [NotBefore]

theorem notBefore_earliest? :
    NotBefore t (earliest? m n) ↔ NotBefore t m ∧ NotBefore t n := by
  cases m with
  | none => simp [earliest?]
  | some a =>
    cases n with
    | none => simp [earliest?]
    | some b =>
      simp only [earliest?, earlier, notBefore_some, le_def]
      split <;> omega

theorem NotAfter.notBefore (h : now.NotAfter m) (ht : t ≤ now.instant) :
    NotBefore t m :=
  fun a ha => Nat.le_trans ht (instant_le (h a ha))

theorem Alike.refl (t : Nat) (m : Option Moment) : Alike t m m := .inl rfl

theorem Alike.symm (h : Alike t m m') : Alike t m' m :=
  h.imp Eq.symm And.symm

/-- Of what comes before an instant only the earliest counts. -/
theorem earliest?_of_lt (ha : a.instant < t) (hn : NotBefore t n) :
    earliest? (some a) n = some a ∧ earliest? n (some a) = some a := by
  cases n with
  | none => exact ⟨rfl, rfl⟩
  | some b =>
    have hb := notBefore_some.mp hn
    simp only [earliest?, earlier, le_def]
    constructor
    · rw [if_pos (by omega)]
    · rw [if_neg (by omega)]

theorem Alike.earliest? (h : Alike t m m') (h' : Alike t n n') :
    Alike t (earliest? m n) (earliest? m' n') := by
  rcases h with rfl | ⟨hm, hm'⟩
  · rcases h' with rfl | ⟨hn, hn'⟩
    · exact .refl t _
    · by_cases hb : NotBefore t m
      · exact .inr ⟨notBefore_earliest?.mpr ⟨hb, hn⟩,
          notBefore_earliest?.mpr ⟨hb, hn'⟩⟩
      · simp only [NotBefore, not_forall, Nat.not_le] at hb
        obtain ⟨a, rfl, ha⟩ := hb
        rw [(earliest?_of_lt ha hn).1, (earliest?_of_lt ha hn').1]
        exact .refl t _
  · rcases h' with rfl | ⟨hn, hn'⟩
    · by_cases hb : NotBefore t n
      · exact .inr ⟨notBefore_earliest?.mpr ⟨hm, hb⟩,
          notBefore_earliest?.mpr ⟨hm', hb⟩⟩
      · simp only [NotBefore, not_forall, Nat.not_le] at hb
        obtain ⟨a, rfl, ha⟩ := hb
        rw [(earliest?_of_lt ha hm).2, (earliest?_of_lt ha hm').2]
        exact .refl t _
    · exact .inr ⟨notBefore_earliest?.mpr ⟨hm, hn⟩,
        notBefore_earliest?.mpr ⟨hm', hn'⟩⟩

/-- The first moment of an instant is no later than what does not come
before. -/
theorem notBefore_iff_notAfter : NotBefore t m ↔ (⟨t, 0⟩ : Moment).NotAfter m := by
  refine forall₂_congr fun a _ => ?_
  simp only [le_def]
  omega

/-- What does not come before an instant has not come before it. -/
theorem NotBefore.reached_eq_false (h : NotBefore t m)
    (hn : now.instant < t) : reached m now = false :=
  reached_eq_false_iff.mpr fun a ha =>
    next_le_iff.mpr (.inl (Nat.lt_of_lt_of_le hn (h a ha)))

theorem NotBefore.mono {u : Nat} (h : NotBefore t m) (hle : u ≤ t) :
    NotBefore u m :=
  fun a ha => Nat.le_trans hle (h a ha)

/-- Before the instant the same has been asked for. -/
theorem Alike.reached_eq (h : Alike t m m') (hn : now.instant < t) :
    reached m now = reached m' now := by
  rcases h with rfl | ⟨hm, hm'⟩
  · rfl
  · rw [hm.reached_eq_false hn, hm'.reached_eq_false hn]

end Moment

/-! ## Horizons -/

/-- **How long something lasts**: up to a cut, or before an instant. -/
inductive Horizon where
  | cut (c : Cut)
  | instant (t : Nat)

namespace Horizon

/-- A cut is made within the horizon. -/
def Covers : Horizon → Cut → Prop
  | .cut c, d => d ≤ c
  | .instant t, d => d.moment.instant < t

/-- What is due at a moment lies beyond the horizon. -/
def Precedes : Horizon → Moment → Prop
  | .cut c, due => c.Precedes due
  | .instant t, due => t ≤ due.instant

instance (h : Horizon) (due : Moment) : Decidable (h.Precedes due) :=
  match h with
  | .cut c => inferInstanceAs (Decidable (c.Precedes due))
  | .instant t => inferInstanceAs (Decidable (t ≤ due.instant))

/-- The horizon lies before an instant. -/
def Within (t : Nat) (h : Horizon) : Prop :=
  ∀ d, h.Covers d → d.moment.instant < t

variable {h : Horizon} {c d : Cut} {due due' : Moment} {t : Nat}

theorem Precedes.mono (hp : h.Precedes due) (hle : due ≤ due') :
    h.Precedes due' := by
  cases h with
  | cut c => exact Cut.Precedes.mono hp hle
  | instant t => exact Nat.le_trans hp (Moment.instant_le hle)

/-- What lies beyond the horizon lies behind each cut within it. -/
theorem Covers.precedes (hd : h.Covers d) (hp : h.Precedes due) :
    d.Precedes due := by
  cases h with
  | cut c => exact Cut.Precedes.of_le hp hd
  | instant t => exact .inl (.inl (Nat.lt_of_lt_of_le hd hp))

/-- What does not lie beyond the horizon can be reached within it. -/
theorem covers_of_not_precedes (hp : ¬h.Precedes due) :
    h.Covers ⟨due, false⟩ := by
  cases h with
  | cut c =>
    rcases Moment.lt_or_eq_of_le (Cut.le_moment_of_not_precedes hp) with
      hlt | heq
    · exact .inl hlt
    · exact .inr ⟨heq, fun hf => absurd (.inr ⟨hf, heq.symm⟩) hp⟩
  | instant t => exact Nat.not_le.mp hp

theorem precedes_iff : h.Precedes due ↔ ∀ d, h.Covers d → d.Precedes due := by
  refine ⟨fun hp d hd => hd.precedes hp, fun hall => ?_⟩
  by_contra hp
  exact Cut.not_precedes_of_le due.le_refl rfl
    (hall _ (covers_of_not_precedes hp))

theorem Within.instant_lt (ht : h.Within t) (hp : ¬h.Precedes due) :
    due.instant < t :=
  ht _ (covers_of_not_precedes hp)

theorem within_instant (t : Nat) : (Horizon.instant t).Within t :=
  fun _ hd => hd

theorem within_cut (hc : c.moment.instant < t) : (Horizon.cut c).Within t :=
  fun _ hd =>
    Nat.lt_of_le_of_lt (Moment.instant_le (Cut.moment_le_of_le hd)) hc

/-! ### Tasks that wait -/

/-- The horizon as a task passes it on that waits for what is due at a
moment. -/
def passed (due : Moment) : Horizon → Horizon
  | .cut c => .cut (c.passed due)
  | .instant t => .instant t

/-- The horizon of what a task waits for that goes on when it is due: cuts
are passed on before, and afterwards there are none. -/
def clamp (due : Moment) (h : Horizon) : Horizon :=
  if h.Precedes due then h.passed due else .cut ⟨due, true⟩

theorem clamp_of_precedes (hp : h.Precedes due) :
    h.clamp due = h.passed due :=
  if_pos hp

theorem clamp_of_not_precedes (hp : ¬h.Precedes due) :
    h.clamp due = .cut ⟨due, true⟩ :=
  if_neg hp

theorem covers_passed (hp : h.Precedes due) (hd : h.Covers d) :
    (h.clamp due).Covers (d.passed due) := by
  rw [clamp_of_precedes hp]
  cases h with
  | cut c => exact Cut.passed_mono hd due
  | instant t =>
    have hi := Cut.instant_arrival (hd.precedes hp).moment_le
    show (d.arrival due).instant < t
    rwa [hi]

theorem Within.clamp (ht : h.Within t) (due : Moment) :
    (h.clamp due).Within t := by
  by_cases hp : h.Precedes due
  · rw [clamp_of_precedes hp]
    cases h with
    | cut c =>
      refine within_cut ?_
      have hi := Cut.instant_arrival (Cut.Precedes.moment_le hp)
      show (c.arrival due).instant < t
      rw [hi]
      exact ht c c.le_refl
    | instant u => exact ht
  · rw [clamp_of_not_precedes hp]
    exact within_cut (ht.instant_lt hp)

end Horizon

/-! ## Runs -/

/-- **Runs that agree up to a horizon**, from a moment on. -/
structure Run.Agrees {α : Type} (h : Horizon) (now : Moment) (r r' : Run α) :
    Prop where
  /-- What ends within the horizon is the same. -/
  same : ¬h.Precedes r.finish → r' = r
  beyond : h.Precedes r.finish → h.Precedes r'.finish
  /-- What is left of the runs is the same, if they are cut within the
  horizon, and not before they begin. -/
  upTo : ∀ d, h.Covers d → ¬d.Precedes now → r'.upTo d = r.upTo d

/-- **A run that goes on where another one ends**: it ends then or later, and
a cut that comes before is a cut of that one. -/
structure Run.Extends {α β : Type} (r : Run α) (x : Run β) : Prop where
  le : r.finish ≤ x.finish
  upTo : ∀ c : Cut, c.Precedes r.finish → x.upTo c = r.upTo c

/-- An expander whose runs do not end before they begin. -/
def Expander.Onward (e : Expander) : Prop :=
  ∀ text now known, now ≤ (e text now known).finish

theorem Expander.Orderly.onward {s : Session} {e : Expander}
    (he : e.Orderly s) : e.Onward :=
  fun text now known => (he text now known).le

namespace Run

variable {α β : Type} {h : Horizon} {now start : Moment} {r r' : Run α}
  {x x' : Run β}

theorem extends_after (hle : r.finish ≤ x.finish) : r.Extends (r.after x) :=
  ⟨hle, fun _ hc => upTo_after_of_precedes hc hle⟩

theorem extends_withOutcome (o : Outcome β) : r.Extends (r.withOutcome o) :=
  ⟨r.finish.le_refl, fun _ _ => rfl⟩

theorem Agrees.refl (h : Horizon) (now : Moment) (r : Run α) :
    Agrees h now r r :=
  ⟨fun _ => rfl, id, fun _ _ _ => rfl⟩

theorem Agrees.of_eq (heq : r' = r) : Agrees h now r r' :=
  heq ▸ .refl h now r

/-- Runs that begin beyond the horizon agree up to it. -/
theorem agrees_of_precedes (hnow : h.Precedes now) (hle : now ≤ r.finish)
    (hle' : now ≤ r'.finish) : Agrees h now r r' where
  same hp := absurd (hnow.mono hle) hp
  beyond _ := hnow.mono hle'
  upTo _ hd hnot := absurd (hd.precedes hnow) hnot

/-- Runs that agree before an instant agree up to any horizon before it. -/
theorem Agrees.of_instant {t : Nat} (ha : Agrees (.instant t) now r r')
    (ht : h.Within t) : Agrees h now r r' where
  same hno := ha.same (Nat.not_le.mpr (ht.instant_lt hno))
  beyond hp := by
    by_cases hle : t ≤ r.finish.instant
    · refine Horizon.precedes_iff.mpr fun d hd => ?_
      exact .inl (.inl (Nat.lt_of_lt_of_le (ht d hd) (ha.beyond hle)))
    · rw [ha.same hle]
      exact hp
  upTo d hd hnot := ha.upTo d (ht d hd) hnot

/-- What goes on beyond the horizon with runs that agree agrees. -/
theorem Agrees.of_extends (ha : Agrees h now r r')
    (hp : h.Precedes r.finish) (hx : r.Extends x) (hx' : r'.Extends x') :
    Agrees h now x x' where
  same hno := absurd (hp.mono hx.le) hno
  beyond _ := (ha.beyond hp).mono hx'.le
  upTo d hd hnot := by
    rw [hx.upTo d (hd.precedes hp), hx'.upTo d (hd.precedes (ha.beyond hp))]
    exact ha.upTo d hd hnot

theorem Agrees.withOutcome (ha : Agrees h now r r')
    (f : Outcome α → Outcome β) :
    Agrees h now (r.withOutcome (f r.outcome))
      (r'.withOutcome (f r'.outcome)) where
  same hno := by rw [ha.same hno]
  beyond := ha.beyond
  upTo := ha.upTo

theorem Agrees.mapResult (ha : Agrees h now r r')
    (f : α → Except Failure β) :
    Agrees h now (r.mapResult f) (r'.mapResult f) :=
  ha.withOutcome (·.bind f)

theorem Agrees.mapFailure (ha : Agrees h now r r')
    (f : Failure → Failure) :
    Agrees h now (r.mapFailure f) (r'.mapFailure f) :=
  ha.withOutcome (·.mapFailure f)

/-- Runs agree behind one that ends within the horizon. -/
theorem Agrees.after (ha : Agrees h r.finish x x') (hx : r.finish ≤ x.finish)
    (hx' : r.finish ≤ x'.finish) (now : Moment) :
    Agrees h now (r.after x) (r.after x') where
  same hp := by rw [show x' = x from ha.same hp]
  beyond := ha.beyond
  upTo d hd _ := by
    by_cases hdr : d.Precedes r.finish
    · rw [upTo_after_of_precedes hdr hx, upTo_after_of_precedes hdr hx']
    · rw [upTo_after_of_not_precedes hdr, upTo_after_of_not_precedes hdr,
        ha.upTo d hd hdr]

/-- A task that waits does the same before its start. -/
theorem Agrees.behind (ha : Agrees h start r r') (hr : start ≤ r.finish)
    (hr' : start ≤ r'.finish) (now : Moment) :
    Agrees h now (r.behind start) (r'.behind start) :=
  ha.after (r := Run.now start (.returned ())) hr hr' now

/-- So it does the same however soon it is cut. -/
theorem Agrees.upTo_behind (ha : Agrees h start r r')
    (hr : start ≤ r.finish) (hr' : start ≤ r'.finish) {d : Cut}
    (hd : h.Covers d) : (r'.behind start).upTo d = (r.behind start).upTo d := by
  by_cases hstart : d.Precedes start
  · rw [upTo_behind_of_precedes hstart hr, upTo_behind_of_precedes hstart hr']
  · rw [upTo_behind_of_not_precedes hstart,
      upTo_behind_of_not_precedes hstart]
    exact ha.upTo d hd hstart

/-- What runs go on with agrees, if they go on within the horizon. -/
theorem Agrees.andThen {cancels cancels' : Option Moment}
    {next next' : α → Moment → Option Moment → Run β}
    (ha : Agrees h now r r')
    (hnext : ∀ a, r.outcome = .returned a → ¬h.Precedes r.finish → r' = r →
      Agrees h r.finish (next a r.finish (Moment.earliest? cancels r.cancels))
        (next' a r.finish (Moment.earliest? cancels' r.cancels)))
    (hle : ∀ a m known, m ≤ (next a m known).finish)
    (hle' : ∀ a m known, m ≤ (next' a m known).finish) :
    Agrees h now (r.andThen cancels next) (r'.andThen cancels' next') := by
  by_cases hp : h.Precedes r.finish
  · have hextends : ∀ {r : Run α} {cancels : Option Moment}
        {next : α → Moment → Option Moment → Run β},
        (∀ a m known, m ≤ (next a m known).finish) →
          r.Extends (r.andThen cancels next) := by
      intro r cancels next hle
      unfold Run.andThen
      split
      · exact extends_after (hle _ _ _)
      · exact extends_withOutcome _
      · exact extends_withOutcome _
    exact ha.of_extends hp (hextends hle) (hextends hle')
  · have heq := ha.same hp
    subst heq
    unfold Run.andThen
    split
    · next a ho => exact (hnext a ho hp rfl).after (hle _ _ _) (hle' _ _ _) now
    · exact .refl h now _
    · exact .refl h now _

/-- Calls that begin alike agree if what is done inside does. -/
theorem Agrees.inside (ha : Agrees h now r r') {self self' : Call}
    (hself : ¬h.Precedes now →
      ∀ m e, { self' with left := m, ending := e }
        = { self with left := m, ending := e })
    (hsame : ¬h.Precedes r.finish → r' = r → self' = self) :
    Agrees h now (r.inside self) (r'.inside self') where
  same hno := by
    rw [ha.same hno, hsame hno (ha.same hno)]
  beyond := ha.beyond
  upTo d hd hnot := by
    by_cases hp : h.Precedes r.finish
    · -- both calls are cut
      have hnow : ¬h.Precedes now := fun hnow => hnot (hd.precedes hnow)
      have hcut : self'.cutAt d.moment = self.cutAt d.moment :=
        hself hnow d.moment .cancelled
      rw [upTo_inside, upTo_inside, if_pos (hd.precedes hp),
        if_pos (hd.precedes (ha.beyond hp)), ha.upTo d hd hnot, hcut]
    · rw [ha.same hp, hsame hp (ha.same hp)]

/-! ### Tasks that wait -/

section

variable {time : Nat} {late : Outcome α} {d : Cut}

theorem due_le_finish_waitedFor (hle : now.next ≤ r.finish) (time : Nat)
    (late : Outcome α) :
    r.due now time ≤ (r.waitedFor now time late).finish := by
  unfold Run.due waitedFor
  split
  · exact Moment.le_refl _
  · next hin =>
    exact due_le_overdueCourse (r := r.behind now.next) (due_le_finish hle hin)

/-- A task that is cut while it waits has its run cut, and hears of the end
of it. -/
theorem upTo_waitedFor_of_precedes (hle : now.next ≤ r.finish)
    (hd : d.Precedes (r.due now time))
    (hcut : (d.passed (r.due now time)).Precedes r.finish) :
    (r.waitedFor now time late).upTo d
      = ((r.behind now.next).upTo (d.passed (r.due now time))).endingAt
          (((r.behind now.next).upTo
            (d.passed (r.due now time))).finish.skip hearing) := by
  unfold Run.due at hd hcut ⊢
  unfold waitedFor
  split
  · next hin =>
    rw [if_pos hin] at hd hcut
    exact (upTo_heard_of_precedes (r := r.behind now.next) hd).trans
      (relay_of_precedes hcut)
  · next hin =>
    rw [if_neg hin] at hd hcut
    refine (upTo_settled_of_precedes hd ?_).trans (relay_of_precedes hcut)
    exact due_le_overdueCourse (r := r.behind now.next) (due_le_finish hle hin)

/-- A run that is cut when its time is up is the same as another one, if both
are then left with the same, and were before. -/
theorem waitedFor_congr (hle : now.next ≤ r.finish)
    (hle' : now.next ≤ r'.finish)
    (hlate : ¬r.finish.instant < now.instant + time)
    (hlate' : ¬r'.finish.instant < now.instant + time)
    (hupTo : ∀ c ≤ (⟨now.later time, true⟩ : Cut),
      (r'.behind now.next).upTo c = (r.behind now.next).upTo c) :
    r'.waitedFor now time late = r.waitedFor now time late := by
  have hrelay (c : Cut) : (r'.behind now.next).relay (now.later time) c
      = (r.behind now.next).relay (now.later time) c := by
    have hle_due : c.passed (now.later time) ≤ ⟨now.later time, true⟩ :=
      Cut.passed_le c rfl
    have hbeyond : ∀ {x : Run α}, now.later time ≤ x.finish →
        (c.passed (now.later time)).Precedes x.finish := fun hx =>
      Cut.Precedes.of_le (Cut.Precedes.mono (.inr ⟨rfl, rfl⟩) hx) hle_due
    rw [relay_of_precedes (r := r.behind now.next)
        (hbeyond (due_le_finish hle hlate)),
      relay_of_precedes (r := r'.behind now.next)
        (hbeyond (due_le_finish hle' hlate')), hupTo _ hle_due]
  have hcourse : (r'.behind now.next).overdueCourse (now.later time)
      = (r.behind now.next).overdueCourse (now.later time) := by
    unfold Run.overdueCourse
    rw [hupTo _ (Cut.le_refl _)]
  unfold waitedFor
  rw [dif_neg hlate, dif_neg hlate']
  exact settled_congr hcourse rfl rfl fun c _ => hrelay c

/-- **A cut reaches runs at the same point** that both go on behind it, even
if one of them would end in time and the other one not. -/
theorem passed_due_eq (hd : d.Precedes (r.due now time))
    (hcut : (d.passed (r.due now time)).Precedes r.finish)
    (hcut' : (d.passed (r.due now time)).Precedes r'.finish) :
    d.Precedes (r'.due now time)
      ∧ d.passed (r'.due now time) = d.passed (r.due now time) := by
  have hm : d.arrival (r.due now time) ≤ r.finish := hcut.moment_le
  have hm' : d.arrival (r.due now time) ≤ r'.finish := hcut'.moment_le
  -- otherwise both would hear of their end a while after the cut
  have hsoon (hlt : d.arrival (r.due now time) < r.due now time)
      (hlt' : d.arrival (r.due now time) < r'.due now time) :
      d.Precedes (r'.due now time)
        ∧ d.passed (r'.due now time) = d.passed (r.due now time) := by
    have hnext : d.arrival (r.due now time) = d.moment.next :=
      (d.arrival_eq_or _).resolve_right fun heq =>
        Moment.lt_irrefl _ (heq ▸ hlt)
    rw [hnext] at hlt hlt'
    rw [Cut.passed_of_lt hlt, Cut.passed_of_lt hlt']
    exact ⟨.inl (Moment.lt_of_le_of_lt d.moment.le_next hlt'), rfl⟩
  unfold Run.due at *
  by_cases hin : r.finish.instant < now.instant + time
  · rw [if_pos hin] at *
    refine hsoon (Moment.lt_of_le_of_lt hm (Moment.lt_skip _ (by decide))) ?_
    split
    · exact Moment.lt_of_le_of_lt hm' (Moment.lt_skip _ (by decide))
    · refine Moment.lt_of_le_of_lt hm (.inl ?_)
      rwa [Moment.instant_later]
  · rw [if_neg hin] at *
    by_cases hin' : r'.finish.instant < now.instant + time
    · rw [if_pos hin'] at *
      refine hsoon (Moment.lt_of_le_of_lt hm' (.inl ?_))
        (Moment.lt_of_le_of_lt hm' (Moment.lt_skip _ (by decide)))
      rwa [Moment.instant_later]
    · rw [if_neg hin']
      exact ⟨hd, rfl⟩

/-- **Tasks that wait agree** if what they wait for does. -/
theorem Agrees.waitedFor (ha : Agrees (h.clamp (r.due now time)) now.next r r')
    (hle : now.next ≤ r.finish) (hle' : now.next ≤ r'.finish)
    (late : Outcome α) :
    Agrees h now (r.waitedFor now time late)
      (r'.waitedFor now time late) := by
  by_cases hp : (h.clamp (r.due now time)).Precedes r.finish
  · have hp' := ha.beyond hp
    by_cases hdue : h.Precedes (r.due now time)
    · -- whatever cuts the task cuts the run, before it has ended
      have hcut {d : Cut} (hd : h.Covers d) :=
        have hd' := Horizon.covers_passed hdue hd
        passed_due_eq (hd.precedes hdue) (hd'.precedes hp)
          (hd'.precedes hp')
      refine ⟨fun hno => ?_, fun _ => ?_, fun d hd _ => ?_⟩
      · exact absurd (hdue.mono (due_le_finish_waitedFor hle time late)) hno
      · have hdue' := Horizon.precedes_iff.mpr fun d hd => (hcut hd).1
        exact hdue'.mono (due_le_finish_waitedFor hle' time late)
      · have hd' := Horizon.covers_passed hdue hd
        obtain ⟨hprecedes, hpassed⟩ := hcut hd
        rw [upTo_waitedFor_of_precedes hle (hd.precedes hdue)
            (hd'.precedes hp),
          upTo_waitedFor_of_precedes hle' hprecedes
            (by rw [hpassed]; exact hd'.precedes hp'),
          hpassed, ha.upTo_behind hle hle' hd']
    · -- both are late, and what they have done by then is the same
      rw [Horizon.clamp_of_not_precedes hdue] at ha hp hp'
      have hover : r.due now time ≤ r.finish := Cut.Precedes.moment_le hp
      have hlate : ¬r.finish.instant < now.instant + time := fun hin => by
        unfold Run.due at hover
        rw [if_pos hin] at hover
        exact Moment.not_lt.mpr hover (Moment.lt_skip _ (by decide))
      have hdue_eq : r.due now time = now.later time := if_neg hlate
      rw [hdue_eq] at ha hp'
      have hlate' : ¬r'.finish.instant < now.instant + time := fun hin => by
        have hi := Moment.instant_le (Cut.Precedes.moment_le hp')
        rw [Moment.instant_later] at hi
        omega
      exact .of_eq (waitedFor_congr hle hle' hlate hlate' fun c hc =>
        ha.upTo_behind hle hle' hc)
  · exact .of_eq (by rw [ha.same hp])

end

/-! ### Requests for a cancellation -/

theorem Agrees.symm (ha : Agrees h now r r') : Agrees h now r' r where
  same hno := (ha.same fun hp => hno (ha.beyond hp)).symm
  beyond hp := by
    by_contra hno
    exact hno (ha.same hno ▸ hp)
  upTo d hd hnot := (ha.upTo d hd hnot).symm

variable {s s' : Session} {known known' : Option Moment} {t : Nat}

/-- What the one run asks for before an instant is left of it after a cut at
that moment, so it is left of the other one. -/
theorem Agrees.exists_cancels_le (ha : Agrees (.instant t) now r r')
    (ho : r.Orderly s now known) (ho' : r'.Orderly s' now known')
    {m : Moment} (hm : r.cancels = some m) (ht : m.instant < t) :
    ∃ m' ≤ m, r'.cancels = some m' := by
  have hleft : (r.upTo ⟨m, false⟩).cancels = some m := by
    rcases (ho.requested ⟨m, false⟩).kept with hkept | hno
    · rw [hkept, hm]
    · exact absurd (hno m hm) (Cut.not_precedes_of_le m.le_refl rfl)
  rw [← ha.upTo ⟨m, false⟩ ht (Cut.not_precedes_of_le (ho.since m hm) rfl)]
    at hleft
  have hleaves := ho'.requested ⟨m, false⟩
  cases hm' : r'.cancels with
  | none =>
    rw [hm'] at hleaves
    rw [hleaves.eq_none] at hleft
    cases hleft
  | some m' =>
    refine ⟨m', ?_, rfl⟩
    have hle : m'.NotAfter r'.cancels := by
      rw [hm']
      exact Moment.notAfter_some.mpr m'.le_refl
    exact hleaves.later m' hle m hleft

theorem Agrees.cancels_eq (ha : Agrees (.instant t) now r r')
    (ho : r.Orderly s now known) (ho' : r'.Orderly s' now known')
    {m : Moment} (hm : r.cancels = some m) (ht : m.instant < t) :
    r'.cancels = some m := by
  obtain ⟨m', hle, hm'⟩ := ha.exists_cancels_le ho ho' hm ht
  obtain ⟨n, hge, hn⟩ := ha.symm.exists_cancels_le ho' ho hm'
    (Nat.lt_of_le_of_lt (Moment.instant_le hle) ht)
  obtain rfl := Option.some.inj (hn.symm.trans hm)
  rw [hm', Moment.le_antisymm hle hge]

/-- **Runs that agree before an instant ask alike** before it. -/
theorem Agrees.alike_cancels (ha : Agrees (.instant t) now r r')
    (ho : r.Orderly s now known) (ho' : r'.Orderly s' now known') :
    Moment.Alike t r.cancels r'.cancels := by
  have hearly {m : Option Moment} (hm : ¬Moment.NotBefore t m) :
      ∃ a, m = some a ∧ a.instant < t := by
    simpa [Moment.NotBefore] using hm
  by_cases hn : Moment.NotBefore t r.cancels
  · by_cases hn' : Moment.NotBefore t r'.cancels
    · exact .inr ⟨hn, hn'⟩
    · obtain ⟨m, hm, hlt⟩ := hearly hn'
      rw [ha.symm.cancels_eq ho' ho hm hlt] at hn
      exact absurd (Moment.notBefore_some.mp hn) (Nat.not_le.mpr hlt)
  · obtain ⟨m, hm, hlt⟩ := hearly hn
    exact .inl (hm.trans (ha.cancels_eq ho ho' hm hlt).symm)

end Run

/-! ## Programs -/

section

variable {h : Horizon} {t : Nat} {e e' : Expander} {b : Bool} {now : Moment}
  {known known' : Option Moment}

theorem Program.le_finish_run (p : Program) (he : e.Onward) (now : Moment)
    (known : Option Moment) : now ≤ (p.run b e now known).finish := by
  induction p generalizing now known with
  | finish | fail | interrupt => exact now.le_refl
  | sleep time next ih =>
    exact Moment.le_trans (now.le_later time) (ih _ _)
  | askCancelled next ih => exact ih _ now known
  | cancel next ih =>
    rw [run]
    split
    · exact ih now _
    · exact ih now known
  | expand text next ih =>
    have hle := he text now known
    rw [run]
    split
    · exact Moment.le_trans hle (ih _ _ _)
    · exact Moment.le_trans hle (ih _ _ _)
    · exact hle

/-- A program that asks for a text goes on where the expansion ends. -/
theorem Program.extends_run_expand {text : Option Text}
    {next : Except Failure Text → Program} (he : e.Onward) :
    (e text now known).Extends ((Program.expand text next).run b e now known)
    := by
  rw [run]
  split
  · exact Run.extends_after (le_finish_run _ he _ _)
  · exact Run.extends_after (le_finish_run _ he _ _)
  · exact Run.extends_withOutcome _

/-- **A program does the same up to a horizon** if whatever it asks for within
it is answered by runs that agree. -/
theorem Program.agrees_run (ht : h.Within t) (p : Program) (hb : e.Onward)
    (hb' : e'.Onward)
    (he : ∀ text asked heard, p.Asks b e text asked heard now known →
      ¬h.Precedes asked → ∀ heard', Moment.Alike t heard heard' →
        Run.Agrees h asked (e text asked heard) (e' text asked heard'))
    (hk : Moment.Alike t known known') :
    Run.Agrees h now (p.run b e now known) (p.run b e' now known') := by
  induction p generalizing now known known' with
  | finish | fail | interrupt => exact .refl h now _
  | sleep time next ih =>
    have hnext := ih (fun text asked heard ha =>
      he text asked heard (.sleep ha)) hk
    exact hnext.behind (next.le_finish_run hb _ _) (next.le_finish_run hb' _ _) now
  | cancel next ih =>
    rw [run, run]
    cases b with
    | false =>
      exact ih (fun text asked heard ha => he text asked heard (.cancel ha)) hk
    | true =>
      have hp := ih (fun text asked heard ha => he text asked heard (.cancel ha))
        (hk.earliest? (.refl t (some now)))
      by_cases hnow : h.Precedes now
      · exact Run.agrees_of_precedes hnow (le_finish_run _ hb _ _)
          (le_finish_run _ hb' _ _)
      · exact hp.after (r := Run.asking now) (le_finish_run _ hb _ _)
          (le_finish_run _ hb' _ _) now
  | askCancelled next ih =>
    by_cases hp : h.Precedes now
    · exact Run.agrees_of_precedes hp (le_finish_run _ hb _ _)
        (le_finish_run _ hb' _ _)
    · rw [run, run, ← hk.reached_eq (ht.instant_lt hp)]
      exact ih _ (fun text asked heard ha =>
        he text asked heard (.askCancelled ha)) hk
  | expand text next ih =>
    by_cases hp : h.Precedes now
    · exact Run.agrees_of_precedes hp (le_finish_run _ hb _ _)
        (le_finish_run _ hb' _ _)
    · have ha := he text now known .here hp known' hk
      by_cases hend : h.Precedes (e text now known).finish
      · exact ha.of_extends hend (extends_run_expand hb)
          (extends_run_expand hb')
      · have heq := ha.same hend
        rw [run, run, heq] at *
        split
        · next u hu =>
          exact (ih _ (fun text asked heard ha =>
            he text asked heard (.returned hu ha)) (hk.earliest? (.refl t _))).after
              (le_finish_run _ hb _ _) (le_finish_run _ hb' _ _) now
        · next f hf =>
          exact (ih _ (fun text asked heard ha =>
            he text asked heard (.failed hf ha)) (hk.earliest? (.refl t _))).after
              (le_finish_run _ hb _ _) (le_finish_run _ hb' _ _) now
        · exact .refl h now _

end

end Shortcode
