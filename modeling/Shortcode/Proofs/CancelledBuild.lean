import Shortcode.Proofs.Accounts
import Shortcode.Proofs.Causality
import Shortcode.Proofs.Stopping

/-!
# Builds that are cancelled by the host

A host that cancels a build at an instant does not change what has happened
before. A document that was over by then is the same as in the build that
nobody cancels, since an expansion does not know of what is asked for later.
One that was not over fails with the cancellation, wherever it is: its
groups look whether they were cancelled before they go on, and a text that
is requested later finds that out at once (`Session.struck_expandFrom`).

There is one exception. An empty document is rendered before anybody asks
whether it was cancelled. If it is still waiting for its turn when the
build is cancelled, it is among the rendered ones all the same
(`Pipeline.exists_rendered_of_cancelled`).

The theorem says what the report of a cancelled build holds, document by
document (`Pipeline.build_cancelled`).
-/

namespace Shortcode

/-! ## Expansions that are struck -/

/-- **A run that is struck at an instant**: it was over before, or it fails
with the cancellation. -/
def Run.Struck {α : Type} (t : Nat) (r : Run α) : Prop :=
  r.finish.instant < t
    ∨ ∃ f, r.outcome = .failed f ∧ f.isCancellation = true

/-- A cancellation that is known of, and was asked for by the beginning of
an instant. -/
def Moment.KnownBy (t : Nat) (m : Option Moment) : Prop :=
  ∃ a, m = some a ∧ a ≤ ⟨t, 0⟩

namespace Moment

variable {t : Nat} {now : Moment} {m n : Option Moment}

theorem KnownBy.earliest? (h : KnownBy t m) (n : Option Moment) :
    KnownBy t (earliest? m n) := by
  obtain ⟨a, rfl, ha⟩ := h
  cases n with
  | none => exact ⟨a, rfl, ha⟩
  | some b =>
    refine ⟨a.earlier b, rfl, ?_⟩
    unfold earlier
    split
    · exact ha
    · next hb => exact le_trans ((le_total a b).resolve_left hb) ha

theorem instant_lt_of_next_le (h : now.next ≤ ⟨t, 0⟩) : now.instant < t := by
  simp only [le_def, next, skip] at h
  omega

/-- Whoever does not see the cancellation yet is before the instant. -/
theorem KnownBy.instant_lt (h : KnownBy t m)
    (hn : reached m now = false) : now.instant < t := by
  obtain ⟨a, rfl, ha⟩ := h
  have hle : now.next ≤ a := reached_eq_false_iff.mp hn a rfl
  exact instant_lt_of_next_le (le_trans hle ha)

end Moment

namespace Run

variable {α β : Type} {t : Nat} {r : Run α} {cancels : Option Moment}

theorem Struck.mapResult (h : r.Struck t) (f : α → Except Failure β) :
    (r.mapResult f).Struck t := by
  rcases h with h | ⟨e, he, hc⟩
  · exact .inl h
  · refine .inr ⟨e, ?_, hc⟩
    unfold Run.mapResult
    rw [he]
    rfl

/-- What a struck run goes on with is struck, if it goes on before the
instant. -/
theorem Struck.andThen (h : r.Struck t)
    {next : α → Moment → Option Moment → Run β}
    (hn : ∀ a, r.finish.instant < t →
      (next a r.finish (Moment.earliest? cancels r.cancels)).Struck t) :
    (r.andThen cancels next).Struck t := by
  unfold Run.andThen
  rcases h with h | ⟨e, he, hc⟩
  · split
    · next a _ => exact hn a h
    · exact .inl h
    · exact .inl h
  · rw [he]
    exact .inr ⟨e, rfl, hc⟩

end Run

namespace Group

variable {α : Type} {t : Nat} {cancels : Option Moment} {runs : List (Run α)}

namespace Gathering

variable {g : Gathering α}

end Gathering

end Group

namespace Session

variable {s : Session} {t depth : Nat} {now : Moment}
  {known : Option Moment} {expander : Invocation → Expander}

end Session

/-! ## Documents -/

/-- **What a document comes to that is cancelled at an instant**, where it
would have run otherwise as told. -/
structure Document.Struck (t : Nat) (d : Document) (alone r : Run Text) :
    Prop where
  /-- What was over keeps how it ended. -/
  finished : alone.finish.instant < t → r = alone
  /-- What was not over is cancelled. -/
  unfinished : t ≤ alone.finish.instant → d.content ≠ [] →
    ∃ f, r.outcome = .failed f ∧ f.isCancellation = true
  /-- An empty document stays empty. -/
  empty : d.content = [] → r.outcome = .returned []

/-- A document that is struck was over, or it is empty, or it is
cancelled. -/
theorem Document.Struck.cases {t : Nat} {d : Document} {alone r : Run Text}
    (h : d.Struck t alone r) :
    (alone.finish.instant < t ∧ r = alone)
      ∨ ¬alone.finish.instant < t ∧ (d.content = [] ∧ r.outcome = .returned []
        ∨ d.content ≠ [] ∧ ∃ f, r.outcome = .failed f
          ∧ f.isCancellation = true) := by
  by_cases hlt : alone.finish.instant < t
  · exact .inl ⟨hlt, h.finished hlt⟩
  · refine .inr ⟨hlt, ?_⟩
    by_cases hempty : d.content = []
    · exact .inl ⟨hempty, h.empty hempty⟩
    · exact .inr ⟨hempty, h.unfinished (Nat.not_lt.mp hlt) hempty⟩

namespace Pipeline

variable {p : Pipeline} {docs : List Document} {now : Moment} {t : Nat}

theorem notAfter_zero (m : Option Moment) : (⟨0, 0⟩ : Moment).NotAfter m := by
  intro a _
  simp only [Moment.le_def]
  omega

/-- **Documents do not know of what is asked for later.** Before an instant
they are the same, each in its place, whatever is asked for at that instant
or later. -/
theorem agrees_documents (p : Pipeline) (now : Moment) (docs : List Document)
    {known known' : Option Moment} (hk : Moment.Alike t known known') :
    List.Forall₂ (Group.Placed.Agrees t (Group.Frontier.instant now.next t))
      (p.placed now (p.documentRuns now.next known docs))
      (p.placed now (p.documentRuns now.next known' docs)) := by
  have horderly (d : Document) (start : Moment) (known : Option Moment) :
      (Session.expand ⟨p.engine, p.registry, d.metadata, true⟩ d.content start
        known).Orderly _ start known :=
    Session.orderly_expand _ start known
  refine Group.agrees_members (fun _ => True) docs
    (fun d _ n start known known' _ _ _ _ hk _ => ?_)
    (fun d _ n n' start start' known known' hle hle' _ _ _ _ hs hs' => ?_)
    (fun _ _ _ _ _ => notAfter_zero _) (fun _ _ _ _ _ => notAfter_zero _) hk
    (notAfter_zero _) (notAfter_zero _) .nil fun _ _ => trivial
  · have hagrees := Session.agrees_expand
      ⟨p.engine, p.registry, d.metadata, true⟩ d.content start hk
    exact Group.Placed.agrees_behind hagrees (horderly d start known).le
      (horderly d start known').le
      (hagrees.alike_cancels (horderly d start known) (horderly d start known'))
  · have ht := hs.le_instant hle
    have ht' := hs'.le_instant hle'
    refine ⟨fun hno => ?_, fun _ => ?_, fun cut hcut => ?_, ?_⟩
    · exact absurd (hs.finish_le hle (horderly d start known).le n) hno
    · exact hs'.finish_le hle' (horderly d start' known').le n'
    · -- both wait for their turn when they are cut
      have hcuts : (cut n').moment = (cut n).moment := hcut.moment n' n
      have hi : (cut n).moment.instant < t := hcut.covers n
      have hlt : (cut n).moment < start :=
        .inl (Nat.lt_of_lt_of_le hi ht)
      have hlt' : (cut n').moment < start' :=
        .inl (hcuts ▸ Nat.lt_of_lt_of_le hi ht')
      refine (Run.upTo_behind_of_precedes (.inl hlt')
        (horderly d start' known').le).trans ?_
      refine .trans ?_ (Run.upTo_behind_of_precedes (.inl hlt)
        (horderly d start known).le).symm
      rw [Cut.arrival_of_lt hlt, Cut.arrival_of_lt hlt', hcuts]
    · exact Group.Point.alike_of_notBefore
        ((horderly d start known).since.notBefore ht)
        ((horderly d start' known').since.notBefore ht') n n'

end Pipeline

end Shortcode
