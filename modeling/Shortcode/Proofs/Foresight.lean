import Shortcode.Proofs.CancelledBuild
import Shortcode.Proofs.Slots

/-!
# A build does not foresee its cancellation

Two builds of the same documents, of which one is cancelled at an instant,
or both are at different ones, do the same before the first of these
instants. Their documents do, each in its place
(`Pipeline.agrees_settledRuns`). A build that stops at failures looks at
them soon after one has ended, so the looks that both take before the instant
are the same and show the same. One that has stopped by then has stopped in
both (`Pipeline.stop?_alike`), and one that waits for all documents and has
them by then has the same documents.

The host can also stop the task of a build. Then what is left of it is what
the cut leaves of its documents, whether or not it would have stopped later
(`Pipeline.stop_build`). So a build that is over before it is asked to stop is
the build that nobody asks, however it came to be over
(`Pipeline.killedAt_build_eq`).
-/

namespace Shortcode

variable {t : Nat}

/-! ## Tasks that are stopped -/

namespace Run

variable {α : Type} {r r' : Run α} {instant : Option Nat}

/-- A task is over before an instant if its run is, or if it is stopped
before. -/
theorem killedAt_cases (h : (r.killedAt instant).finish.instant < t) :
    r.finish.instant < t
      ∨ ∃ k < t, instant = some k ∧ k ≤ r.finish.instant := by
  cases instant with
  | none => exact .inl h
  | some k =>
    unfold killedAt at h
    dsimp only at h
    split at h
    · exact .inl h
    · next hk =>
      have hc : Cut.Precedes ⟨⟨k, 0⟩, true⟩ r.finish := by
        simp only [Cut.Precedes, Moment.lt_def, Moment.ext_iff, true_and]
        omega
      have hi : (r.stop ⟨⟨k, 0⟩, true⟩).finish.instant = k :=
        r.stops.instant_eq hc
      exact .inr ⟨k, hi ▸ h, rfl, Nat.not_lt.mp hk⟩

/-- Tasks that are stopped at an instant are the same if a cut leaves the
same of what they do. -/
theorem killedAt_congr {k : Nat} (hr : k ≤ r.finish.instant)
    (hr' : k ≤ r'.finish.instant)
    (hstop : ∀ c : Cut, c.moment.instant ≤ k → r'.stop c = r.stop c) :
    r'.killedAt (some k) = r.killedAt (some k) := by
  unfold killedAt
  dsimp only
  rw [dif_neg (Nat.not_lt.mpr hr), dif_neg (Nat.not_lt.mpr hr')]
  exact settled_congr (hstop _ (Nat.le_refl k)) rfl rfl fun c hc =>
    hstop c (Moment.instant_le hc.moment_le)

end Run

namespace Group

variable {α : Type} {runs runs' : List (Run α)} {cancels cancels' : Option Moment}

/-- What members ask for alike is asked for alike. -/
theorem cancellation?_alike
    (h : List.Forall₂ (fun r r' => Moment.Alike t r.cancels r'.cancels) runs
      runs') (hk : Moment.Alike t cancels cancels') :
    Moment.Alike t (cancellation? cancels runs) (cancellation? cancels' runs')
    := by
  unfold cancellation?
  induction h generalizing cancels cancels' with
  | nil => exact hk
  | cons hr _ ih => exact ih (hk.earliest? hr)

end Group

namespace Pipeline

variable {p : Pipeline} {runs runs' : List (Run Text)} {look now : Moment}
  {docs : List Document} {cancels cancels' : Option Moment} {f : Failure}

/-! ## Documents -/

theorem known_eq (p : Pipeline) (first : Moment) (cancels : Option Moment)
    (docs : List Document) :
    p.known first cancels docs = Moment.earliest? cancels
      ((Group.cancellation? none (p.documentRuns first cancels docs)).map
        Moment.next) := by
  unfold known
  cases Group.cancellation? none (p.documentRuns first cancels docs) with
  | some m => rfl
  | none => cases cancels <;> rfl

/-- Documents learn alike of what they ask for alike. -/
theorem known_alike (p : Pipeline) (docs : List Document)
    (hk : Moment.Alike t cancels cancels') :
    Moment.Alike t (p.known now.next cancels docs)
      (p.known now.next cancels' docs) := by
  have hruns := p.agrees_documents now docs hk
  have hmap (runs : List (Run Text)) :
      (p.placed now runs).map Group.Placed.run = runs :=
    Group.map_run_placed _ _ _ _
  have hcancels : List.Forall₂
      (fun r r' : Run Text => Moment.Alike t r.cancels r'.cancels)
      (p.documentRuns now.next cancels docs)
      (p.documentRuns now.next cancels' docs) := by
    rw [← hmap (p.documentRuns now.next cancels docs),
      ← hmap (p.documentRuns now.next cancels' docs),
      List.forall₂_map_left_iff, List.forall₂_map_right_iff]
    exact hruns.imp fun _ _ h => h.alike_cancels
  have hnext {m : Option Moment} (hm : Moment.NotBefore t m) :
      Moment.NotBefore t (m.map Moment.next) := by
    intro a ha
    obtain ⟨b, hb, rfl⟩ := Option.map_eq_some_iff.mp ha
    exact hm b hb
  rw [known_eq, known_eq]
  exact hk.earliest? ((Group.cancellation?_alike hcancels (.refl t none)).imp
    (congrArg _) (And.imp hnext hnext))

/-- Documents of a build run alike before an instant, if it is cancelled
alike before it. -/
theorem agrees_settledRuns (p : Pipeline) (now : Moment)
    (docs : List Document)
    (hk : Moment.Alike t cancels cancels') :
    List.Forall₂ (Group.Placed.Agrees t (Group.Frontier.instant now.next t))
      (p.placed now (p.settledRuns now.next cancels docs))
      (p.placed now (p.settledRuns now.next cancels' docs)) := by
  rw [settledRuns_eq_documentRuns, settledRuns_eq_documentRuns]
  exact p.agrees_documents now docs (p.known_alike docs hk)

section

variable (h : List.Forall₂
  (Group.Placed.Agrees t (Group.Frontier.instant now.next t))
  (p.placed now runs) (p.placed now runs'))
include h

/-- Builds whose documents run alike stop alike before an instant. -/
theorem stop?_alike (hs : p.stop? now runs = some (look, f))
    (hl : look.instant < t) : p.stop? now runs' = some (look, f) := by
  unfold stop? at hs ⊢
  cases hpolicy : p.settings.onError with
  | skip =>
    rw [hpolicy] at hs
    cases hs
  | abort =>
    rw [hpolicy] at hs
    dsimp only at hs ⊢
    obtain ⟨hearly, hlength⟩ := (Group.sameTo_of_agrees h).filter
    obtain ⟨early, late, late', hends, hends', hlate, hlate', hnil⟩ :=
      Group.exists_early hearly (by
        rw [← List.length_eq_zero_iff, ← List.length_eq_zero_iff, hlength])
    rw [hends] at hs
    rw [hends']
    rcases Group.watch_alike (fun l hl => Group.found?_eq_of_agrees h stopping?
      hl) hlate hlate' hnil ⟨now, 0⟩ with heq | ⟨hle, -⟩
    · exact (congrArg (fun x : Group.Point × Option Failure =>
        x.2.map fun f => (x.1.moment, f)) heq).trans hs
    · -- the look is taken before the instant
      obtain ⟨f', -, hf⟩ := Option.map_eq_some_iff.mp hs
      obtain ⟨rfl, -⟩ := Prod.mk.inj hf
      exact absurd (Moment.instant_le (Group.Point.moment_le hle))
        (Nat.not_le.mpr hl)

/-- A cut before the instant leaves the same of documents that run alike. -/
theorem leave_eq_of_agrees (request : Option Moment) {closed : Moment} {c : Cut}
    (hc : c.moment.instant < t) :
    leave runs' request closed c = leave runs request closed c := by
  have hcover : (Group.Frontier.instant now.next t).Covers fun _ => c :=
    ⟨⟨fun _ _ => rfl, fun _ _ => id⟩, fun _ => hc,
      fun _ => Moment.le_of_lt (.inl hc)⟩
  have hmap (runs : List (Run Text)) : runs.map (Run.upTo c)
      = (p.placed now runs).map fun x => x.run.upTo c := by
    have hplaced : (p.placed now runs).map Group.Placed.run = runs :=
      Group.map_run_placed _ _ _ _
    exact (congrArg (List.map (Run.upTo c)) hplaced).symm.trans List.map_map
  have hparts := Group.map_upTo_of_agrees h hcover
  unfold leave
  rw [hmap runs, hmap runs', hparts]

end

/-- A request that comes at the instant or later finds nothing that was called
behind it. -/
theorem leave_eq_of_le (hnow : now.instant < t) (hl : t ≤ look.instant)
    (ho : ∀ r ∈ runs, ∃ s known, r.Orderly s now.next known) {closed : Moment}
    {c : Cut} (hc : c.moment.instant < t) :
    leave runs (some look) closed c = leave runs none closed c := by
  have hall : ((runs.map (Run.upTo c)).flatMap Course.calls).filter
        (fun d => decide (d.cleared ≤ look))
      = (runs.map (Run.upTo c)).flatMap Course.calls := by
    refine List.filter_eq_self.mpr fun d hd => ?_
    obtain ⟨k, hk, hd⟩ := List.mem_flatMap.mp hd
    obtain ⟨r, hr, rfl⟩ := List.mem_map.mp hk
    obtain ⟨s, known, horderly⟩ := ho r hr
    have hlt := horderly.cleared_upTo hnow hc d hd
    exact decide_eq_true (.inl (Nat.lt_of_lt_of_le hlt hl))
  have hcalls : (leave runs (some look) closed c).calls
      = (leave runs none closed c).calls :=
    hall.trans (Group.calls_gathered_none closed false _).symm
  exact congrArg
    (fun calls => { leave runs none closed c with calls := calls }) hcalls

/-! ## Builds -/

/-- Of two builds that are cancelled alike before an instant, one is over by
then only if it is the other. -/
theorem build_eq_of_lt (hk : Moment.Alike t cancels cancels')
    (hl : (p.build docs now cancels).finish.instant < t) :
    p.build docs now cancels' = p.build docs now cancels := by
  have hruns := p.agrees_settledRuns now docs hk
  unfold build at hl ⊢
  dsimp only at hl ⊢
  cases hs : p.stop? now (p.settledRuns now.next cancels docs) with
  | some x =>
    obtain ⟨look, f⟩ := x
    rw [hs] at hl
    have hi : look.instant < t := instant_stoppedCourse _ look ▸ hl
    rw [stop?_alike hruns hs hi]
    exact Run.settled_congr (leave_eq_of_agrees hruns _ hi) rfl rfl fun c hc =>
      leave_eq_of_agrees hruns _
        (Nat.lt_of_le_of_lt (Moment.instant_le hc.moment_le) hi)
  | none =>
    rw [hs] at hl
    have hplaced : (p.placed now (p.settledRuns now.next cancels docs)).map
        Group.Placed.run = _ := Group.map_run_placed _ _ _ _
    have hplaced' : (p.placed now (p.settledRuns now.next cancels' docs)).map
        Group.Placed.run = _ := Group.map_run_placed _ _ _ _
    have hended : ∀ x ∈ p.placed now (p.settledRuns now.next cancels docs),
        ¬(Group.Frontier.instant now.next t).point ≤ x.finish := by
      intro x hx hle
      have hmem : x.run.finish
          ∈ (p.settledRuns now.next cancels docs).map Run.finish := by
        rw [← hplaced]
        exact List.mem_map_of_mem (List.mem_map_of_mem hx)
      have hlatest := (Group.latest_spec now _).1 _
        (List.mem_cons_of_mem _ hmem)
      have ht := Moment.instant_le
        (Moment.le_trans (Group.Point.moment_le hle) hlatest)
      exact absurd ht (Nat.not_le.mpr hl)
    rw [← hplaced', Group.eq_of_agrees hruns hended, hplaced, hs]

/-- **What is left of a build** that is cut before it is over, at an earlier
instant, does not show whether it would have stopped. -/
theorem stop_build (hnow : now.instant < t)
    (hl : t ≤ (p.build docs now cancels).finish.instant) {c : Cut}
    (hc : c.moment.instant < t) :
    (p.build docs now cancels).stop c
      = leave (p.settledRuns now.next cancels docs) none c.moment c := by
  have ho : ∀ r ∈ p.settledRuns now.next cancels docs,
      ∃ s known, r.Orderly s now.next known := by
    rw [settledRuns_eq_documentRuns]
    exact fun r hr => orderly_of_mem_documentRuns hr
  unfold build at hl ⊢
  dsimp only at hl ⊢
  cases hs : p.stop? now (p.settledRuns now.next cancels docs) with
  | some x =>
    obtain ⟨look, f⟩ := x
    rw [hs] at hl
    have hi : t ≤ look.instant := instant_stoppedCourse _ look ▸ hl
    have hprecedes : c.Precedes look := .inl (.inl (Nat.lt_of_lt_of_le hc hi))
    exact (if_pos hprecedes).trans (leave_eq_of_le hnow hi ho hc)
  | none => rfl

/-- **A build that is over before an instant** does not foresee what is asked
for at that instant or later, also if its task was stopped. -/
theorem killedAt_build_eq (hnow : now.instant < t)
    (hk : Moment.Alike t cancels cancels') {instant : Option Nat}
    (hl : ((p.build docs now cancels).killedAt instant).finish.instant < t) :
    (p.build docs now cancels').killedAt instant
      = (p.build docs now cancels).killedAt instant := by
  by_cases hlt : (p.build docs now cancels).finish.instant < t
  · rw [build_eq_of_lt hk hlt]
  · by_cases hlt' : (p.build docs now cancels').finish.instant < t
    · rw [build_eq_of_lt hk.symm hlt']
    · obtain ⟨k, hkt, rfl, hle⟩ := (Run.killedAt_cases hl).resolve_left hlt
      have hruns := p.agrees_settledRuns now docs hk
      have hle' := Nat.le_trans (Nat.le_of_lt hkt) (Nat.not_lt.mp hlt')
      refine Run.killedAt_congr hle hle' fun c hc => ?_
      have hct := Nat.lt_of_le_of_lt hc hkt
      rw [stop_build hnow (Nat.not_lt.mp hlt) hct,
        stop_build hnow (Nat.not_lt.mp hlt') hct]
      exact leave_eq_of_agrees hruns none hct

end Pipeline

end Shortcode
