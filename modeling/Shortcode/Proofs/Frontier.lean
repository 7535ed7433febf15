import Shortcode.Proofs.Horizon
import Shortcode.Proofs.Looks

/-!
# Groups up to a point

Two groups have the same members, which start alike, and the members agree
as far as they are followed. Then the groups should agree as far as their
members do. A group is more than its members, though. It looks at them, and
starts them in slots that others have left; both depend on what all of them
do, in the order in which they do it.

How far a group is followed is therefore said of all its members at once. A
*frontier* (`Group.Frontier`) is a point, a moment with a place in it. It
gives each member a horizon, which is reached when the member, in its place,
comes to the point. Members that end on this side of the frontier are the
same, in the same places, and all others end beyond it. So the ends on this
side come first, and are the same in the same order (`Group.exists_early`).
Whoever waits for them takes the same looks until he looks beyond the frontier
(`Group.watch_alike`), and slots become free at the same moments until they do
so there (`Group.start_alike`).

That slots become free beyond the frontier is the difficult case. Members
that take them start at different moments in the two groups, and in
different places. They agree all the same, since up to the frontier they only
wait: whatever cut reaches them there finds them waiting, and what is left of a
task that waits is told of the cut in the step that follows. For this the
cuts of all members must be made at one moment (`Group.Uniform`), and they are,
because it is the group that cuts them.

A group is followed in two ways. It can be followed before an instant; that
is the frontier which stands at the beginning of the instant
(`Group.Gathering.Agrees.run_instant`). Or it is followed up to a cut. Then
the frontier is where the cut reaches the members: in the step behind the
cut, or in the place of the group's own look
(`Group.Gathering.Agrees.run_cut`).
-/

namespace Shortcode.Group

variable {α β : Type} {t : Nat} {q : Point}

/-! ## Points -/

namespace Point

theorem le_antisymm {p r : Point} (h : p ≤ r) (h' : r ≤ p) : p = r := by
  obtain ⟨⟨_, _⟩, _⟩ := p
  obtain ⟨⟨_, _⟩, _⟩ := r
  simp only [le_def, Moment.lt_def, Point.mk.injEq, Moment.mk.injEq] at *
  omega

theorem noticed_mono {p r : Point} (h : p ≤ r) : p.noticed ≤ r.noticed := by
  simp only [le_def, noticed, Moment.lt_def, Moment.skip, Moment.ext_iff] at *
  omega

/-- **Points that are alike before an instant**: they are the same, or none
of them comes before it. -/
def Alike (t : Nat) (p p' : Option Point) : Prop :=
  p = p' ∨ Moment.NotBefore t (p.map moment)
    ∧ Moment.NotBefore t (p'.map moment)

variable {p p' r r' : Option Point}

theorem Alike.refl (t : Nat) (p : Option Point) : Alike t p p := .inl rfl

theorem Alike.moment (h : Alike t p p') :
    Moment.Alike t (p.map Point.moment) (p'.map Point.moment) :=
  h.imp (congrArg _) id

theorem map_moment_at (m : Option Moment) (place : Nat) :
    (m.map (⟨·, place⟩ : Moment → Point)).map moment = m := by
  cases m <;> rfl

/-- Moments that are alike are so in each place, -/
theorem alike_at {m m' : Option Moment} (h : Moment.Alike t m m')
    (place : Nat) :
    Alike t (m.map (⟨·, place⟩)) (m'.map (⟨·, place⟩)) := by
  rcases h with rfl | ⟨h, h'⟩
  · exact .refl t _
  · exact .inr ⟨by rwa [map_moment_at], by rwa [map_moment_at]⟩

/-- and those that do not come before the instant in different ones. -/
theorem alike_of_notBefore {m m' : Option Moment} (h : Moment.NotBefore t m)
    (h' : Moment.NotBefore t m') (place place' : Nat) :
    Alike t (m.map (⟨·, place⟩)) (m'.map (⟨·, place'⟩)) :=
  .inr ⟨by rwa [map_moment_at], by rwa [map_moment_at]⟩

/-- Of points that come before an instant only the earliest counts. -/
theorem earliest?_of_lt {a : Point} (ha : a.moment.instant < t)
    (hr : Moment.NotBefore t (r.map moment)) :
    earliest? (some a) r = some a ∧ earliest? r (some a) = some a := by
  cases r with
  | none => exact ⟨rfl, rfl⟩
  | some b =>
    have hb : t ≤ b.moment.instant := hr b.moment rfl
    have hle : a ≤ b := .inl (.inl (Nat.lt_of_lt_of_le ha hb))
    refine ⟨if_pos hle, if_neg fun hba => ?_⟩
    have := Moment.instant_le (moment_le hba)
    omega

theorem Alike.earliest? (h : Alike t p p') (h' : Alike t r r') :
    Alike t (earliest? p r) (earliest? p' r') := by
  have hnot {p r : Option Point} (hp : Moment.NotBefore t (p.map Point.moment))
      (hr : Moment.NotBefore t (r.map Point.moment)) :
      Moment.NotBefore t ((Point.earliest? p r).map Point.moment) := by
    rw [map_moment_earliest?]
    exact Moment.notBefore_earliest?.mpr ⟨hp, hr⟩
  have hearly {p : Option Point}
      (hp : ¬Moment.NotBefore t (p.map Point.moment)) :
      ∃ a, p = some a ∧ a.moment.instant < t := by
    simpa [Moment.NotBefore] using hp
  rcases h with rfl | ⟨hp, hp'⟩
  · rcases h' with rfl | ⟨hr, hr'⟩
    · exact .refl t _
    · by_cases hb : Moment.NotBefore t (p.map Point.moment)
      · exact .inr ⟨hnot hb hr, hnot hb hr'⟩
      · obtain ⟨a, rfl, ha⟩ := hearly hb
        rw [(earliest?_of_lt ha hr).1, (earliest?_of_lt ha hr').1]
        exact .refl t _
  · rcases h' with rfl | ⟨hr, hr'⟩
    · by_cases hb : Moment.NotBefore t (r.map Point.moment)
      · exact .inr ⟨hnot hp hb, hnot hp' hb⟩
      · obtain ⟨a, rfl, ha⟩ := hearly hb
        rw [(earliest?_of_lt ha hp).2, (earliest?_of_lt ha hp').2]
        exact .refl t _
    · exact .inr ⟨hnot hp hr, hnot hp' hr'⟩

end Point

/-! ## Lists of points -/

/-- Points that are the same one by one, or lie beyond a point. -/
def SameTo (q : Point) : List Point → List Point → Prop :=
  List.Forall₂ fun p p' => p' = p ∨ q ≤ p ∧ q ≤ p'

/-- From the earliest to the latest, those that do not lie beyond a point
come first. -/
theorem earliestFirst_eq (q : Point) (ps : List Point) :
    earliestFirst ps
      = earliestFirst (ps.filter fun p => !decide (q ≤ p))
        ++ earliestFirst (ps.filter fun p => q ≤ p) := by
  have hsorted (ps : List Point) := pairwise_earliestFirst ps
  refine List.Perm.eq_of_pairwise
    (fun a b _ _ h h' => Point.le_antisymm h h') (hsorted ps) ?_ ?_
  · refine List.pairwise_append.mpr ⟨hsorted _, hsorted _, ?_⟩
    intro a ha b hb
    have ha := (List.mem_filter.mp (mem_earliestFirst.mp ha)).2
    have hb := (List.mem_filter.mp (mem_earliestFirst.mp hb)).2
    simp only [Bool.not_eq_true', decide_eq_false_iff_not,
      decide_eq_true_eq] at ha hb
    exact Point.le_trans ((Point.le_total a q).resolve_right ha) hb
  · have hperm := (perm_inOrder (fun a b => decide (a ≤ b))
      (ps.filter fun p => !decide (q ≤ p))).append
      (perm_inOrder (fun a b => decide (a ≤ b)) (ps.filter fun p => q ≤ p))
    refine (perm_inOrder _ ps).trans (.trans ?_ hperm.symm)
    have hfilter := List.filter_append_perm (fun p => !decide (q ≤ p)) ps
    simpa using hfilter.symm

theorem SameTo.filter {ps ps' : List Point} (h : SameTo q ps ps') :
    ps'.filter (fun p => !decide (q ≤ p)) = ps.filter (fun p => !decide (q ≤ p))
      ∧ (ps'.filter fun p => q ≤ p).length
        = (ps.filter fun p => q ≤ p).length := by
  induction h with
  | nil => exact ⟨rfl, rfl⟩
  | @cons p p' _ _ hp _ ih =>
    rcases hp with rfl | ⟨hle, hle'⟩
    · simp only [List.filter_cons]
      refine ⟨by rw [ih.1], ?_⟩
      split
      · exact congrArg Nat.succ ih.2
      · exact ih.2
    · simp [hle, hle', ih.1, ih.2]

/-- On this side of a point it is told alike whether something lies behind. -/
theorem SameTo.any {ps ps' : List Point} (h : SameTo q ps ps') {p : Point}
    (hp : ¬q ≤ p) : (ps'.any fun e => p ≤ e) = ps.any fun e => p ≤ e := by
  have hle : p ≤ q := (Point.le_total p q).resolve_right hp
  induction h with
  | nil => rfl
  | @cons e e' _ _ he _ ih =>
    rw [List.any_cons, List.any_cons, ih]
    rcases he with rfl | ⟨he, he'⟩
    · rfl
    · simp [Point.le_trans hle he, Point.le_trans hle he']

theorem earliestFirst_eq_nil_iff {ps : List Point} :
    earliestFirst ps = [] ↔ ps = [] := by
  rw [← List.length_eq_zero_iff, ← List.length_eq_zero_iff,
    show (earliestFirst ps).length = ps.length from
      (perm_inOrder _ ps).length_eq]

/-- **Points that are the same on this side of a point** come in the same
order there. -/
theorem exists_early {ps ps' : List Point}
    (hearly : ps'.filter (fun p => !decide (q ≤ p))
      = ps.filter fun p => !decide (q ≤ p))
    (hnil : (ps.filter fun p => q ≤ p) = []
      ↔ (ps'.filter fun p => q ≤ p) = []) :
    ∃ early late late', earliestFirst ps = early ++ late
      ∧ earliestFirst ps' = early ++ late'
      ∧ (∀ e ∈ late, q ≤ e) ∧ (∀ e ∈ late', q ≤ e)
      ∧ (late = [] ↔ late' = []) := by
  have hlate (ps : List Point) :
      ∀ e ∈ earliestFirst (ps.filter fun p => q ≤ p), q ≤ e := fun e he => by
    simpa using (List.mem_filter.mp (mem_earliestFirst.mp he)).2
  refine ⟨_, _, _, earliestFirst_eq q ps,
    (earliestFirst_eq q ps').trans (by rw [hearly]), hlate _, hlate _, ?_⟩
  rwa [earliestFirst_eq_nil_iff, earliestFirst_eq_nil_iff]

/-! ## Frontiers -/

/-- **A frontier** in a group that could start its first member at a moment:
how far its members are followed, in each place. Beyond the frontier lies
what a point comes before. -/
structure Frontier (first : Moment) where
  point : Point
  horizon : Nat → Horizon
  precedes_iff : ∀ place due,
    (horizon place).Precedes due ↔ point ≤ ⟨due, place⟩
  /-- No member stands in between when the first one could start: of those
  that start at once, all do so on this side of the frontier, or all beyond. -/
  starts : point ≤ ⟨first, 0⟩ ∨ first < point.moment

/-- **A cut of all members at once**: made at one moment, and before any of
them starts or before none. -/
structure Uniform (first : Moment) (cut : Nat → Cut) : Prop where
  moment : ∀ place place', (cut place).moment = (cut place').moment
  precedes : ∀ place place',
    (cut place).Precedes first → (cut place').Precedes first

namespace Frontier

variable {first start : Moment}

/-- The frontier before an instant. -/
def instant (first : Moment) (t : Nat) : Frontier first where
  point := ⟨⟨t, 0⟩, 0⟩
  horizon _ := .instant t
  precedes_iff place due := by
    simp only [Horizon.Precedes, Point.le_def, Moment.lt_def, Moment.ext_iff]
    omega
  starts := by
    simp only [Point.le_def, Moment.lt_def, Moment.ext_iff]
    omega

/-- A cut of all members is made within the frontier. -/
structure Covers (F : Frontier first) (cut : Nat → Cut) : Prop
    extends Uniform first cut where
  covers : ∀ place, (F.horizon place).Covers (cut place)
  moment_le : ∀ place, (cut place).moment ≤ F.point.moment

/-- What starts at a moment starts beyond the frontier, in whatever place. -/
def Behind (F : Frontier first) (start : Moment) : Prop :=
  F.point ≤ ⟨first, 0⟩ ∨ F.point.moment < start

variable {F : Frontier first} {cut : Nat → Cut}

/-- What starts beyond the frontier ends there. -/
theorem Behind.finish_le {finish : Moment} (h : F.Behind start)
    (hfirst : first ≤ start) (hle : start ≤ finish) (place : Nat) :
    F.point ≤ ⟨finish, place⟩ := by
  rcases h with h | h
  · refine Point.le_trans h ?_
    rcases Moment.lt_or_eq_of_le (Moment.le_trans hfirst hle) with hlt | heq
    · exact .inl hlt
    · exact .inr ⟨heq, Nat.zero_le place⟩
  · exact .inl (Moment.lt_of_lt_of_le h hle)

theorem Behind.le_instant {t : Nat} (h : (Frontier.instant first t).Behind start)
    (hfirst : first ≤ start) : t ≤ start.instant := by
  rcases h with h | h
  · exact Nat.le_trans (Moment.instant_le (Point.moment_le h))
      (Moment.instant_le hfirst)
  · exact Moment.instant_le (Moment.le_of_lt h)

/-- A cut that does not come before the first start comes before those
beyond the frontier. -/
theorem Covers.lt_of_behind (hcut : F.Covers cut) {place : Nat}
    (hp : ¬(cut place).Precedes first) (h : F.Behind start) :
    (cut place).moment < start := by
  rcases h with h | h
  · refine absurd ((hcut.covers place).precedes ?_) hp
    refine (F.precedes_iff place first).mpr (Point.le_trans h ?_)
    exact .inr ⟨rfl, Nat.zero_le place⟩
  · exact Moment.lt_of_le_of_lt (hcut.moment_le place) h

end Frontier

/-! ## Starting -/

/-- The end that the next member waits for, if it has to wait. -/
def free? (limit : Nat) (ends : List Point) : Option Point :=
  (earliestFirst ends).reverse[limit - 1]?

theorem latestFirst_map_moment (ends : List Point) :
    latestFirst (ends.map Point.moment)
      = (earliestFirst ends).reverse.map Point.moment := by
  refine List.Perm.eq_of_pairwise
    (fun a b _ _ h h' => Moment.le_antisymm h' h) (pairwise_latestFirst _)
    ?_ ?_
  · rw [List.pairwise_map, List.pairwise_reverse]
    exact (pairwise_earliestFirst ends).imp fun h => Point.moment_le h
  · refine (perm_inOrder _ _).trans ?_
    exact ((perm_inOrder _ ends).symm.trans (List.reverse_perm _).symm).map _

theorem start_eq (limit : Nat) (first : Moment) (ends : List Point) :
    start limit first (ends.map Point.moment)
      = if limit = 0 then first
        else match free? limit ends with
          | none => first
          | some free =>
            if free.moment ≤ first then first else free.moment.next := by
  unfold start free?
  rw [latestFirst_map_moment, List.getElem?_map]
  cases (earliestFirst ends).reverse[limit - 1]? with
  | none => rfl
  | some free => rfl

theorem free?_cases {ends ends' : List Point} (h : SameTo q ends ends')
    (limit : Nat) :
    free? limit ends' = free? limit ends
      ∨ ∃ f f', free? limit ends = some f ∧ free? limit ends' = some f'
        ∧ q ≤ f ∧ q ≤ f' := by
  obtain ⟨hearly, hlate⟩ := h.filter
  have hlength (ends : List Point) :
      (earliestFirst ends).reverse.length = ends.length := by
    rw [List.length_reverse]
    exact (perm_inOrder _ ends).length_eq
  have hbeyond {ends : List Point} {f : Point} {n : Nat}
      (hf : (earliestFirst (ends.filter fun p => q ≤ p)).reverse[n]?
        = some f) : q ≤ f := by
    have hmem := List.mem_reverse.mp (List.mem_of_getElem? hf)
    simpa using (List.mem_filter.mp (mem_earliestFirst.mp hmem)).2
  unfold free?
  rw [earliestFirst_eq q ends, earliestFirst_eq q ends', hearly,
    List.reverse_append, List.reverse_append]
  by_cases hlt : limit - 1 < (ends.filter fun p => q ≤ p).length
  · have hlt' := hlate ▸ hlt
    rw [← hlength] at hlt hlt'
    rw [List.getElem?_append_left hlt, List.getElem?_append_left hlt']
    have hf := List.getElem?_eq_getElem hlt
    have hf' := List.getElem?_eq_getElem hlt'
    exact .inr ⟨_, _, hf, hf', hbeyond hf, hbeyond hf'⟩
  · have hle := Nat.not_lt.mp hlt
    rw [List.getElem?_append_right (by rw [hlength, hlate]; exact hle),
      List.getElem?_append_right (by rw [hlength]; exact hle), hlength, hlength,
      hlate]
    exact .inl rfl

/-- **The next member starts alike**, at the same moment and in the same
place, or beyond the frontier. -/
theorem start_alike {first : Moment} (F : Frontier first)
    {ends ends' : List Point} (h : SameTo F.point ends ends') (limit : Nat) :
    (start limit first (ends'.map Point.moment)
        = start limit first (ends.map Point.moment)
        ∧ place limit first ends' = place limit first ends)
      ∨ F.Behind (start limit first (ends.map Point.moment))
        ∧ F.Behind (start limit first (ends'.map Point.moment)) := by
  rcases F.starts with hq | hq
  · exact .inr ⟨.inl hq, .inl hq⟩
  · have hbehind {ends : List Point} {f : Point} (hlimit : limit ≠ 0)
        (hf : free? limit ends = some f) (hqf : F.point ≤ f) :
        F.Behind (start limit first (ends.map Point.moment)) := by
      have hle := Point.moment_le hqf
      rw [start_eq, if_neg hlimit, hf]
      dsimp only
      rw [if_neg (Moment.not_le.mpr (Moment.lt_of_lt_of_le hq hle))]
      exact .inr (Moment.lt_next_iff.mpr hle)
    by_cases hlimit : limit = 0
    · refine .inl ?_
      rw [start_eq, start_eq, place, place, if_pos hlimit, if_pos hlimit,
        if_pos hlimit, if_pos hlimit]
      exact ⟨rfl, h.length_eq.symm⟩
    · rcases free?_cases h limit with heq | ⟨f, f', hf, hf', hqf, hqf'⟩
      · refine .inl ?_
        have hfree : (earliestFirst ends').reverse[limit - 1]?
            = (earliestFirst ends).reverse[limit - 1]? := heq
        rw [start_eq, start_eq, place, place, heq, if_neg hlimit,
          if_neg hlimit, if_neg hlimit, hfree, h.length_eq]
        exact ⟨rfl, rfl⟩
      · exact .inr ⟨hbehind hlimit hf hqf, hbehind hlimit hf' hqf'⟩

/-! ## Looking -/

section

variable {seen seen' : Point → Option β} {last : Point}
  {early late late' : List Point}

theorem le_watch_of_ne_nil (hlate : ∀ e ∈ late, q ≤ e) (hne : late ≠ [])
    (seen : Point → Option β) (last : Point) :
    q ≤ (watch seen last late).1 := by
  cases late with
  | nil => exact absurd rfl hne
  | cons e late =>
    have he := hlate e List.mem_cons_self
    rw [watch]
    split
    · next hle => exact Point.le_trans he (Point.le_trans hle (le_watch _ _ _))
    · have hlook := Point.le_trans he e.le_noticed
      split
      · exact hlook
      · exact Point.le_trans hlook (le_watch _ _ _)

/-- **Who waits for the same up to a point** takes the same looks up to it,
and finds the same, if such looks show the same. -/
theorem watch_alike (hseen : ∀ l, ¬q ≤ l → seen' l = seen l)
    (hlate : ∀ e ∈ late, q ≤ e) (hlate' : ∀ e ∈ late', q ≤ e)
    (hnil : late = [] ↔ late' = []) (last : Point) :
    watch seen' last (early ++ late') = watch seen last (early ++ late)
      ∨ q ≤ (watch seen last (early ++ late)).1
        ∧ q ≤ (watch seen' last (early ++ late')).1 := by
  induction early generalizing last with
  | nil =>
    by_cases hne : late = []
    · obtain rfl := hnil.mp hne
      subst hne
      exact .inl rfl
    · exact .inr ⟨le_watch_of_ne_nil hlate hne _ _,
        le_watch_of_ne_nil hlate' (fun h => hne (hnil.mpr h)) _ _⟩
  | cons e early ih =>
    rw [List.cons_append, List.cons_append, watch, watch]
    split
    · exact ih last
    · by_cases hq : q ≤ e.noticed
      · refine .inr ⟨?_, ?_⟩
        · split
          · exact hq
          · exact Point.le_trans hq (le_watch _ _ _)
        · split
          · exact hq
          · exact Point.le_trans hq (le_watch _ _ _)
      · rw [hseen _ hq]
        split
        · exact .inl rfl
        · exact ih e.noticed

/-- Who looks behind a point and finds something does so a while behind it. -/
theorem noticed_le_watch (hlate : ∀ e ∈ late, q ≤ e)
    (hfound : (watch seen last late).2 ≠ none) :
    q.noticed ≤ (watch seen last late).1 := by
  induction late generalizing last with
  | nil => exact absurd rfl hfound
  | cons e late ih =>
    obtain ⟨he, hrest⟩ := List.forall_mem_cons.mp hlate
    have hlook : q.noticed ≤ e.noticed := Point.noticed_mono he
    rw [watch] at hfound ⊢
    split
    · next hle =>
      rw [if_pos hle] at hfound
      exact ih hrest hfound
    · split
      · exact hlook
      · exact Point.le_trans hlook (le_watch _ _ _)

/-- Who waits for the same up to a point, and finds something in the end,
does so at the same look, or a while behind the point. -/
theorem watch_found_alike (hlate : ∀ e ∈ late, q ≤ e)
    (hlate' : ∀ e ∈ late', q ≤ e)
    (hfound : (watch seen last (early ++ late)).2 ≠ none)
    (hfound' : (watch seen last (early ++ late')).2 ≠ none) :
    (watch seen last (early ++ late')).1 = (watch seen last (early ++ late)).1
      ∨ q.noticed ≤ (watch seen last (early ++ late)).1
        ∧ q.noticed ≤ (watch seen last (early ++ late')).1 := by
  induction early generalizing last with
  | nil =>
    exact .inr ⟨noticed_le_watch hlate hfound, noticed_le_watch hlate' hfound'⟩
  | cons e early ih =>
    rw [List.cons_append, watch] at hfound hfound' ⊢
    rw [List.cons_append, watch]
    by_cases hle : e ≤ last
    · rw [if_pos hle] at hfound hfound' ⊢
      rw [if_pos hle]
      exact ih hfound hfound'
    · rw [if_neg hle] at hfound hfound' ⊢
      rw [if_neg hle]
      cases hs : seen e.noticed with
      | some f => exact .inl rfl
      | none =>
        rw [hs] at hfound hfound'
        exact ih hfound hfound'

end

/-! ## Members -/

/-- **Members that agree up to the frontier**: they are the same if they end
on this side of it, and whatever a cut of all members leaves of them that is
made there. It is not enough to compare what is left of a member in its place:
the places of two members that start beyond the frontier differ. -/
structure Placed.Agrees (t : Nat) {first : Moment} (F : Frontier first)
    (x x' : Placed α) : Prop where
  same : ¬F.point ≤ x.finish → x' = x
  beyond : F.point ≤ x.finish → F.point ≤ x'.finish
  upTo : ∀ cut : Nat → Cut, F.Covers cut →
    x'.run.upTo (cut x'.place) = x.run.upTo (cut x.place)
  cancels : Point.Alike t x.cancels x'.cancels

section

variable {first start start' : Moment} {F : Frontier first}
  {n n' limit : Nat} {r r' : Run α}

/-- A task that waits agrees with another one that starts when it does. -/
theorem Placed.agrees_behind (h : Run.Agrees (F.horizon n) start r r')
    (hle : start ≤ r.finish) (hle' : start ≤ r'.finish)
    (hk : Moment.Alike t r.cancels r'.cancels) :
    Placed.Agrees t F ⟨n, r.behind start⟩ ⟨n, r'.behind start⟩ where
  same hno := by
    have hp : ¬(F.horizon n).Precedes r.finish := fun hp =>
      hno ((F.precedes_iff n _).mp hp)
    rw [h.same hp]
  beyond hp :=
    (F.precedes_iff n _).mp (h.beyond ((F.precedes_iff n _).mpr hp))
  upTo cut hcut := h.upTo_behind hle hle' (hcut.covers n)
  cancels := Point.alike_at hk n

/-- Tasks that start beyond the frontier agree if both are alive when the
first one could start. -/
theorem Placed.agrees_of_behind (hs : F.Behind start) (hs' : F.Behind start')
    (hfirst : first ≤ start) (hfirst' : first ≤ start')
    (hle : start ≤ r.finish) (hle' : start' ≤ r'.finish)
    (hk : Moment.NotBefore t r.cancels) (hk' : Moment.NotBefore t r'.cancels) :
    Placed.Agrees t F ⟨n, (r.behind start).behind first⟩
      ⟨n', (r'.behind start').behind first⟩ where
  same hno := absurd (hs.finish_le hfirst hle n) hno
  beyond _ := hs'.finish_le hfirst' hle' n'
  upTo cut hcut := by
    show ((r'.behind start').behind first).upTo (cut n')
      = ((r.behind start).behind first).upTo (cut n)
    have hmoment := hcut.moment n' n
    by_cases hp : (cut n).Precedes first
    · rw [Run.upTo_behind_of_precedes (r := r.behind start) hp
          (Moment.le_trans hfirst hle),
        Run.upTo_behind_of_precedes (r := r'.behind start')
          (hcut.precedes n n' hp) (Moment.le_trans hfirst' hle')]
      unfold Cut.arrival
      rw [hmoment]
    · -- both wait, and are told of the cut in the step that follows
      have hp' : ¬(cut n').Precedes first := fun h =>
        hp (hcut.precedes n' n h)
      have hlt := hcut.lt_of_behind hp hs
      have hlt' := hcut.lt_of_behind hp' hs'
      rw [Run.upTo_behind_of_not_precedes hp,
        Run.upTo_behind_of_not_precedes hp',
        Run.upTo_behind_of_precedes (.inl hlt) hle,
        Run.upTo_behind_of_precedes (.inl hlt') hle',
        Cut.arrival_of_lt hlt, Cut.arrival_of_lt hlt', hmoment]
  cancels := Point.alike_of_notBefore hk hk' n n'

end

section

variable {ι : Type} {first : Moment} {F : Frontier first} {limit : Nat}
  {member member' : ι → Member α}

/-- What two members do agrees in what matters for those behind them. -/
theorem Placed.Agrees.finish_cases {x x' : Placed α}
    (h : Placed.Agrees t F x x') :
    x'.finish = x.finish ∨ F.point ≤ x.finish ∧ F.point ≤ x'.finish := by
  by_cases hp : F.point ≤ x.finish
  · exact .inr ⟨hp, h.beyond hp⟩
  · exact .inl (by rw [h.same hp])

theorem Placed.Agrees.alike_cancels {x x' : Placed α}
    (h : Placed.Agrees t F x x') :
    Moment.Alike t x.run.cancels x'.run.cancels := by
  have hk := h.cancels.moment
  unfold Placed.cancels at hk
  rwa [Point.map_moment_at, Point.map_moment_at] at hk

/-- Members that agree are the same at a look on this side of the frontier. -/
theorem found?_eq_of_agrees {xs xs' : List (Placed α)}
    (h : List.Forall₂ (Placed.Agrees t F) xs xs') (told : Run α → Option β)
    {l : Point} (hl : ¬F.point ≤ l) : found? told xs' l = found? told xs l := by
  unfold found?
  induction h with
  | nil => rfl
  | @cons x x' _ _ hx _ ih =>
    have hsame : (if x'.finish ≤ l then told x'.run else none)
        = if x.finish ≤ l then told x.run else none := by
      by_cases hp : F.point ≤ x.finish
      · rw [if_neg fun hle => hl (Point.le_trans (hx.beyond hp) hle),
          if_neg fun hle => hl (Point.le_trans hp hle)]
      · rw [hx.same hp]
    rw [List.findSome?_cons, List.findSome?_cons, hsame, ih]

/-- A cut of all members leaves the same of those that agree. -/
theorem map_upTo_of_agrees {xs xs' : List (Placed α)}
    (h : List.Forall₂ (Placed.Agrees t F) xs xs') {cut : Nat → Cut}
    (hcut : F.Covers cut) :
    (xs'.map fun x => x.run.upTo (cut x.place))
      = xs.map fun x => x.run.upTo (cut x.place) := by
  induction h with
  | nil => rfl
  | cons hx _ ih => rw [List.map_cons, List.map_cons, hx.upTo cut hcut, ih]

/-- Members that have ended on this side of the frontier are the same. -/
theorem eq_of_agrees {xs xs' : List (Placed α)}
    (h : List.Forall₂ (Placed.Agrees t F) xs xs')
    (hended : ∀ x ∈ xs, ¬F.point ≤ x.finish) : xs' = xs := by
  induction h with
  | nil => rfl
  | cons hx _ ih =>
    obtain ⟨hend, hends⟩ := List.forall_mem_cons.mp hended
    rw [hx.same hend, ih hends]

theorem sameTo_of_agrees {xs xs' : List (Placed α)}
    (h : List.Forall₂ (Placed.Agrees t F) xs xs') :
    SameTo F.point (xs.map Placed.finish) (xs'.map Placed.finish) := by
  unfold SameTo
  rw [List.forall₂_map_left_iff, List.forall₂_map_right_iff]
  exact h.imp fun _ _ hx => hx.finish_cases

/-- **Members agree up to the frontier**, if those do that start alike, and
those that start beyond it. Of the members that start alike something may be
supposed that is known of all members of the first group, and no member asks
for a cancellation before the group is called. -/
theorem agrees_members {called : Moment} (ok : Placed α → Prop)
    (xs : List ι)
    (hearly : ∀ x ∈ xs, ∀ n start known known', first ≤ start →
      (limit = 0 → start = first) → called.NotAfter known →
      called.NotAfter known' → Moment.Alike t known known' →
      ok ⟨n, member x start known⟩ →
      Placed.Agrees t F ⟨n, member x start known⟩ ⟨n, member' x start known'⟩)
    (hlate : ∀ x ∈ xs, ∀ n n' start start' known known', first ≤ start →
      first ≤ start' → (limit = 0 → start = first) →
      (limit = 0 → start' = first) → called.NotAfter known →
      called.NotAfter known' → F.Behind start → F.Behind start' →
      Placed.Agrees t F ⟨n, member x start known⟩
        ⟨n', member' x start' known'⟩)
    (hsince : ∀ x ∈ xs, ∀ start known, first ≤ start →
      called.NotAfter (member x start known).cancels)
    (hsince' : ∀ x ∈ xs, ∀ start known, first ≤ start →
      called.NotAfter (member' x start known).cancels)
    {cancels cancels' : Option Moment} (hk : Moment.Alike t cancels cancels')
    (hc : called.NotAfter cancels) (hc' : called.NotAfter cancels')
    {ends ends' : List Point} (hends : SameTo F.point ends ends')
    (hok : ∀ y ∈ placed limit first ends
      (members limit first cancels (ends.map Point.moment) (xs.map member)),
      ok y) :
    List.Forall₂ (Placed.Agrees t F)
      (placed limit first ends
        (members limit first cancels (ends.map Point.moment) (xs.map member)))
      (placed limit first ends'
        (members limit first cancels' (ends'.map Point.moment)
          (xs.map member'))) := by
  induction xs generalizing cancels cancels' ends ends' with
  | nil => exact .nil
  | cons x xs ih =>
    obtain ⟨hx, hxs⟩ := List.forall_mem_cons.mp hearly
    obtain ⟨hl, hls⟩ := List.forall_mem_cons.mp hlate
    obtain ⟨hs, hss⟩ := List.forall_mem_cons.mp hsince
    obtain ⟨hs', hss'⟩ := List.forall_mem_cons.mp hsince'
    obtain ⟨hoky, hoks⟩ := List.forall_mem_cons.mp hok
    have hle (ends : List Moment) := first_le_start limit first ends
    have hfirst : Placed.Agrees t F
        ⟨place limit first ends,
          member x (start limit first (ends.map Point.moment)) cancels⟩
        ⟨place limit first ends',
          member' x (start limit first (ends'.map Point.moment)) cancels'⟩ := by
      rcases start_alike F hends limit with ⟨hstart, hplace⟩ | ⟨hs, hs'⟩
      · rw [hstart, hplace]
        exact hx _ _ _ _ (hle _) (fun h => if_pos h) hc hc' hk hoky
      · exact hl _ _ _ _ _ _ (hle _) (hle _) (fun h => if_pos h)
          (fun h => if_pos h) hc hc' hs hs'
    exact .cons hfirst (ih hxs hls hss hss'
      (hk.earliest? hfirst.alike_cancels)
      (Moment.notAfter_earliest?.mpr ⟨hc, hs _ _ (hle _)⟩)
      (Moment.notAfter_earliest?.mpr ⟨hc', hs' _ _ (hle _)⟩)
      (.cons hfirst.finish_cases hends) hoks)

end

/-! ## Groups -/

namespace Gathering

variable {g g' : Gathering α}

/-- **Groups that agree up to a frontier**: they were called together, and
their members agree. -/
structure Agrees (t : Nat) (F : Frontier g.called.next) (g' : Gathering α) :
    Prop where
  called : g'.called = g.called
  cancellable : g'.cancellable = g.cancellable
  cancelled : g'.cancelled = g.cancelled
  cancels : Moment.Alike t g.cancels g'.cancels
  members : List.Forall₂ (Placed.Agrees t F) g.members g'.members
  within : ∀ place, (F.horizon place).Within t
  /-- The members start behind the call, -/
  starts : g.Called
  /-- and what is left of them at a cut was looked after before. -/
  cleared : ∀ x ∈ g.members, ∀ c : Cut, c.moment.instant < t →
    ∀ d ∈ (x.run.upTo c).calls, d.cleared.instant < t

namespace Agrees

variable {F : Frontier g.called.next}

/-- What comes at the instant or later lies beyond the frontier. -/
theorem beyond (h : g.Agrees t F g') {p : Point}
    (hp : t ≤ p.moment.instant) : F.point ≤ p := by
  refine (F.precedes_iff p.place p.moment).mp (Horizon.precedes_iff.mpr ?_)
  exact fun d hd => .inl (.inl (Nat.lt_of_lt_of_le (h.within _ d hd) hp))

theorem runs_length (h : g.Agrees t F g') :
    g'.runs.length = g.runs.length := by
  rw [← map_run_members g, ← map_run_members g', List.length_map,
    List.length_map, h.members.length_eq]

/-- The cancellation is asked for alike, -/
theorem request (h : g.Agrees t F g') :
    Point.Alike t g.request g'.request := by
  have hfold {xs xs' : List (Placed α)}
      (hx : List.Forall₂ (Placed.Agrees t F) xs xs') {p p' : Option Point}
      (hp : Point.Alike t p p') :
      Point.Alike t (xs.foldl (fun p x => Point.earliest? p x.cancels) p)
        (xs'.foldl (fun p x => Point.earliest? p x.cancels) p') := by
    induction hx generalizing p p' with
    | nil => exact hp
    | cons hx _ ih => exact ih (hp.earliest? hx.cancels)
  exact hfold h.members (Point.alike_at h.cancels 0)

/-- and heard of alike. -/
theorem heard (h : g.Agrees t F g') : Point.Alike t g.heard g'.heard := by
  have hnot {called : Moment} {size : Nat} {p : Option Point}
      (hp : Moment.NotBefore t (p.map Point.moment)) :
      Moment.NotBefore t
        ((p.map (Group.heard called size)).map Point.moment) := by
    cases p with
    | none => exact Moment.notBefore_none
    | some p =>
      have hp : t ≤ p.moment.instant := Moment.notBefore_some.mp hp
      refine Moment.notBefore_some.mpr ?_
      unfold Group.heard
      split
      · next hle => exact Nat.le_trans hp (Moment.instant_le hle)
      · exact hp
  unfold Gathering.heard
  rw [h.called, h.runs_length]
  rcases h.request with heq | ⟨hno, hno'⟩
  · exact .inl (by rw [heq])
  · exact .inr ⟨hnot hno, hnot hno'⟩

theorem heard_cases (h : g.Agrees t F g') :
    g'.heard = g.heard
      ∨ (∀ p, g.heard = some p → t ≤ p.moment.instant)
        ∧ ∀ p, g'.heard = some p → t ≤ p.moment.instant := by
  rcases h.heard with heq | ⟨hno, hno'⟩
  · exact .inl heq.symm
  · exact .inr ⟨fun p hp => hno _ (by rw [hp]; rfl),
      fun p hp => hno' _ (by rw [hp]; rfl)⟩

/-- On this side of the frontier the groups wait for the same, -/
theorem filter_ends (h : g.Agrees t F g') :
    g'.ends.filter (fun p => !decide (F.point ≤ p))
      = g.ends.filter fun p => !decide (F.point ≤ p) := by
  have hsame := sameTo_of_agrees h.members
  unfold ends
  dsimp only
  rw [List.filter_append, List.filter_append, hsame.filter.1]
  congr 1
  rw [List.filter_filter, List.filter_filter]
  rcases h.heard_cases with heq | ⟨hno, hno'⟩
  · rw [heq]
    refine List.filter_congr fun p _ => ?_
    by_cases hp : F.point ≤ p
    · simp [hp]
    · rw [hsame.any hp]
  · have hnil {o : Option Point} {f : Point → Bool}
        (ho : ∀ p, o = some p → t ≤ p.moment.instant) :
        o.toList.filter (fun p => !decide (F.point ≤ p) && f p) = [] := by
      refine List.filter_eq_nil_iff.mpr fun p hp => ?_
      simp [h.beyond (ho p (by simpa using hp))]
    rw [hnil hno, hnil hno']

/-- and on the other side for something as long as some member has not
ended. -/
theorem filter_ends_eq_nil_iff {q : Point} (g : Gathering α) :
    (g.ends.filter fun p => q ≤ p) = []
      ↔ ∀ x ∈ g.members, ¬q ≤ x.finish := by
  simp only [List.filter_eq_nil_iff, decide_eq_true_eq]
  refine ⟨fun h x hx => h _ (finish_mem_ends hx), fun h e he hqe => ?_⟩
  rcases mem_ends he with ⟨x, hx, rfl⟩ | ⟨-, x, hx, hle⟩
  · exact h x hx hqe
  · exact h x hx (Point.le_trans hqe hle)

theorem ends_cases (h : g.Agrees t F g') :
    ∃ early late late', earliestFirst g.ends = early ++ late
      ∧ earliestFirst g'.ends = early ++ late'
      ∧ (∀ e ∈ late, F.point ≤ e) ∧ (∀ e ∈ late', F.point ≤ e)
      ∧ (late = [] ↔ late' = []) := by
  refine exists_early h.filter_ends ?_
  rw [filter_ends_eq_nil_iff, filter_ends_eq_nil_iff]
  constructor
  · intro hno x' hx'
    obtain ⟨x, hx, hxx⟩ := exists_of_forall₂ h.members x' hx'
    rw [hxx.same (hno x hx)]
    exact hno x hx
  · intro hno x hx hle
    obtain ⟨x', hx', hxx⟩ := exists_of_forall₂ h.members.flip x hx
    exact hno x' hx' (hxx.beyond hle)

/-! ### Looks -/

/-- Of the one who waits for the cancellation the same is told, unless it
is told of the instant or later. -/
theorem any_heard_eq (h : g.Agrees t F g') {told : Point → Bool}
    (htold : ∀ p, t ≤ p.moment.instant → told p = false) :
    g'.heard.any told = g.heard.any told := by
  rcases h.heard_cases with heq | ⟨hno, hno'⟩
  · rw [heq]
  · have hfalse {o : Option Point}
        (ho : ∀ p, o = some p → t ≤ p.moment.instant) :
        o.any told = false := by
      cases o with
      | none => rfl
      | some p => exact htold p (ho p rfl)
    rw [hfalse hno, hfalse hno']

theorem hears_eq (h : g.Agrees t F g') {l : Point} (hl : ¬F.point ≤ l) :
    g'.hears l = g.hears l :=
  h.any_heard_eq fun _ hp => decide_eq_false fun hle =>
    hl (Point.le_trans (h.beyond hp) hle)

/-- A look on this side of the frontier shows the same. -/
theorem seen?_eq (h : g.Agrees t F g') {l : Point} (hl : ¬F.point ≤ l) :
    g'.seen? l = g.seen? l := by
  have hfailed : failed? g'.members l = failed? g.members l :=
    found?_eq_of_agrees h.members _ hl
  unfold seen?
  rw [h.hears_eq hl, hfailed, h.cancelled]

/-- **The groups look for the last time alike**: they take the same look and
see the same, or both look beyond the frontier. -/
theorem watched_cases (h : g.Agrees t F g') :
    g'.watched = g.watched
      ∨ F.point ≤ g.look ∧ F.point ≤ g'.look := by
  obtain ⟨early, late, late', hg, hg', hlate, hlate', hnil⟩ := h.ends_cases
  unfold look watched
  rw [hg, hg', h.called]
  exact watch_alike (fun l hl => h.seen?_eq hl) hlate hlate' hnil _

/-- They are told alike that they are cut. -/
theorem due_cases (h : g.Agrees t F g') (c : Cut) :
    g'.due c = g.due c ∨ F.point ≤ g.due c ∧ F.point ≤ g'.due c := by
  obtain ⟨early, late, late', hg, hg', hlate, hlate', hnil⟩ := h.ends_cases
  unfold due
  rw [hg, hg', h.called]
  have hsame (l : Point) (_ : ¬F.point ≤ l) : told? c l = told? c l := rfl
  rcases watch_alike hsame hlate hlate' hnil ⟨g.called, 0⟩ with heq | hle
  · exact .inl (by rw [heq])
  · exact .inr hle

/-- Who is told so at a look is told so at the same one, or a while beyond the
frontier. -/
theorem due_cases_of_precedes (h : g.Agrees t F g') {c : Cut}
    (hcalled : ¬c.Precedes g.called) (hc : c.Precedes g.look.moment)
    (hc' : c.Precedes g'.look.moment) :
    g'.due c = g.due c
      ∨ F.point.noticed ≤ g.due c ∧ F.point.noticed ≤ g'.due c := by
  have hfound {g : Gathering α} (hcalled : ¬c.Precedes g.called)
      (hc : c.Precedes g.look.moment) :
      (watch (told? c) ⟨g.called, 0⟩ (earliestFirst g.ends)).2 ≠ none := by
    have hdue : c.Precedes
        (watch (told? c) ⟨g.called, 0⟩ (earliestFirst g.ends)).1.moment :=
      (precedes_due hc).1
    intro hnone
    rcases watch_cases (told? c) (pairwise_earliestFirst g.ends) ⟨g.called, 0⟩
      with ⟨-, hw⟩ | ⟨f, hf, -⟩
    · rcases hw.missed with heq | hmissed
      · rw [heq] at hdue
        exact hcalled hdue
      · have htold := (if_pos hdue).symm.trans hmissed
        cases htold
    · rw [hnone] at hf
      cases hf
  have hf := hfound hcalled hc
  have hf' := hfound (h.called ▸ hcalled) hc'
  obtain ⟨early, late, late', hg, hg', hlate, hlate', -⟩ := h.ends_cases
  unfold due
  rw [h.called] at hf' ⊢
  rw [hg] at hf ⊢
  rw [hg'] at hf' ⊢
  exact watch_found_alike hlate hlate' hf hf'

/-! ### Courses -/

theorem any_cut_eq (h : g.Agrees t F g') {cut : Nat → Cut}
    (hcut : F.Covers cut) :
    (g'.heard.any fun p => !decide ((cut p.place).Precedes p.moment))
      = g.heard.any fun p => !decide ((cut p.place).Precedes p.moment) := by
  refine h.any_heard_eq fun p hp => ?_
  have hlt := h.within p.place _ (hcut.covers p.place)
  have hprecedes : (cut p.place).Precedes p.moment :=
    .inl (.inl (Nat.lt_of_lt_of_le hlt hp))
  simpa using hprecedes

/-- **The same is left of both groups** after a cut of all members on this
side of the frontier. -/
theorem courseAt_eq (h : g.Agrees t F g') {cut : Nat → Cut}
    (hcut : F.Covers cut) (closed : Moment) (ended : Bool) :
    g'.courseAt closed ended (fun x => x.run.upTo (cut x.place))
      = g.courseAt closed ended fun x => x.run.upTo (cut x.place) := by
  have hparts := map_upTo_of_agrees h.members hcut
  unfold courseAt
  rw [hparts, h.cancellable]
  rcases h.request with heq | ⟨hno, hno'⟩
  · rw [heq]
  · -- nothing that is left was looked after behind either request
    have hall {o : Option Point} (ho : Moment.NotBefore t (o.map Point.moment)) :
        (((g.members.map fun x => x.run.upTo (cut x.place)).flatMap
            Course.calls).filter fun d =>
              (o.map Point.moment).all fun m => d.cleared ≤ m)
          = (g.members.map fun x => x.run.upTo (cut x.place)).flatMap
              Course.calls := by
      refine List.filter_eq_self.mpr fun d hd => ?_
      obtain ⟨k, hk, hd⟩ := List.mem_flatMap.mp hd
      obtain ⟨x, hx, rfl⟩ := List.mem_map.mp hk
      have hlt := h.cleared x hx _
        (h.within x.place _ (hcut.covers x.place)) d hd
      cases o with
      | none => rfl
      | some p =>
        exact decide_eq_true (.inl (Nat.lt_of_lt_of_le hlt (ho p.moment rfl)))
    unfold gathered
    rw [hall hno, hall hno']

/-! ### Runs -/

/-- **A group that is over on this side of the frontier** is the same in both
cases. -/
theorem run_eq (h : g.Agrees t F g') (hlook : ¬F.point ≤ g.look)
    (hcover : F.Covers g.look.cut)
    (hpassed : ∀ c : Cut, c.Precedes g.look.moment → F.Covers (g.passed c)) :
    g'.run = g.run := by
  have hwatched : g'.watched = g.watched :=
    h.watched_cases.resolve_right fun hle => hlook hle.1
  have heq : g'.look = g.look := congrArg Prod.fst hwatched
  have hcourse : g'.course = g.course := by
    unfold course
    rw [heq, h.hears_eq hlook]
    exact h.courseAt_eq hcover _ _
  have houtcome : g'.outcome = g.outcome := by
    have hi : g.look.moment.instant < t :=
      Nat.not_le.mp fun hle => hlook (h.beyond hle)
    have hreached :
        Moment.reached (g'.request.map Point.moment) g.look.moment
          = Moment.reached (g.request.map Point.moment) g.look.moment :=
      (h.request.moment.reached_eq hi).symm
    unfold outcome
    rw [hwatched, heq, hreached, h.cancelled]
    rcases g.watched_cases with ⟨hnone, hw⟩ | ⟨f, hf, -⟩
    · -- all members have ended
      have hended : ∀ x ∈ g.members, ¬F.point ≤ x.finish := fun x hx hle =>
        hlook (Point.le_trans hle (hw.ended _ (finish_mem_ends hx)))
      have hruns : g'.runs = g.runs := by
        rw [← map_run_members g, ← map_run_members g',
          eq_of_agrees h.members hended]
      rw [hruns]
    · rw [hf]
  have hstop (c : Cut) (hc : c.Precedes g.look.moment) :
      g'.stop c = g.stop c := by
    have hdue : g'.due c = g.due c :=
      (h.due_cases c).resolve_right fun hle =>
        hlook (Point.le_trans hle.1 (precedes_due hc).2)
    have hcut : g'.passed c = g.passed c := by
      unfold passed
      rw [hdue]
    unfold stop
    rw [hcut, hdue, h.any_cut_eq (hpassed c hc)]
    exact h.courseAt_eq (hpassed c hc) _ _
  exact Run.settled_congr hcourse houtcome (congrArg Point.moment heq) hstop

/-- **A group that is over beyond the frontier** agrees with the other one up
to a horizon that lies before the frontier. -/
theorem run_agrees (h : g.Agrees t F g') {d : Horizon}
    (hlook : d.Precedes g.look.moment) (hpoint : d.Precedes F.point.moment)
    (hpassed : ∀ c, d.Covers c → F.Covers (g.passed c)) :
    Run.Agrees d g.called g.run g'.run := by
  have hlook' : d.Precedes g'.look.moment := by
    rcases h.watched_cases with heq | ⟨-, hle⟩
    · rwa [show g'.look = g.look from congrArg Prod.fst heq]
    · exact hpoint.mono (Point.moment_le hle)
  refine ⟨fun hno => ?_, fun _ => ?_, fun c hc hcalled => ?_⟩
  · exact absurd (hlook.mono g.look_le_finish) hno
  · exact hlook'.mono g'.look_le_finish
  · have hcut : g'.passed c = g.passed c
        ∧ c.arrival (g'.due c).moment = c.arrival (g.due c).moment := by
      rcases h.due_cases_of_precedes hcalled (hc.precedes hlook)
        (hc.precedes hlook') with heq | ⟨hle, hle'⟩
      · unfold passed
        rw [heq]
        exact ⟨rfl, rfl⟩
      · -- the members are told of the cut before the groups are
        have hsoon {p : Point} (hp : F.point.noticed ≤ p) :
            c.moment.next < p.moment := by
          have hnext := Moment.next_mono (hc.precedes hpoint).moment_le
          refine Moment.lt_of_le_of_lt hnext
            (Moment.lt_of_lt_of_le ?_ (Point.moment_le hp))
          exact .inr ⟨rfl, Nat.lt_succ_self _⟩
        have hlt := hsoon hle
        have hlt' := hsoon hle'
        exact ⟨funext fun _ => (if_pos hlt').trans (if_pos hlt).symm,
          (if_pos (Moment.le_of_lt hlt')).trans
            (if_pos (Moment.le_of_lt hlt)).symm⟩
    rw [upTo_run_of_precedes (hc.precedes hlook),
      upTo_run_of_precedes (hc.precedes hlook')]
    unfold stop
    rw [hcut.1, hcut.2, h.any_cut_eq (hpassed c hc)]
    exact h.courseAt_eq (hpassed c hc) _ _

end Agrees

/-! ### Cuts of all members -/

theorem Called.next_le_of_mem_ends (hg : g.Called) {e : Point}
    (he : e ∈ g.ends) : g.called.next ≤ e.moment := by
  rcases mem_ends he with ⟨x, hx, rfl⟩ | ⟨hh, -⟩
  · exact Moment.next_le_iff.mpr (hg _ (run_mem hx))
  · obtain ⟨p, -, rfl⟩ := Option.map_eq_some_iff.mp hh
    unfold Group.heard
    split
    · exact Moment.le_refl _
    · next h =>
      exact Moment.le_trans (Moment.le_of_lt (Moment.not_le.mp h))
        p.moment.le_next

/-- Nobody looks when the first member could start. -/
theorem Called.watch_ne (hg : g.Called) (seen : Point → Option β) :
    (watch seen ⟨g.called, 0⟩ (earliestFirst g.ends)).1.moment
      ≠ g.called.next := by
  have hnoticed {e : Point} (he : e ∈ earliestFirst g.ends) :
      e.noticed.moment ≠ g.called.next := by
    have hle := hg.next_le_of_mem_ends (mem_earliestFirst.mp he)
    intro heq
    exact Moment.not_lt.mpr hle (heq ▸ e.lt_noticed)
  have hlast : g.called ≠ g.called.next := fun heq => by
    simpa [Moment.next, Moment.skip] using congrArg Moment.step heq
  rcases watch_cases seen (pairwise_earliestFirst g.ends) ⟨g.called, 0⟩ with
    ⟨-, hw⟩ | ⟨f, -, hf⟩
  · rcases hw.soon with heq | ⟨e, he, -, heq⟩
    · rw [heq]
      exact hlast
    · rw [heq]
      exact hnoticed he
  · obtain ⟨e, he, -, heq, -⟩ := hf.cause
    rw [heq]
    exact hnoticed he

theorem Called.uniform_cut (hg : g.Called) (seen : Point → Option β) :
    Uniform g.called.next
      (watch seen ⟨g.called, 0⟩ (earliestFirst g.ends)).1.cut where
  moment _ _ := rfl
  precedes _ _ hp :=
    have hne := hg.watch_ne seen
    .inl (hp.elim id fun heq => absurd heq.2 hne)

theorem Called.uniform_passed (hg : g.Called) (c : Cut) :
    Uniform g.called.next (g.passed c) := by
  by_cases hlt : c.moment.next < (g.due c).moment
  · have heq : g.passed c = fun _ => ⟨c.moment.next, c.first⟩ :=
      funext fun _ => if_pos hlt
    rw [heq]
    exact ⟨fun _ _ => rfl, fun _ _ => id⟩
  · have heq : g.passed c = (g.due c).cut := funext fun _ => if_neg hlt
    rw [heq]
    exact hg.uniform_cut (told? c)

/-! ### Horizons -/

/-- **Groups agree before an instant** if their members do. -/
theorem Agrees.run_instant
    (h : g.Agrees t (Frontier.instant g.called.next t) g') :
    Run.Agrees (.instant t) g.called g.run g'.run := by
  have hpassed {c : Cut} (hc : c.Precedes g.look.moment)
      (hi : c.moment.instant < t) :
      (Frontier.instant g.called.next t).Covers (g.passed c) := by
    have hlt (place : Nat) : (g.passed c place).moment.instant < t := by
      rwa [moment_passed, instant_arrival hc]
    exact ⟨h.starts.uniform_passed c, hlt,
      fun place => Moment.le_of_lt (.inl (hlt place))⟩
  by_cases hlt : g.look.moment.instant < t
  · have hlook : ¬(Frontier.instant g.called.next t).point ≤ g.look :=
      fun hle => by
        have := Moment.instant_le (Point.moment_le hle)
        exact Nat.not_lt.mpr this hlt
    refine .of_eq (h.run_eq hlook ?_ fun c hc => hpassed hc ?_)
    · exact ⟨h.starts.uniform_cut g.seen?, fun _ => hlt,
        fun _ => Moment.le_of_lt (.inl hlt)⟩
    · exact Nat.lt_of_le_of_lt (Moment.instant_le hc.moment_le) hlt
  · have hle := Nat.not_lt.mp hlt
    exact h.run_agrees hle (Nat.le_refl t) fun c hc =>
      hpassed (.inl (.inl (Nat.lt_of_lt_of_le hc hle))) hc

end Gathering

end Shortcode.Group
