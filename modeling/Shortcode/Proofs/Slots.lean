import Mathlib.Data.List.Forall2
import Shortcode.Build
import Shortcode.Proofs.Depth
import Shortcode.Proofs.Descent

/-!
# Slots

A group with a limit hands its slots out in order. `Group.start` says when a
member starts by looking for one of the ends of those before it; what it is
reasoned about with is how many of them go on at a moment
(`Group.start_cases`): fewer than the limit when a member starts, and as
many as the limit as long as it waits. From that follows what a whole group
does (`Group.Scheduled`), by induction on the members, whatever they do and
however they end.

Members are told as if nobody stopped the group. Where it is stopped, or an
enclosing run is, a part of what they do is left, and a part of a schedule
keeps to the limit as well (`Group.Limited.of_within`). In this way the
limit is kept by the calls that are told of a run (`Request.limited_run`):
those at the depth of a text are its invocations', and what they have
expanded lies deeper.

Taking a slot takes a step. So a member that ends at a moment counts for the
one that waits as if it were still there.
-/

namespace Shortcode

/-! ## Free slots -/

namespace Group

variable {limit : Nat} {first m : Moment} {ends : List Moment}

/-- How many of some moments are later than another one. -/
def later (m : Moment) (ends : List Moment) : Nat :=
  ends.countP fun e => m < e

theorem later_mono {m' : Moment} (h : m ≤ m') (ends : List Moment) :
    later m' ends ≤ later m ends :=
  List.countP_mono_left fun e _ he => by
    simpa using Moment.lt_of_le_of_lt h (by simpa using he)

/-- In order, from the latest on, as many moments are later than the one at
a place as stand in front of it, at most. -/
theorem later_of_pairwise {front back : List Moment} {free : Moment}
    (h : (front ++ free :: back).Pairwise fun a b => b ≤ a) :
    later free (front ++ free :: back) ≤ front.length
      ∧ front.length < (front ++ free :: back).countP fun e => free ≤ e := by
  obtain ⟨-, hback, hfront⟩ := List.pairwise_append.mp h
  have hback := (List.pairwise_cons.mp hback).1
  have hnone : back.countP (fun e => decide (free < e)) = 0 := by
    refine List.countP_eq_zero.mpr fun e he => ?_
    simpa [Moment.not_lt] using hback e he
  have hall : front.countP (fun e => decide (free ≤ e)) = front.length :=
    List.countP_eq_length.mpr fun e he => by
      simpa using hfront e he free List.mem_cons_self
  unfold later
  rw [List.countP_append, List.countP_append, List.countP_cons,
    List.countP_cons, hnone, hall]
  have hle : front.countP (fun e => decide (free < e)) ≤ front.length :=
    List.countP_le_length
  simp only [Moment.lt_irrefl, Moment.le_refl, decide_false, decide_true,
    if_true, Bool.false_eq_true, if_false]
  omega

/-- **When a slot is free**: at the first moment, if fewer members than the
limit go on; otherwise in the step behind the end of a member, which is the
last by which as many as the limit go on. -/
theorem start_cases (hl : limit ≠ 0) (first : Moment) (ends : List Moment) :
    (start limit first ends = first ∧ later first ends < limit)
      ∨ ∃ free, first < free ∧ start limit first ends = free.next
        ∧ later free ends < limit
        ∧ limit ≤ ends.countP fun e => free ≤ e := by
  have hperm : (latestFirst ends).Perm ends := perm_inOrder _ ends
  have hlater : ∀ m, later m (latestFirst ends) = later m ends :=
    fun m => hperm.countP_eq _
  unfold start
  rw [if_neg hl]
  cases hf : (latestFirst ends)[limit - 1]? with
  | none =>
    have hlen := List.getElem?_eq_none_iff.mp hf
    have hle : later first ends ≤ ends.length := List.countP_le_length
    rw [hperm.length_eq] at hlen
    exact .inl ⟨rfl, by omega⟩
  | some free =>
    obtain ⟨hlt, hget⟩ := List.getElem?_eq_some_iff.mp hf
    have hsplit : latestFirst ends
        = (latestFirst ends).take (limit - 1)
          ++ free :: (latestFirst ends).drop (limit - 1 + 1) := by
      rw [← hget, List.cons_getElem_drop_succ, List.take_append_drop]
    have hp := pairwise_latestFirst ends
    rw [hsplit] at hp
    obtain ⟨hfew, hmany⟩ := later_of_pairwise hp
    rw [← hsplit, List.length_take] at hfew hmany
    rw [hlater] at hfew
    rw [hperm.countP_eq] at hmany
    dsimp only
    split
    · next hle =>
      have := later_mono hle ends
      exact .inl ⟨rfl, by omega⟩
    · next hle =>
      exact .inr ⟨free, Moment.not_le.mp hle, rfl, by omega, by omega⟩

/-- **A slot is free** when a member starts. -/
theorem later_start_lt (hl : limit ≠ 0) (first : Moment)
    (ends : List Moment) : later (start limit first ends) ends < limit := by
  rcases start_cases hl first ends with ⟨he, hlt⟩ | ⟨free, -, he, hlt, -⟩
  · rwa [he]
  · rw [he]
    exact Nat.lt_of_le_of_lt (later_mono free.le_next ends) hlt

/-- **No slot is free** as long as a member waits. -/
theorem le_countP_of_lt_start (hl : limit ≠ 0) (hm : first ≤ m)
    (hlt : m < start limit first ends) :
    limit ≤ ends.countP fun e => m ≤ e := by
  rcases start_cases hl first ends with ⟨he, -⟩ | ⟨free, -, he, -, hle⟩
  · rw [he] at hlt
    exact absurd (Moment.lt_of_le_of_lt hm hlt) (Moment.lt_irrefl first)
  · rw [he, Moment.lt_next_iff] at hlt
    refine Nat.le_trans hle (List.countP_mono_left fun e _ hfree => ?_)
    simpa using Moment.le_trans hlt (by simpa using hfree)

/-- A member does not start before the one in front of it. -/
theorem start_le_start_cons (limit : Nat) (first e : Moment)
    (ends : List Moment) :
    start limit first ends ≤ start limit first (e :: ends) := by
  by_cases hl : limit = 0
  · unfold start
    rw [if_pos hl, if_pos hl]
    exact first.le_refl
  · rcases start_cases hl first ends with
      ⟨he, -⟩ | ⟨free, hfirst, he, -, hmany⟩
    · rw [he]
      exact first_le_start limit first (e :: ends)
    · -- before `free` no slot is free with one member more either
      have hfree : ∀ m, later m (e :: ends) < limit → free ≤ m := by
        intro m hm
        refine Moment.not_lt.mp fun hlt => ?_
        have hle : (ends.countP fun e => free ≤ e) ≤ later m ends :=
          List.countP_mono_left fun x _ hx => by
            simpa using Moment.lt_of_lt_of_le hlt (by simpa using hx)
        have hcons : later m ends ≤ later m (e :: ends) :=
          (List.sublist_cons_self e ends).countP_le
        omega
      rw [he]
      rcases start_cases hl first (e :: ends) with
        ⟨-, hfew⟩ | ⟨free', -, he', hfew, -⟩
      · exact absurd hfirst (Moment.not_lt.mpr (hfree first hfew))
      · rw [he']
        exact Moment.next_le_iff.mpr
          (Moment.lt_next_iff.mpr (hfree free' hfew))

/-! ## Schedules -/

/-- When a member of a group starts, and when it ends. -/
structure Span where
  start : Moment
  finish : Moment
deriving DecidableEq, Repr

/-- The member is in progress: it has started, and has not ended yet. -/
def Span.inProgress (m : Moment) (x : Span) : Bool :=
  x.start ≤ m && m < x.finish

/-- **At most as many as a limit in progress**, of spans in order. -/
structure Limited (limit : Nat) (spans : List Span) : Prop where
  /-- They start in order. -/
  inOrder : spans.Pairwise fun a b => a.start ≤ b.start
  /-- At every moment at most as many as the limit are in progress. -/
  atMost : limit ≠ 0 → ∀ m, spans.countP (Span.inProgress m) ≤ limit
  /-- Fewer are, of those in front of one, when that one starts. -/
  room : limit ≠ 0 → ∀ front x back, spans = front ++ x :: back →
    front.countP (Span.inProgress x.start) < limit

/-- **The spans of a group's members**, in order, in a group that can start
its first member at a moment. -/
structure Scheduled (limit : Nat) (first : Moment) (spans : List Span) : Prop
    extends Limited limit spans where
  /-- As many as the limit start at once, and all if there is none. -/
  atOnce : ∀ front x back, spans = front ++ x :: back →
    limit = 0 ∨ front.length < limit → x.start = first
  /-- **Nobody waits for nothing**: as long as a member has not started, as
  many as the limit have, and have not ended before. -/
  waits : limit ≠ 0 → ∀ x ∈ spans, ∀ m, first ≤ m → m < x.start →
    limit ≤ spans.countP fun y => y.start ≤ m && m ≤ y.finish

/-- Spans whose members start when slots become free, some others having
ended at certain moments. -/
def Follows (limit : Nat) (first : Moment) : List Moment → List Span → Prop
  | _, [] => True
  | ends, x :: rest =>
    x.start = start limit first ends
      ∧ Follows limit first (x.finish :: ends) rest

variable {spans : List Span}

theorem Follows.start_le (h : Follows limit first ends spans) :
    ∀ x ∈ spans, start limit first ends ≤ x.start := by
  induction spans generalizing ends with
  | nil => exact List.forall_mem_nil _
  | cons x rest ih =>
    obtain ⟨he, hrest⟩ := h
    refine List.forall_mem_cons.mpr
      ⟨he ▸ Moment.le_refl _, fun y hy => ?_⟩
    exact Moment.le_trans (start_le_start_cons limit first x.finish ends)
      (ih hrest y hy)

theorem Follows.inOrder (h : Follows limit first ends spans) :
    spans.Pairwise fun a b => a.start ≤ b.start := by
  induction spans generalizing ends with
  | nil => exact .nil
  | cons x rest ih =>
    obtain ⟨he, hrest⟩ := h
    refine .cons (fun y hy => ?_) (ih hrest)
    rw [he]
    exact Moment.le_trans (start_le_start_cons limit first x.finish ends)
      (hrest.start_le y hy)

/-- Members in progress, together with those in front of them that go on,
are at most as many as the limit. -/
theorem Follows.countP_le (hl : limit ≠ 0)
    (h : Follows limit first ends spans) (m : Moment) :
    spans.countP (Span.inProgress m) = 0
      ∨ later m ends + spans.countP (Span.inProgress m) ≤ limit := by
  induction spans generalizing ends with
  | nil => exact .inl rfl
  | cons x rest ih =>
    obtain ⟨he, hrest⟩ := h
    have hcons : later m (x.finish :: ends)
        = later m ends + if m < x.finish then 1 else 0 := by
      simp [later, List.countP_cons]
    rw [List.countP_cons]
    by_cases hx : Span.inProgress m x = true
    · have hx' : x.start ≤ m ∧ m < x.finish := by
        simpa [Span.inProgress] using hx
      rw [if_pos hx]
      right
      rcases ih hrest with h0 | hle
      · have hlt := later_start_lt hl first ends
        have hmono := later_mono hx'.1 ends
        rw [he] at hmono
        omega
      · rw [hcons, if_pos hx'.2] at hle
        omega
    · rw [if_neg hx, Nat.add_zero]
      refine (ih hrest).imp_right fun hle => ?_
      rw [hcons] at hle
      omega

/-- **Nobody waits for nothing**, also where others have started before. -/
theorem Follows.le_countP (hl : limit ≠ 0) (before : List Span)
    (h : Follows limit first (before.map Span.finish) spans)
    (hm : first ≤ m) (hb : ∀ y ∈ before, y.start ≤ m)
    (hx : ∃ x ∈ spans, m < x.start) :
    limit ≤ before.countP (fun y => y.start ≤ m && m ≤ y.finish)
      + spans.countP fun y => y.start ≤ m && m ≤ y.finish := by
  induction spans generalizing before with
  | nil => simp at hx
  | cons x rest ih =>
    obtain ⟨he, hrest⟩ := h
    by_cases hlt : m < x.start
    · rw [he] at hlt
      have hle := le_countP_of_lt_start hl hm hlt
      rw [List.countP_map] at hle
      refine Nat.le_add_right_of_le (Nat.le_trans hle ?_)
      exact List.countP_mono_left fun y hy hfinish => by
        simpa [hb y hy] using hfinish
    · have hle : x.start ≤ m := Moment.not_lt.mp hlt
      obtain ⟨y, hy, hlate⟩ := hx
      have hyrest : y ∈ rest := by
        rcases List.mem_cons.mp hy with rfl | hy
        · exact absurd hlate hlt
        · exact hy
      have hih := ih (x :: before) hrest
        (List.forall_mem_cons.mpr ⟨hle, hb⟩) ⟨y, hyrest, hlate⟩
      rw [List.countP_cons] at hih ⊢
      omega

theorem start_of_length_lt (h : limit = 0 ∨ ends.length < limit) :
    start limit first ends = first := by
  unfold start
  split
  · rfl
  · next hl =>
    have hperm : (latestFirst ends).Perm ends := perm_inOrder _ ends
    have hn : (latestFirst ends)[limit - 1]? = none := by
      refine List.getElem?_eq_none_iff.mpr ?_
      rw [hperm.length_eq]
      omega
    rw [hn]

/-- What a member's start depends on: the ends of those in front of it. -/
theorem Follows.of_append {front back : List Span}
    (h : Follows limit first ends (front ++ back)) :
    Follows limit first ((front.map Span.finish).reverse ++ ends) back := by
  induction front generalizing ends with
  | nil => exact h
  | cons x front ih =>
    rw [List.map_cons, List.reverse_cons, List.append_assoc]
    exact ih h.2

/-- **Members that take the slots that become free** keep to the limit. -/
theorem Follows.scheduled (h : Follows limit first [] spans) :
    Scheduled limit first spans where
  inOrder := h.inOrder
  atMost := fun hl m => by
    rcases h.countP_le hl m with h0 | hle
    · omega
    · exact Nat.le_trans (Nat.le_add_left ..) hle
  room := by
    rintro hl front x back rfl
    obtain ⟨he, -⟩ := h.of_append
    have hlt := later_start_lt hl first
      ((front.map Span.finish).reverse ++ [])
    rw [← he, List.append_nil, later, List.countP_reverse,
      List.countP_map] at hlt
    refine Nat.lt_of_le_of_lt (List.countP_mono_left fun y _ hy => ?_) hlt
    simp only [Span.inProgress, Bool.and_eq_true] at hy
    exact hy.2
  atOnce := by
    rintro front x back rfl hlt
    obtain ⟨he, -⟩ := h.of_append
    rw [he]
    exact start_of_length_lt (by simpa using hlt)
  waits := fun hl x hx m hm hlt => by
    have hle := Follows.le_countP hl [] h hm (List.forall_mem_nil _)
      ⟨x, hx, hlt⟩
    simpa using hle

/-- The spans of members, in the order in which they are started. -/
def schedule {ι α : Type} (limit : Nat) (first : Moment)
    (member : ι → Member α) (known : Option Moment) (ends : List Moment)
    (xs : List ι) : List Span :=
  (started limit first member known ends xs).map fun y =>
    ⟨y.2.1, (member y.1 y.2.1 y.2.2).finish⟩

theorem follows_schedule {ι α : Type} (limit : Nat) (first : Moment)
    (member : ι → Member α) (known : Option Moment) (ends : List Moment)
    (xs : List ι) :
    Follows limit first ends (schedule limit first member known ends xs) := by
  induction xs generalizing known ends with
  | nil => trivial
  | cons x xs ih => exact ⟨rfl, ih _ _⟩

/-- **Groups keep to their limit**, whatever their members do. -/
theorem scheduled_schedule {ι α : Type} (limit : Nat) (first : Moment)
    (member : ι → Member α) (known : Option Moment) (xs : List ι) :
    Scheduled limit first (schedule limit first member known [] xs) :=
  (follows_schedule limit first member known [] xs).scheduled

/-! ## Spans that are cut -/

/-- A span, or the part of it up to a cut. -/
def Span.Within (x y : Span) : Prop :=
  x.start = y.start ∧ x.finish ≤ y.finish

instance : IsTrans Span Span.Within :=
  ⟨fun _ _ _ h h' => ⟨h.1.trans h'.1, Moment.le_trans h.2 h'.2⟩⟩

theorem Span.Within.inProgress {x y : Span} (h : x.Within y)
    (hx : x.inProgress m = true) : y.inProgress m = true := by
  simp only [Span.inProgress, Bool.and_eq_true, decide_eq_true_eq] at hx ⊢
  exact ⟨h.1 ▸ hx.1, Moment.lt_of_lt_of_le hx.2 h.2⟩

theorem countP_inProgress_le {xs ys : List Span}
    (h : List.SublistForall₂ Span.Within xs ys) (m : Moment) :
    xs.countP (Span.inProgress m) ≤ ys.countP (Span.inProgress m) := by
  induction h with
  | nil => exact Nat.zero_le _
  | cons hxy _ ih =>
    rw [List.countP_cons, List.countP_cons]
    refine Nat.add_le_add ih ?_
    split
    · next hx => rw [if_pos (hxy.inProgress hx)]
    · exact Nat.zero_le _
  | cons_right _ ih =>
    rw [List.countP_cons]
    exact Nat.le_add_right_of_le ih

/-- What stands in front of a part stands in front of the whole. -/
theorem exists_of_sublistForall₂ {ι κ : Type} {R : ι → κ → Prop}
    {front back : List ι} {x : ι} {ys : List κ}
    (h : List.SublistForall₂ R (front ++ x :: back) ys) :
    ∃ front' y back', ys = front' ++ y :: back'
      ∧ List.SublistForall₂ R front front' ∧ R x y := by
  generalize hxs : front ++ x :: back = xs at h
  induction h generalizing front with
  | nil => simp at hxs
  | @cons a b as bs hab hrest ih =>
    rcases List.append_eq_cons_iff.mp hxs with ⟨rfl, he⟩ | ⟨front, rfl, he⟩
    · obtain ⟨rfl, -⟩ := List.cons.inj he
      exact ⟨[], b, bs, rfl, .nil, hab⟩
    · obtain ⟨front', y, back', rfl, hfront, hxy⟩ := ih he.symm
      exact ⟨b :: front', y, back', rfl, .cons hab hfront, hxy⟩
  | @cons_right b as bs hrest ih =>
    obtain ⟨front', y, back', rfl, hfront, hxy⟩ := ih hxs
    exact ⟨b :: front', y, back', rfl, .cons_right hfront, hxy⟩

/-- **What is left of spans after cuts** keeps to the limit. -/
theorem Limited.of_within {xs ys : List Span} (hl : Limited limit ys)
    (h : List.SublistForall₂ Span.Within xs ys) : Limited limit xs where
  inOrder := by
    have hstarts : (xs.map Span.start).Sublist (ys.map Span.start) := by
      clear hl
      induction h with
      | nil => exact List.nil_sublist _
      | cons hxy _ ih =>
        rw [List.map_cons, List.map_cons, hxy.1]
        exact ih.cons_cons _
      | cons_right _ ih => exact ih.cons _
    have hin := List.pairwise_map.mpr hl.inOrder
    exact List.pairwise_map.mp (hin.sublist hstarts)
  atMost := fun h0 m =>
    Nat.le_trans (countP_inProgress_le h m) (hl.atMost h0 m)
  room := by
    rintro h0 front x back rfl
    obtain ⟨front', y, back', rfl, hfront, hxy⟩ := exists_of_sublistForall₂ h
    rw [hxy.1]
    exact Nat.lt_of_le_of_lt (countP_inProgress_le hfront y.start)
      (hl.room h0 front' y back' rfl)

end Group

/-! ## Calls of a group -/

/-- A call, or a part of it that starts together with it. -/
def Call.PartOf (d c : Call) : Prop :=
  d.invocation = c.invocation ∧ d.depth = c.depth ∧ d.started = c.started
    ∧ d.left ≤ c.left

/-- From when to when a call is in progress: from when its turn came. -/
def Call.span (c : Call) : Group.Span :=
  ⟨c.started, c.left⟩

namespace Run

/-- **What is left of calls** after cuts: some of them, or parts of them, in
the same order. -/
abbrev Left (kept calls : List Call) : Prop :=
  List.SublistForall₂ Call.PartOf kept calls

theorem left_refl (calls : List Call) : Left calls calls :=
  List.sublistForall₂_iff.mpr ⟨calls, List.forall₂_same.mpr fun c _ =>
    ⟨rfl, rfl, rfl, c.left.le_refl⟩, List.Sublist.refl _⟩

/-- What a cut leaves of calls is left of them. -/
theorem left_of_kept {kept calls : List Call} (h : Call.Kept kept calls) :
    Left kept calls := by
  induction h with
  | nil => exact .nil
  | @cons d c _ _ hdc _ ih =>
    refine .cons ?_ ih
    rcases hdc with rfl | ⟨m, hm, rfl⟩
    · exact ⟨rfl, rfl, rfl, d.left.le_refl⟩
    · exact ⟨rfl, rfl, rfl, hm⟩
  | drop _ ih => exact .cons_right ih

/-- When the handlers at a depth are in progress. -/
def spansAt (depth : Nat) (calls : List Call) : List Group.Span :=
  (calls.filter fun c => c.depth = depth).map Call.span

theorem spansAt_append (depth : Nat) (calls calls' : List Call) :
    spansAt depth (calls ++ calls')
      = spansAt depth calls ++ spansAt depth calls' := by
  unfold spansAt
  rw [List.filter_append, List.map_append]

/-- Deeper calls are no calls at the depth. -/
theorem spansAt_eq_nil {depth : Nat} {calls : List Call}
    (h : ∀ c ∈ calls, depth < c.depth) : spansAt depth calls = [] := by
  unfold spansAt
  rw [List.filter_eq_nil_iff.mpr fun c hc => by simpa using (h c hc).ne']
  rfl

/-- What is left of a call, and of deeper ones that are made in it, is in
progress until that has ended. -/
theorem spansAt_upTo_inside {α : Type} {r : Run α} {self : Call}
    (h : ∀ d ∈ r.calls, self.depth < d.depth) (c : Cut) :
    List.SublistForall₂ Group.Span.Within
      (spansAt self.depth ((r.inside self).upTo c).calls)
      [⟨self.started, ((r.inside self).upTo c).finish⟩] := by
  have hnil : spansAt self.depth (r.upTo c).calls = [] := by
    refine spansAt_eq_nil fun d hd => ?_
    obtain ⟨d', hd', hcut⟩ := exists_of_mem_upTo hd
    exact hcut.depth_eq ▸ h d' hd'
  rw [upTo_inside]
  unfold spansAt at hnil ⊢
  split
  · next hc =>
    rw [List.filter_cons_of_pos (by simp [Call.cutAt]), List.map_cons, hnil]
    exact .cons ⟨rfl, moment_le_upTo hc⟩ .nil
  · next hc =>
    rw [List.filter_cons_of_pos (by simp), List.map_cons, hnil,
      upTo_of_not_precedes hc]
    exact .cons ⟨rfl, r.finish.le_refl⟩ .nil

/-- What waits until a moment is not in progress before. -/
theorem spansAt_upTo_behind {α : Type} {depth : Nat} {r : Run α} {c : Cut}
    {started start : Moment}
    (h : List.SublistForall₂ Group.Span.Within (spansAt depth (r.upTo c).calls)
      [⟨started, (r.upTo c).finish⟩]) (hle : start ≤ r.finish) :
    List.SublistForall₂ Group.Span.Within
      (spansAt depth ((r.behind start).upTo c).calls)
      [⟨started, ((r.behind start).upTo c).finish⟩] := by
  by_cases hc : c.Precedes start
  · rw [upTo_behind_of_precedes hc hle]
    exact .nil
  · rwa [upTo_behind_of_not_precedes hc]

/-- Cuts are cuts of the calls at a depth. -/
theorem Left.spansAt {kept calls : List Call} (h : Left kept calls)
    (depth : Nat) : List.SublistForall₂ Group.Span.Within
      (Run.spansAt depth kept) (Run.spansAt depth calls) := by
  unfold Run.spansAt
  induction h with
  | nil => exact .nil
  | @cons d c _ _ hdc _ ih =>
    obtain ⟨-, hdepth, hstarted, hleft⟩ := hdc
    rw [List.filter_cons, List.filter_cons, hdepth]
    split
    · exact .cons ⟨hstarted, hleft⟩ ih
    · exact ih
  | @cons_right c _ _ _ ih =>
    rw [List.filter_cons]
    split
    · exact .cons_right ih
    · exact ih

end Run

namespace Group

variable {α : Type} {depth : Nat} {runs : List (Run α)}

theorem sublistForall₂_append {ι κ : Type} {R : ι → κ → Prop}
    {xs xs' : List ι} {ys ys' : List κ} (h : List.SublistForall₂ R xs ys)
    (h' : List.SublistForall₂ R xs' ys') :
    List.SublistForall₂ R (xs ++ xs') (ys ++ ys') := by
  induction h with
  | @nil l =>
    induction l with
    | nil => exact h'
    | cons y l ih => exact .cons_right ih
  | cons hxy _ ih => exact .cons hxy ih
  | cons_right _ ih => exact .cons_right ih

/-- The calls at the depth of a group stand in the spans of its members, if
each member's do. -/
theorem spansAt_members {ι : Type} {limit : Nat} {first : Moment}
    {member : ι → Member α}
    (hm : ∀ x start known, List.SublistForall₂ Span.Within
      (Run.spansAt depth (member x start known).calls)
      [⟨start, (member x start known).finish⟩])
    (known : Option Moment) (ends : List Moment) (xs : List ι) :
    List.SublistForall₂ Span.Within
      (Run.spansAt depth
        ((members limit first known ends (xs.map member)).flatMap Run.calls))
      (schedule limit first member known ends xs) := by
  induction xs generalizing known ends with
  | nil => exact .nil
  | cons x xs ih =>
    rw [List.map_cons, members, List.flatMap_cons, Run.spansAt_append]
    exact sublistForall₂_append (hm x _ _) (ih _ _)

end Group

namespace Session

variable {s : Session} {depth high : Nat} {expander : Invocation → Expander}
  {known : Option Moment}

/-- A handler is in progress from when its turn comes: what it has expanded lies
deeper. -/
theorem spansAt_upTo_enter (h : Handler) (inv : Invocation) {e : Expander}
    (ho : e.Orderly s) (he : e.Inside (depth + 1) high)
    (cleared started entered : Moment) (c : Cut) :
    List.SublistForall₂ Group.Span.Within
      (Run.spansAt depth
        ((s.enter h inv depth e cleared started entered known).upTo c).calls)
      [⟨started,
        ((s.enter h inv depth e cleared started entered known).upTo
          c).finish⟩] := by
  have hrun := Program.inside_run
    (h.program ⟨inv, depth, s.settings, s.metadata⟩) ho he s.cancellable
    entered known
  let r := (h.program ⟨inv, depth, s.settings, s.metadata⟩).run s.cancellable e
    entered known
  let self : Call :=
    ⟨inv, depth, cleared, started, entered, Moment.reached known entered,
      r.finish, endingOf h.concurrent r.outcome⟩
  have hself : ∀ d ∈ r.calls, self.depth < d.depth := fun d hd =>
    (hrun d hd).2.1
  exact Run.spansAt_upTo_inside (r := r.withOutcome _) hself c

/-- **A handler is in progress** from when its turn comes until its run
finishes. -/
theorem spansAt_invoke {inv : Invocation} {e : Expander} (ho : e.Orderly s)
    (he : e.Inside (depth + 1) high) (cleared now : Moment) :
    List.SublistForall₂ Group.Span.Within
      (Run.spansAt depth (s.invoke inv depth e cleared now known).calls)
      [⟨now, (s.invoke inv depth e cleared now known).finish⟩] := by
  unfold invoke
  split
  · exact .nil
  · next h hr =>
    have henter (entered : Moment) :=
      @spansAt_upTo_enter s depth high known h inv e ho he cleared now entered
    cases hlimit : s.limit? h with
    | none =>
      rw [call_of_none hlimit]
      have hspans := henter now
        ⟨(s.enter h inv depth e cleared now now known).finish, false⟩
      rwa [Run.upTo_finish] at hspans
    | some time =>
      rw [call_of_some hlimit]
      obtain ⟨c, m, hwhole, hle⟩ := Run.exists_whole_waitedFor
        (r := s.enter h inv depth e cleared now now.next known)
        (orderly_program hr _ ho now.next known).le time
        (.failed (report inv (.fault .timeout [])))
      have hcalls := congrArg Course.calls hwhole
      have hfinish := congrArg Course.finish hwhole
      have hspans := Run.spansAt_upTo_behind (henter now.next c)
        (orderly_program hr _ ho now.next known).le
      change (Run.waitedFor _ _ _ _).calls = _ at hcalls
      change (Run.waitedFor _ _ _ _).finish = _ at hfinish
      rw [hcalls, hfinish]
      exact IsTrans.trans _ _ _ hspans (.cons ⟨rfl, hle⟩ .nil)

theorem spansAt_member (ho : ∀ inv, (expander inv).Orderly s)
    (he : ∀ inv, (expander inv).Inside (depth + 1) high)
    (called : Moment) (inv : Invocation) (start : Moment)
    (known : Option Moment) :
    List.SublistForall₂ Group.Span.Within
      (Run.spansAt depth
        (s.member depth expander called inv start known).calls)
      [⟨start, (s.member depth expander called inv start known).finish⟩] := by
  unfold member
  split
  · exact spansAt_invoke (ho inv) (he inv) called start
  · split
    · exact .nil
    · exact spansAt_invoke (ho inv) (he inv) start start

end Session

namespace Request

variable {q : Request} {s : Session} {segments : List Segment}

/-- The spans of the invocations in the text: when each of them starts, and
when it ends. -/
def schedule (q : Request) (s : Session) (segments : List Segment) :
    List Group.Span :=
  Group.schedule s.settings.maxConcurrency q.now.next
    (s.member q.depth (fun inv => Session.escaping (q.expander s inv)) q.now)
    q.cancels [] (Segment.invocations segments)

theorem inside_expander (q : Request) (s : Session) (inv : Invocation) :
    (q.expander s inv).Inside (q.depth + 1)
      (q.depth + 1 + (q.levels - 1)) :=
  fun text now cancels => Session.inside_expandFrom _ _ _ _ text now cancels

theorem inside_escaping (q : Request) (s : Session) (inv : Invocation) :
    (Session.escaping (q.expander s inv)).Inside (q.depth + 1)
      (q.depth + 1 + (q.levels - 1)) :=
  fun text now cancels => q.inside_expander s inv text now cancels

/-- The handlers of a text are in progress as their invocations are. -/
theorem spansAt_group (q : Request) (s : Session)
    (segments : List Segment) :
    List.SublistForall₂ Group.Span.Within
      (Run.spansAt q.depth (q.group s segments).calls)
      (q.schedule s segments) := by
  unfold group Session.invokeAll
  split
  · exact .nil
  · split
    · exact .nil
    · refine IsTrans.trans _ _ _
        ((Run.left_of_kept (Group.Gathering.kept_run _)).spansAt q.depth) ?_
      exact Group.spansAt_members
        (Session.spansAt_member (q.orderly_escaping s) (q.inside_escaping s)
          q.now)
        q.cancels [] (Segment.invocations segments)

/-- The handlers that are called at the depth of a text are those of its
invocations. -/
theorem Reads.spansAt_run (h : q.Reads s segments) :
    Run.spansAt q.depth (q.run s).calls
      = Run.spansAt q.depth (q.group s segments).calls := by
  have hnil : ∀ ps m known, Run.spansAt q.depth
      (Session.splice (q.expander s) ps m known).calls = [] :=
    fun ps m known => Run.spansAt_eq_nil fun c hc =>
      (Session.inside_splice (q.orderly_expander s) (q.inside_expander s) ps m
        known c hc).2.1
  rw [h.run_eq]
  show Run.spansAt q.depth ((q.group s segments).andThen q.cancels _).calls = _
  unfold Run.andThen
  split
  · show Run.spansAt q.depth ((q.group s segments).calls
      ++ (Session.splice (q.expander s) _ _ _).calls) = _
    rw [Run.spansAt_append, hnil, List.append_nil]
  · rfl
  · rfl

/-- **The handlers of a text keep to the limit**, also where their run is
cut. -/
theorem limited_run (q : Request) (s : Session) {kept : List Call}
    (h : Run.Left kept (q.run s).calls) :
    Group.Limited s.settings.maxConcurrency (Run.spansAt q.depth kept) := by
  rcases q.calls_run_eq_nil_or s with hnil | ⟨segments, hq⟩
  · rw [hnil] at h
    cases h
    exact ⟨.nil, fun _ _ => Nat.zero_le _, by simp [Run.spansAt]⟩
  · have hspans := h.spansAt q.depth
    rw [hq.spansAt_run] at hspans
    exact (Group.scheduled_schedule _ _ _ _ _).toLimited.of_within
      (IsTrans.trans _ _ _ hspans (q.spansAt_group s segments))

end Request
namespace Session

/-- **The handlers of a document keep to the limit**. -/
theorem limited_expand (s : Session) (text : Text) (now : Moment)
    (cancels : Option Moment) {kept : List Call}
    (h : Run.Left kept (s.expand text now cancels).calls) :
    Group.Limited s.settings.maxConcurrency (Run.spansAt 0 kept) := by
  unfold expand at h
  split at h
  · cases h
    exact ⟨.nil, fun _ _ => Nat.zero_le _, by simp [Run.spansAt]⟩
  · exact (Request.whole s text now cancels).limited_run s h

end Session

/-! ## Documents -/

/-- **A run takes place in a span**: whatever happens in it does. -/
structure Run.InSpan {α : Type} (r : Run α) (x : Group.Span) : Prop where
  finish : r.finish = x.finish
  calls : ∀ c ∈ r.calls, x.start ≤ c.entered ∧ c.left ≤ x.finish

namespace Pipeline

variable {p : Pipeline} {first : Moment} {cancels : Option Moment}
  {docs : List Document}

/-- When the documents of a build know that it is cancelled: when that is
asked for from outside, or soon after a handler asks for it. -/
def known (p : Pipeline) (first : Moment) (cancels : Option Moment)
    (docs : List Document) : Option Moment :=
  match Group.cancellation? none (p.documentRuns first cancels docs) with
  | none => cancels
  | some m => Moment.earliest? cancels (some m.next)

/-- The spans of the documents of a build. -/
def schedule (p : Pipeline) (first : Moment) (cancels : Option Moment)
    (docs : List Document) : List Group.Span :=
  Group.schedule p.settings.maxParallelDocuments first p.member
    (p.known first cancels docs) [] docs

theorem settledRuns_eq_documentRuns (p : Pipeline) (first : Moment)
    (cancels : Option Moment) (docs : List Document) :
    p.settledRuns first cancels docs
      = p.documentRuns first (p.known first cancels docs) docs := by
  unfold settledRuns known
  dsimp only
  cases Group.cancellation? none (p.documentRuns first cancels docs) <;> rfl

/-- **The documents of a build take place in their spans.** -/
theorem inSpan_settledRuns (p : Pipeline) (first : Moment)
    (cancels : Option Moment) (docs : List Document) :
    List.Forall₂ Run.InSpan (p.settledRuns first cancels docs)
      (p.schedule first cancels docs) := by
  rw [settledRuns_eq_documentRuns]
  unfold documentRuns schedule Group.schedule
  rw [Group.members_eq, List.forall₂_map_left_iff, List.forall₂_map_right_iff,
    List.forall₂_same]
  rintro ⟨d, start, known⟩ -
  let s : Session := ⟨p.engine, p.registry, d.metadata, true⟩
  have horderly := s.orderly_expand d.content start known
  exact ⟨rfl, fun c hc => ⟨horderly.entered c hc,
    (horderly.calls c hc).left_le⟩⟩

/-- What is left of the documents of a build that stops. -/
theorem kept_stoppedRun (runs : List (Run Text)) (look : Moment)
    (f : Failure) :
    Call.Kept (stoppedRun runs look f).calls (runs.flatMap Run.calls) := by
  have h : Call.Kept (Group.gathered (noticed look).moment false (some look)
      (runs.map (Run.upTo (noticed look)))).calls (runs.flatMap Run.calls) :=
    Group.kept_gathered _ _ _ fun r _ => (r.within_upTo _).calls
  exact h

/-- A build keeps of the calls of its documents what a cut leaves. -/
theorem kept_build (p : Pipeline) (docs : List Document) (now : Moment)
    (cancels : Option Moment) :
    Call.Kept (p.build docs now cancels).calls
      ((p.settledRuns now.next cancels docs).flatMap Run.calls) := by
  unfold build
  dsimp only
  split
  · exact kept_stoppedRun _ _ _
  · exact .refl _

end Pipeline

/-- **Slots.** The invocations of a text, whatever they do and whatever has
the text expanded, start in order as slots become free: at most as many as
the limit are in progress at any moment, none waits as long as fewer are, and
without a limit all start at once, in the step behind the one in which the
group is called. That holds of a text that an invocation asks for as well,
from the moment at which it asks: the slots of the group that the invocation
belongs to have no part in it. The handlers that are called take place in
the spans of their invocations, and so does what is left of them where an
enclosing run is cut. The documents of a build take slots in the same
way. -/
theorem scheduled_and_limited :
    (∀ (s : Session) (q : Request),
      (∀ segments, Group.Scheduled s.settings.maxConcurrency q.now.next
          (q.schedule s segments))
        ∧ (∀ inv text asked heard segments,
          Group.Scheduled s.settings.maxConcurrency asked.next
            ((q.nested inv text asked heard).schedule s segments))
        ∧ ∀ kept, Run.Left kept (q.run s).calls →
          Group.Limited s.settings.maxConcurrency (Run.spansAt q.depth kept)
            ∧ ∀ segments, q.Reads s segments →
              List.SublistForall₂ Group.Span.Within
                (Run.spansAt q.depth kept) (q.schedule s segments))
      ∧ (∀ (s : Session) text now cancels kept,
        Run.Left kept (s.expand text now cancels).calls →
          Group.Limited s.settings.maxConcurrency (Run.spansAt 0 kept))
      ∧ ∀ (p : Pipeline) docs now cancels,
        Group.Scheduled p.settings.maxParallelDocuments now.next
            (p.schedule now.next cancels docs)
          ∧ List.Forall₂ Run.InSpan (p.settledRuns now.next cancels docs)
            (p.schedule now.next cancels docs)
          ∧ Run.Left (p.build docs now cancels).calls
            ((p.settledRuns now.next cancels docs).flatMap Run.calls) := by
  refine ⟨fun s q => ⟨fun segments => Group.scheduled_schedule _ _ _ _ _,
      fun inv text asked heard segments => Group.scheduled_schedule _ _ _ _ _,
      fun kept h => ⟨q.limited_run s h, fun segments hq => ?_⟩⟩,
    fun s text now cancels kept h => s.limited_expand text now cancels h,
    fun p docs now cancels => ⟨Group.scheduled_schedule _ _ _ _ _,
      p.inSpan_settledRuns _ _ _, Run.left_of_kept (p.kept_build _ _ _)⟩⟩
  have hspans := h.spansAt q.depth
  rw [hq.spansAt_run] at hspans
  exact IsTrans.trans _ _ _ hspans (q.spansAt_group s segments)

/-- A pipeline in which two handlers of a text run side by side, and one
document at a time. -/
def crowded : Pipeline where
  engine := { maxConcurrency := 2 }
  registry :=
    { bindings :=
        [("nap".toList,
          { shown := "nap".toList
            concurrent := true
            program _ := .sleep 3 (.finish (.text ['x'])) })] }
  settings := { maxParallelDocuments := 1 }

/-- Three naps of which the last one waits for the first, and documents of
which the second waits for the first. -/
theorem scheduled_and_limited_crowded :
    let s : Session := ⟨crowded.engine, crowded.registry, [], true⟩
    let q := Request.whole s "<%nap/%><%nap/%><%nap/%>".toList ⟨0, 0⟩ none
    let nap (n : Nat) : Segment :=
      .invocation ⟨"nap".toList, [], none, n, n + 8, 0⟩
    let segments := [nap 0, nap 8, nap 16]
    let docs : List Document :=
      [⟨['a'], "<%nap/%>".toList, []⟩, ⟨['b'], "<%nap/%>".toList, []⟩]
    let documents := crowded.schedule ⟨0, 1⟩ none docs
    q.Reads s segments
      ∧ q.schedule s segments
        = [⟨⟨0, 1⟩, ⟨3, 0⟩⟩, ⟨⟨0, 1⟩, ⟨3, 0⟩⟩, ⟨⟨3, 1⟩, ⟨6, 0⟩⟩]
      ∧ 2 ≤ (q.schedule s segments).countP
        (fun y => y.start ≤ ⟨2, 0⟩ && ⟨2, 0⟩ ≤ y.finish)
      ∧ (∀ m, (Run.spansAt 0 (q.run s).calls).countP
          (Group.Span.inProgress m) ≤ 2)
      ∧ documents.map Group.Span.start = [⟨0, 1⟩, ⟨3, 6⟩]
      ∧ ∀ m, documents.countP (Group.Span.inProgress m) ≤ 1 := by
  intro s q nap segments docs documents
  have hq : q.Reads s segments :=
    ⟨by decide, by decide, _, rfl, by decide +kernel,
      Segment.parse_eq_ok_of_toOption (by decide +kernel)⟩
  have hspans : q.schedule s segments
      = [⟨⟨0, 1⟩, ⟨3, 0⟩⟩, ⟨⟨0, 1⟩, ⟨3, 0⟩⟩, ⟨⟨3, 1⟩, ⟨6, 0⟩⟩] := by
    cbv
  have hdocuments : documents.map Group.Span.start = [⟨0, 1⟩, ⟨3, 6⟩] := by
    show (crowded.schedule ⟨0, 1⟩ none
      [⟨['a'], "<%nap/%>".toList, []⟩, ⟨['b'], "<%nap/%>".toList, []⟩]).map
        Group.Span.start = _
    cbv
  have hlast : ⟨⟨3, 1⟩, ⟨6, 0⟩⟩ ∈ q.schedule s segments := by
    rw [hspans]
    simp
  obtain ⟨hgroups, -, hbuilds⟩ := scheduled_and_limited
  obtain ⟨hscheduled, -, hkept⟩ := hgroups s q
  exact ⟨hq, hspans, (hscheduled segments).waits (by decide) _ hlast ⟨2, 0⟩
      (by decide) (by decide),
    (hkept _ (Run.left_refl _)).1.atMost (by decide), hdocuments,
    (hbuilds crowded docs ⟨0, 0⟩ none).1.atMost (by decide)⟩

end Shortcode
