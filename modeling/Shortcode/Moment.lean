/-!
# Moments

Handlers take time only when they sleep, so a great deal happens at one
instant, and its order matters: a group starts its members after it was
called, and goes on after they have ended. A moment is an instant
together with a step within it. Moments are ordered by their instants,
and within an instant by their steps; `next` is the step that follows,
`later` starts a new instant.
-/

namespace Shortcode

/-- An instant, and a step within it. -/
@[ext]
structure Moment where
  instant : Nat
  step : Nat := 0
deriving DecidableEq, Repr, Inhabited

namespace Moment

instance : LE Moment where
  le a b := a.instant < b.instant ∨ a.instant = b.instant ∧ a.step ≤ b.step

instance : LT Moment where
  lt a b := a.instant < b.instant ∨ a.instant = b.instant ∧ a.step < b.step

theorem le_def {a b : Moment} :
    a ≤ b ↔ a.instant < b.instant ∨ a.instant = b.instant ∧ a.step ≤ b.step :=
  Iff.rfl

theorem lt_def {a b : Moment} :
    a < b ↔ a.instant < b.instant ∨ a.instant = b.instant ∧ a.step < b.step :=
  Iff.rfl

instance (a b : Moment) : Decidable (a ≤ b) :=
  decidable_of_iff _ le_def.symm

instance (a b : Moment) : Decidable (a < b) :=
  decidable_of_iff _ lt_def.symm

/-- Some steps on, at the same instant. -/
def skip (m : Moment) (steps : Nat) : Moment :=
  { m with step := m.step + steps }

/-- The step that follows, at the same instant. -/
def next (m : Moment) : Moment :=
  m.skip 1

/-- The moment some time later; no time is the step that follows. -/
def later (m : Moment) (time : Nat) : Moment :=
  if time = 0 then m.next else ⟨m.instant + time, 0⟩

/-- The earlier of two moments. -/
def earlier (a b : Moment) : Moment :=
  if a ≤ b then a else b

/-- The later of two moments. -/
def latter (a b : Moment) : Moment :=
  if a ≤ b then b else a

/-- The earlier of two moments that may not come. -/
def earliest? : Option Moment → Option Moment → Option Moment
  | none, m | m, none => m
  | some a, some b => some (a.earlier b)

/-- A moment that may not come has come. -/
def reached (m : Option Moment) (now : Moment) : Bool :=
  m.any fun m => m ≤ now

theorem le_refl (a : Moment) : a ≤ a := by
  simp [le_def]

theorem le_trans {a b c : Moment} (h : a ≤ b) (h' : b ≤ c) : a ≤ c := by
  simp only [le_def] at *
  omega

theorem le_total (a b : Moment) : a ≤ b ∨ b ≤ a := by
  simp only [le_def]
  omega

theorem not_le {a b : Moment} : ¬a ≤ b ↔ b < a := by
  simp only [le_def, lt_def]
  omega

theorem le_skip (a : Moment) (steps : Nat) : a ≤ a.skip steps := by
  simp [le_def, skip]

theorem le_next (a : Moment) : a ≤ a.next :=
  a.le_skip 1

theorem instant_later (a : Moment) (time : Nat) :
    (a.later time).instant = a.instant + time := by
  unfold later
  split
  · next h => rw [h]; rfl
  · rfl

theorem le_later (a : Moment) (time : Nat) : a ≤ a.later time := by
  unfold later
  split
  · exact a.le_next
  · simp only [le_def]
    omega

theorem le_latter_left (a b : Moment) : a ≤ a.latter b := by
  unfold latter
  split
  · assumption
  · exact a.le_refl

theorem le_latter_right (a b : Moment) : b ≤ a.latter b := by
  unfold latter
  split
  · exact b.le_refl
  · next h => exact (le_total a b).resolve_left h

theorem earlier_eq_or (a b : Moment) :
    a.earlier b = a ∨ a.earlier b = b := by
  unfold earlier
  split
  · exact .inl rfl
  · exact .inr rfl

theorem earlier_le_left (a b : Moment) : a.earlier b ≤ a := by
  unfold earlier
  split
  · exact a.le_refl
  · next h => exact (le_total a b).resolve_left h

theorem earlier_le_right (a b : Moment) : a.earlier b ≤ b := by
  unfold earlier
  split
  · assumption
  · exact b.le_refl

theorem le_earlier {a b c : Moment} (hb : a ≤ b) (hc : a ≤ c) :
    a ≤ b.earlier c := by
  rcases earlier_eq_or b c with h | h
  · rwa [h]
  · rwa [h]

theorem instant_le {a b : Moment} (h : a ≤ b) : a.instant ≤ b.instant := by
  simp only [le_def] at h
  omega

theorem le_of_lt {a b : Moment} (h : a < b) : a ≤ b := by
  simp only [le_def, lt_def] at *
  omega

theorem lt_of_le_of_lt {a b c : Moment} (h : a ≤ b) (h' : b < c) : a < c := by
  simp only [le_def, lt_def] at *
  omega

theorem lt_or_eq_of_le {a b : Moment} (h : a ≤ b) : a < b ∨ a = b := by
  simp only [le_def, lt_def, Moment.ext_iff] at *
  omega

theorem lt_irrefl (a : Moment) : ¬a < a := by
  simp only [lt_def]
  omega

theorem next_le_iff {a b : Moment} : a.next ≤ b ↔ a < b := by
  simp only [le_def, lt_def, next, skip]
  omega

theorem next_mono {a b : Moment} (h : a ≤ b) : a.next ≤ b.next := by
  simp only [le_def, next, skip] at *
  omega

theorem next_lt_next {a b : Moment} (h : a < b) : a.next < b.next := by
  simp only [lt_def, next, skip] at *
  omega

theorem lt_next_iff {a b : Moment} : a < b.next ↔ a ≤ b := by
  simp only [le_def, lt_def, next, skip]
  omega

theorem not_lt {a b : Moment} : ¬a < b ↔ b ≤ a := by
  simp only [le_def, lt_def]
  omega

theorem le_antisymm {a b : Moment} (h : a ≤ b) (h' : b ≤ a) : a = b := by
  simp only [le_def, Moment.ext_iff] at *
  omega

theorem lt_of_lt_of_le {a b c : Moment} (h : a < b) (h' : b ≤ c) : a < c := by
  simp only [le_def, lt_def] at *
  omega

theorem lt_skip (a : Moment) {steps : Nat} (h : 0 < steps) :
    a < a.skip steps :=
  .inr ⟨rfl, Nat.lt_add_of_pos_right h⟩

theorem next_inj {a b : Moment} : a.next = b.next ↔ a = b := by
  simp only [next, skip, Moment.ext_iff]
  omega

theorem earliest?_assoc (a b c : Option Moment) :
    earliest? (earliest? a b) c = earliest? a (earliest? b c) := by
  cases a with
  | none => cases b <;> cases c <;> rfl
  | some a =>
    cases b with
    | none => cases c <;> rfl
    | some b =>
      cases c with
      | none => rfl
      | some c =>
        simp only [earliest?, earlier, le_def]
        grind

/-- No later than a moment that may not come. -/
def NotAfter (a : Moment) (m : Option Moment) : Prop :=
  ∀ b, m = some b → a ≤ b

@[simp] theorem notAfter_none (a : Moment) : a.NotAfter none := by
  simp [NotAfter]

@[simp] theorem notAfter_some {a b : Moment} : a.NotAfter (some b) ↔ a ≤ b := by
  simp [NotAfter]

/-- What is no later than the earliest of two is no later than each. -/
@[simp] theorem notAfter_earliest? {a : Moment} {m n : Option Moment} :
    a.NotAfter (earliest? m n) ↔ a.NotAfter m ∧ a.NotAfter n := by
  cases m with
  | none => simp [earliest?]
  | some b =>
    cases n with
    | none => simp [earliest?]
    | some c =>
      simp only [earliest?, earlier, notAfter_some, le_def]
      split <;> omega

theorem NotAfter.mono {a b : Moment} {m : Option Moment} (h : b.NotAfter m)
    (hab : a ≤ b) : a.NotAfter m :=
  fun c hc => le_trans hab (h c hc)

/-- What has not come is later. -/
theorem reached_eq_false_iff {m : Option Moment} {now : Moment} :
    reached m now = false ↔ now.next.NotAfter m := by
  cases m with
  | none => simp [reached]
  | some b =>
    simp only [reached, Option.any_some, decide_eq_false_iff_not, not_le,
      notAfter_some, next_le_iff]

end Moment

end Shortcode
