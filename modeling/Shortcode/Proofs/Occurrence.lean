import Mathlib
import Shortcode.Name
import Shortcode.Text.Blank

/-!
# Where texts are cut

The scanners cut texts: at the first occurrence of a mark, behind a name
or a key, and where white space begins or ends. This module says of each
of these cuts, without following the scanner, where it is:

* `Text.cut?_eq_some_iff`: a mark is found at its first occurrence;
* `splitWord_append_eq` and `splitWord_spec`: a word is split off where
  it cannot go on;
* `Text.trimLeft_append` and `Text.trimRight_append`, with
  `Text.trimLeft_spec` and `Text.trimRight_spec`: what is trimmed is the
  white space at an end of a text, all of it.
-/

namespace Shortcode

namespace Text

/-! ## First occurrences -/

/-- **The first occurrence of a mark** in `before ++ mark ++ behind` is
the one behind `before`: none stands further to the left. -/
def IsFirst (mark before behind : Text) : Prop :=
  ∀ u v, before ++ mark ++ behind = u ++ mark ++ v →
    before.length ≤ u.length

/-- No occurrence of a mark stands to the left of where it is cut at. -/
theorem length_before_le {mark text before behind : Text}
    (h : cut? mark text = some (before, behind)) {u v : Text}
    (hu : text = u ++ mark ++ v) : before.length ≤ u.length := by
  induction text generalizing before u with
  | nil =>
    simp only [cut?] at h
    split at h
    · obtain ⟨rfl, rfl⟩ := by simpa using h
      exact Nat.zero_le _
    · simp at h
  | cons c rest ih =>
    simp only [cut?] at h
    split at h
    · obtain ⟨rfl, rfl⟩ := by simpa using h
      exact Nat.zero_le _
    · next hp =>
      obtain ⟨⟨b, r⟩, hb, he⟩ := Option.map_eq_some_iff.mp h
      obtain ⟨rfl, rfl⟩ := by simpa using he
      cases u with
      | nil =>
        refine absurd (List.isPrefixOf_iff_prefix.mpr ?_) hp
        rw [hu]
        exact ⟨v, by simp⟩
      | cons a u =>
        simp only [List.cons_append, List.cons.injEq] at hu
        exact Nat.succ_le_succ (ih hb hu.2)

/-- Two cuts of a text behind equally long parts are the same cut. -/
theorem eq_of_length_eq {mark b r b' r' : Text}
    (h : b ++ mark ++ r = b' ++ mark ++ r') (hl : b.length = b'.length) :
    b = b' ∧ r = r' := by
  rw [List.append_assoc, List.append_assoc] at h
  obtain ⟨hb, hr⟩ := List.append_inj h hl
  exact ⟨hb, List.append_cancel_left hr⟩

/-- **A text is cut at the first occurrence of the mark.** -/
theorem cut?_eq_some_iff {mark text before behind : Text} :
    cut? mark text = some (before, behind)
      ↔ text = before ++ mark ++ behind ∧ IsFirst mark before behind := by
  constructor
  · intro h
    refine ⟨cut?_eq h, fun u v hu => ?_⟩
    exact length_before_le h ((cut?_eq h).trans hu)
  · rintro ⟨rfl, hf⟩
    cases hc : cut? mark (before ++ mark ++ behind) with
    | none => exact absurd rfl (cut?_none hc before behind)
    | some p =>
      obtain ⟨b, r⟩ := p
      have hle : b.length ≤ before.length := length_before_le hc rfl
      have hge : before.length ≤ b.length := hf b r (cut?_eq hc)
      obtain ⟨rfl, rfl⟩ := eq_of_length_eq (cut?_eq hc) (by omega)
      rfl

/-- A text is not cut exactly when the mark is nowhere in it. -/
theorem cut?_eq_none_iff {mark text : Text} :
    cut? mark text = none ↔ ∀ u v, text ≠ u ++ mark ++ v := by
  constructor
  · exact cut?_none
  · intro h
    cases hc : cut? mark text with
    | none => rfl
    | some p => exact absurd (cut?_eq hc) (h p.1 p.2)

/-- Whether the mark occurs is seen by cutting. -/
theorem has_eq_false_iff {mark text : Text} :
    has mark text = false ↔ cut? mark text = none :=
  Option.isSome_eq_false_iff.trans Option.isNone_iff_eq_none

/-- A mark occurs where it stands. -/
theorem has_append (mark u v : Text) : has mark (u ++ mark ++ v) = true := by
  rw [← Bool.not_eq_false]
  intro h
  exact cut?_none (has_eq_false_iff.mp h) u v rfl

/-- A text is cut at its front if the mark stands there. -/
theorem cut?_front (mark text : Text) :
    cut? mark (mark ++ text) = some ([], text) :=
  cut?_eq_some_iff.mpr ⟨rfl, fun _ _ _ => Nat.zero_le _⟩

/-- In an empty text nothing occurs. -/
theorem has_nil {mark : Text} (h : mark ≠ []) : has mark [] = false := by
  rw [has, cut?, if_neg (by simpa using h)]
  rfl

/-- More text behind it does not change a first occurrence. -/
theorem IsFirst.append {mark before behind : Text}
    (h : IsFirst mark before behind) (more : Text) :
    IsFirst mark before (behind ++ more) := by
  intro u v he
  rw [← List.append_assoc] at he
  rcases List.append_eq_append_iff.mp he with ⟨w, hu, _⟩ | ⟨w, hb, _⟩
  · have := congrArg List.length hu
    simp only [List.length_append] at this
    omega
  · exact h u w hb

/-- A text that a mark first occurs behind does not hold it. -/
theorem IsFirst.ne {mark t : Text} (hm : mark ≠ [])
    (h : IsFirst mark t []) (u v : Text) : t ≠ u ++ mark ++ v := by
  intro he
  have hl := h u (v ++ mark) (by rw [List.append_nil, he]; simp)
  have := congrArg List.length he
  have := List.length_pos_iff.mpr hm
  simp only [List.length_append] at *
  omega

/-- The first occurrence of a character that stands behind a text
without it. -/
theorem cut?_singleton {c : Char} {before behind : Text}
    (h : c ∉ before) :
    cut? [c] (before ++ c :: behind) = some (before, behind) := by
  induction before with
  | nil => simp [cut?]
  | cons x before ih =>
    simp only [List.mem_cons, not_or] at h
    rw [List.cons_append, cut?, if_neg (by simp [h.1]), ih h.2]
    rfl

/-! ## White space at the ends -/

/-- A text of white space only. -/
def IsBlank (t : Text) : Prop :=
  ∀ c ∈ t, isBlank c = true

-- characters are finite in number, but not to be gone through one by one
instance (t : Text) : Decidable (IsBlank t) :=
  List.decidableBAll _ t

theorem isBlank_nil : IsBlank [] := by decide

/-- White space in front of a text that starts with none is trimmed. -/
theorem trimLeft_append {lead t : Text} (hl : IsBlank lead)
    (ht : ∀ c ∈ t.head?, isBlank c = false) :
    trimLeft (lead ++ t) = t := by
  unfold trimLeft
  rw [List.dropWhile_append_of_pos hl]
  cases t with
  | nil => rfl
  | cons c t => rw [List.dropWhile_cons_of_neg (by simp [ht c rfl])]

/-- What is trimmed at the front of a text is white space, and what is
left starts with none. -/
theorem trimLeft_spec (t : Text) :
    ∃ lead, IsBlank lead ∧ t = lead ++ trimLeft t
      ∧ ∀ c ∈ (trimLeft t).head?, isBlank c = false := by
  refine ⟨t.takeWhile isBlank, ?_, List.takeWhile_append_dropWhile.symm, ?_⟩
  · intro c hc
    exact List.mem_takeWhile_imp hc
  · intro c hc
    have h := List.head?_dropWhile_not isBlank t
    rw [show (t.dropWhile isBlank).head? = some c from hc] at h
    exact h

/-- White space behind a text that ends with none is trimmed. -/
theorem trimRight_append {t trail : Text} (hl : IsBlank trail)
    (ht : ∀ c ∈ t.getLast?, isBlank c = false) :
    trimRight (t ++ trail) = t := by
  have h : trimLeft (trail.reverse ++ t.reverse) = t.reverse :=
    trimLeft_append (fun c hc => hl c (List.mem_reverse.mp hc))
      (fun c hc => ht c (by simpa using hc))
  unfold trimRight
  unfold trimLeft at h
  rw [List.reverse_append, h, List.reverse_reverse]

/-- What is trimmed at the end of a text is white space, and what is
left ends with none. -/
theorem trimRight_spec (t : Text) :
    ∃ trail, IsBlank trail ∧ t = trimRight t ++ trail
      ∧ ∀ c ∈ (trimRight t).getLast?, isBlank c = false := by
  obtain ⟨lead, hl, ht, hc⟩ := trimLeft_spec t.reverse
  refine ⟨lead.reverse, fun c h => hl c (List.mem_reverse.mp h), ?_, ?_⟩
  · have h := congrArg List.reverse ht
    rw [List.reverse_reverse, List.reverse_append] at h
    exact h
  · intro c h
    refine hc c ?_
    unfold trimRight at h
    unfold trimLeft
    simpa using h

end Text

/-! ## Words -/

/-- **A word**: a first character that names start with, and behind it
characters of a class. -/
def IsWord (goesOn : Char → Bool) (t : Text) : Prop :=
  ∃ c rest, t = c :: rest ∧ isNameStart c = true
    ∧ ∀ x ∈ rest, goesOn x = true

instance (goesOn : Char → Bool) : (t : Text) → Decidable (IsWord goesOn t)
  | [] => isFalse fun ⟨_, _, h, _⟩ => by simp at h
  | c :: rest =>
    have := List.decidableBAll (fun x => goesOn x = true) rest
    decidable_of_iff
      (isNameStart c = true ∧ ∀ x ∈ rest, goesOn x = true)
      ⟨fun h => ⟨c, rest, rfl, h⟩, fun ⟨_, _, he, h⟩ => by
        obtain ⟨rfl, rfl⟩ := List.cons.inj he
        exact h⟩

/-- A name: a word of letters, digits, underscores and hyphens. -/
abbrev IsName (t : Text) : Prop := IsWord isNameRest t

/-- A key: a word that may also hold points and colons. -/
abbrev IsKey (t : Text) : Prop := IsWord isKeyRest t

/-- A word is split off where the text cannot go on with it. -/
theorem splitWord_append_eq {goesOn : Char → Bool} {w rest : Text}
    (hw : IsWord goesOn w) (hr : ∀ c ∈ rest.head?, goesOn c = false) :
    splitWord goesOn (w ++ rest) = (w, rest) := by
  obtain ⟨c, w, rfl, hc, hw⟩ := hw
  rw [List.cons_append, splitWord, if_pos hc,
    List.takeWhile_append_of_pos hw, List.dropWhile_append_of_pos hw]
  cases rest with
  | nil => simp
  | cons x rest => simp [hr x rfl]

/-- What is split off a text is a word that does not go on, or nothing
where no word starts. -/
theorem splitWord_spec (goesOn : Char → Bool) (t : Text) :
    ((splitWord goesOn t).1 = [] ∧ ∀ c ∈ t.head?, isNameStart c = false)
      ∨ (IsWord goesOn (splitWord goesOn t).1
        ∧ ∀ c ∈ (splitWord goesOn t).2.head?, goesOn c = false) := by
  cases t with
  | nil => exact .inl ⟨rfl, by simp⟩
  | cons c rest =>
    by_cases hc : isNameStart c = true
    · refine .inr ?_
      rw [splitWord, if_pos hc]
      refine ⟨⟨c, _, rfl, hc, fun x hx => List.mem_takeWhile_imp hx⟩, ?_⟩
      intro x hx
      have h := List.head?_dropWhile_not goesOn rest
      rw [show (rest.dropWhile goesOn).head? = some x from hx] at h
      exact h
    · refine .inl ⟨by rw [splitWord, if_neg hc], ?_⟩
      intro x hx
      obtain rfl := Option.some.inj hx
      simpa using hc

/-- The word in front of a text, taken apart at its first character. -/
theorem IsWord.split_cons {goesOn : Char → Bool} {w rest text : Text}
    {c : Char} (hw : IsWord goesOn w)
    (hr : ∀ x ∈ rest.head?, goesOn x = false) (h : w ++ rest = c :: text) :
    isNameStart c = true ∧ c :: text.takeWhile goesOn = w
      ∧ text.dropWhile goesOn = rest := by
  have hc : isNameStart c = true := by
    obtain ⟨x, w, rfl, hx, _⟩ := hw
    obtain ⟨rfl, _⟩ := List.cons.inj h
    exact hx
  have hs := splitWord_append_eq hw hr
  rw [h, splitWord, if_pos hc] at hs
  exact ⟨hc, Prod.mk.inj hs⟩

/-- **The check for names** accepts the names and nothing else. -/
theorem isName_iff {t : Text} : isName t = true ↔ IsName t := by
  constructor
  · intro h
    simp only [isName, Bool.and_eq_true, Bool.not_eq_true',
      List.isEmpty_eq_false_iff, List.isEmpty_iff] at h
    obtain ⟨hne, hrest⟩ := h
    have ht : (splitName t).1 ++ (splitName t).2 = t :=
      splitWord_append isNameRest t
    rw [hrest, List.append_nil] at ht
    rcases splitWord_spec isNameRest t with ⟨h, _⟩ | ⟨h, _⟩
    · exact absurd (ht.symm.trans h) hne
    · rwa [show (splitWord isNameRest t).1 = t from ht] at h
  · intro h
    have hs : splitName (t ++ []) = (t, []) :=
      splitWord_append_eq h (by simp)
    rw [List.append_nil] at hs
    obtain ⟨c, rest, rfl, _⟩ := h
    simp [isName, hs]

/-! ## The characters of words -/

/-- A name goes on only with characters that a key goes on with. -/
theorem isKeyRest_of_isNameRest {c : Char} (h : isNameRest c = true) :
    isKeyRest c = true := by
  simp only [isNameRest, isKeyRest, Bool.or_eq_true] at h ⊢
  rcases h with h | h
  · exact .inl (.inl (.inl h))
  · exact .inr h

/-- A word goes on with whatever it may start with. -/
theorem isNameRest_of_isNameStart {c : Char} (h : isNameStart c = true) :
    isNameRest c = true := by
  simp [isNameRest, h]

/-- Every character of a word is one that it could go on with. -/
theorem IsWord.forall_mem {goesOn : Char → Bool} {t : Text}
    (h : IsWord goesOn t)
    (hs : ∀ {c}, isNameStart c = true → goesOn c = true) :
    ∀ c ∈ t, goesOn c = true := by
  obtain ⟨x, rest, rfl, hx, hr⟩ := h
  intro c hc
  rcases List.mem_cons.mp hc with rfl | hc
  · exact hs hx
  · exact hr c hc

/-- The characters of a name are characters of keys. -/
theorem IsName.isKeyRest {t : Text} (h : IsName t) :
    ∀ c ∈ t, isKeyRest c = true := fun c hc =>
  isKeyRest_of_isNameRest (h.forall_mem isNameRest_of_isNameStart c hc)

/-- The characters of a key. -/
theorem IsKey.isKeyRest {t : Text} (h : IsKey t) :
    ∀ c ∈ t, isKeyRest c = true :=
  h.forall_mem fun hx =>
    isKeyRest_of_isNameRest (isNameRest_of_isNameStart hx)

/-- The characters of words lie between the hyphen and the letter `z`. -/
theorem toNat_of_isKeyRest {c : Char} (h : isKeyRest c = true) :
    0x2D ≤ c.toNat ∧ c.toNat ≤ 0x7A := by
  simp only [isKeyRest, isNameStart, Char.isAlphanum, Char.isAlpha,
    Char.isUpper, Char.isLower, Char.isDigit, Bool.or_eq_true,
    Bool.and_eq_true, decide_eq_true_eq, beq_iff_eq, ge_iff_le,
    UInt32.le_iff_toNat_le, Char.reduceVal, UInt32.reduceToNat] at h
  unfold Char.toNat
  rcases h with (((((h | h) | h) | rfl) | rfl) | rfl) | rfl
  · omega
  · omega
  · omega
  all_goals decide

/-- No character of a word is white space. -/
theorem isBlank_of_isKeyRest {c : Char} (h : isKeyRest c = true) :
    isBlank c = false := by
  have hc := toNat_of_isKeyRest h
  simp only [isBlank, blankRanges, List.any_cons, List.any_nil,
    Bool.or_false, Bool.or_eq_false_iff, Bool.and_eq_false_iff,
    decide_eq_false_iff_not]
  omega

/-- White space ends a word. -/
theorem isKeyRest_of_isBlank {c : Char} (h : isBlank c = true) :
    isKeyRest c = false := by
  cases hk : isKeyRest c with
  | false => rfl
  | true => exact absurd h (by simp [isBlank_of_isKeyRest hk])

end Shortcode
