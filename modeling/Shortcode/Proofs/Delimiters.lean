import Shortcode.Proofs.Reading
import Shortcode.Settings.Check

/-!
# Delimiters that are accepted

Settings are made in two passes: the values of the fields are put in, one
after the other, and then the two delimiters are looked at together. What a
pass can do is said once (`Settings.fill_keeps`, `Settings.fill_ok_iff`), and
from that whatever settings are made satisfy `Settings.Valid`
(`Settings.valid_of_make`).

A delimiter may not hold what the inside of a tag gives a meaning to: a
quote, a slash and white space. Of the white space only four characters are
looked for, the tab, the two ends of a line and the space, while a tag is
taken apart at every blank character. So the condition under which a pair is
accepted (`Settings.make_named_iff`) is the one that the reading of tags
would ask for (`Delimiters.FreeOf isBlank`) on delimiters without any other
blank, and a weaker one in general: `Settings.exists_blank_accepted` is a
delimiter that holds a vertical tab.
-/

namespace Shortcode

/-- The white space that is looked for in a delimiter. -/
def isPlainBlank (c : Char) : Bool :=
  c == '\t' || c == '\n' || c == '\r' || c == ' '

theorem isBlank_of_isPlainBlank {c : Char} (h : isPlainBlank c = true) :
    isBlank c = true := by
  simp only [isPlainBlank, Bool.or_eq_true, beq_iff_eq] at h
  obtain ((rfl | rfl) | rfl) | rfl := h <;> decide

/-- Both delimiters are there, they differ, and neither holds a quote, a
slash, or one of the characters that count as white space. -/
structure Delimiters.FreeOf (blank : Char → Bool) (d : Delimiters) :
    Prop where
  opening_ne_nil : d.opening ≠ []
  closing_ne_nil : d.closing ≠ []
  differ : d.opening ≠ d.closing
  free : ∀ c ∈ d.opening ++ d.closing,
    Tag.isQuote c = false ∧ c ≠ '/' ∧ blank c = false

/-- Two delimiters, as a host names them. -/
def Delimiters.named (d : Delimiters) : List (Text × Value) :=
  [(Field.openDelimiter.label.toList, .text d.opening),
    (Field.closeDelimiter.label.toList, .text d.closing)]

/-- The fewer characters count as white space, the less is asked. -/
theorem Delimiters.FreeOf.mono {blank blank' : Char → Bool} {d : Delimiters}
    (h : d.FreeOf blank)
    (hb : ∀ c ∈ d.opening ++ d.closing, blank' c = true → blank c = true) :
    d.FreeOf blank' where
  opening_ne_nil := h.opening_ne_nil
  closing_ne_nil := h.closing_ne_nil
  differ := h.differ
  free c hc := by
    obtain ⟨hq, hs, hn⟩ := h.free c hc
    refine ⟨hq, hs, ?_⟩
    cases hc' : blank' c with
    | false => rfl
    | true => exact absurd (hb c hc hc') (by simp [hn])

namespace Settings

open Segment (map_eq_ok_iff)

/-! ## The reserved characters -/

theorem mem_reservedCharacters {c : Char} :
    c ∈ reservedCharacters ↔
      Tag.isQuote c = true ∨ c = '/' ∨ isPlainBlank c = true := by
  simp only [reservedCharacters, Tag.isQuote, isPlainBlank, List.mem_cons,
    List.not_mem_nil, Bool.or_eq_true, beq_iff_eq]
  tauto

theorem reservedIn_eq_nil {t : Text} :
    reservedIn t = [] ↔ ∀ c ∈ t, c ∉ reservedCharacters := by
  simp only [reservedIn, List.filter_eq_nil_iff, List.contains_iff_mem]
  exact ⟨fun h c hc hr => h c hr hc, fun h c hr hc => h c hc hr⟩

theorem delimiterProblem?_eq_none (field : Field) {t : Text} :
    delimiterProblem? field t = none ↔ IsDelimiter t := by
  unfold delimiterProblem? IsDelimiter
  rw [← reservedIn_eq_nil]
  split_ifs with he hr
  · simp [List.isEmpty_iff.mp he]
  · simp [List.isEmpty_iff.mp hr, List.isEmpty_iff.not.mp he]
  · simp [List.isEmpty_iff.not.mp hr]

theorem delimitersProblem?_eq_none {d : Delimiters} :
    delimitersProblem? d = none ↔
      IsDelimiter d.opening ∧ IsDelimiter d.closing ∧
        d.opening ≠ d.closing := by
  rw [← delimiterProblem?_eq_none .openDelimiter,
    ← delimiterProblem?_eq_none .closeDelimiter]
  unfold delimitersProblem?
  split
  case h_1 p hp => simp [hp]
  case h_2 ho =>
    split
    case h_1 p hp => simp [hp]
    case h_2 hc => simp [ho, hc]

theorem isDelimiter_iff_freeOf {d : Delimiters} :
    IsDelimiter d.opening ∧ IsDelimiter d.closing ∧ d.opening ≠ d.closing ↔
      d.FreeOf isPlainBlank := by
  have key : ∀ c, c ∉ reservedCharacters ↔
      Tag.isQuote c = false ∧ c ≠ '/' ∧ isPlainBlank c = false := by
    intro c
    simp [mem_reservedCharacters, not_or]
  constructor
  · rintro ⟨⟨hon, ho⟩, ⟨hcn, hc⟩, hd⟩
    refine ⟨hon, hcn, hd, fun c hmem => (key c).mp ?_⟩
    exact (List.mem_append.mp hmem).elim (ho c) (hc c)
  · intro h
    exact ⟨⟨h.opening_ne_nil, fun c hc =>
        (key c).mpr (h.free c (List.mem_append_left _ hc))⟩,
      ⟨h.closing_ne_nil, fun c hc =>
        (key c).mpr (h.free c (List.mem_append_right _ hc))⟩, h.differ⟩

/-! ## Putting values in -/

/-- The field takes the value. -/
def Takes (field : Field) (v : Value) : Prop :=
  ∃ s, assign {} field v = .ok s

/-- Whether a field takes a value does not depend on the other fields. -/
theorem takes_iff (s : Settings) (field : Field) (v : Value) :
    Takes field v ↔ ∃ s', assign s field v = .ok s' := by
  cases field <;> simp [Takes, assign, map_eq_ok_iff]

variable {value : Field → Option Value}

theorem fill_cons {f : Field} {rest : List Field} {v : Value}
    {s s' : Settings} (hv : value f = some v) (ha : assign s f v = .ok s') :
    fill value (f :: rest) s = fill value rest s' := by
  rw [fill, hv]
  simp only [ha]

/-- What every value that is put in keeps, is kept by the whole pass. -/
theorem fill_keeps {P : Settings → Prop} :
    ∀ {fields : List Field} {s : Settings},
      (∀ f ∈ fields, ∀ v s s', assign s f v = .ok s' → P s → P s') →
      P s → P (fill value fields s).1
  | [], s, _, hs => hs
  | f :: rest, s, hstep, hs => by
    obtain ⟨hf, hrest⟩ := List.forall_mem_cons.mp hstep
    unfold fill
    split
    case h_1 => exact fill_keeps hrest hs
    case h_2 v _ =>
      split
      case h_1 s' hs' => exact fill_keeps hrest (hf v s s' hs' hs)
      case h_2 p _ => exact fill_keeps hrest hs

/-- Nothing is told when every field takes the value it is given. -/
theorem fill_ok_iff :
    ∀ {fields : List Field} {s : Settings},
      (fill value fields s).2 = [] ↔
        ∀ f ∈ fields, ∀ v, value f = some v → Takes f v
  | [], s => by simp [fill]
  | f :: rest, s => by
    rw [List.forall_mem_cons]
    unfold fill
    split
    case h_1 hv => simp [hv, fill_ok_iff]
    case h_2 v hv =>
      have ht := takes_iff s f v
      split
      case h_1 s' hs' =>
        have : Takes f v := ht.mpr ⟨s', hs'⟩
        simp [hv, this, fill_ok_iff]
      case h_2 p hp =>
        have : ¬ Takes f v := by simp [ht, hp]
        simp [hv, this]

/-- The delimiters are left alone by the other fields. -/
theorem delimiters_fill {fields : List Field} {s : Settings}
    (h : ∀ f ∈ fields, f ≠ .openDelimiter ∧ f ≠ .closeDelimiter) :
    (fill value fields s).1.delimiters = s.delimiters := by
  refine fill_keeps (P := fun s' => s'.delimiters = s.delimiters) ?_ rfl
  intro f hf v t t' ht hs
  obtain ⟨ho, hc⟩ := h f hf
  cases f with
  | openDelimiter => exact absurd rfl ho
  | closeDelimiter => exact absurd rfl hc
  | _ =>
    obtain ⟨_, _, rfl⟩ := map_eq_ok_iff.mp ht
    exact hs

/-! ## What is made satisfies the checks -/

/-- What is checked of the fields one by one. -/
structure Bounded (s : Settings) : Prop where
  one_le_maxDepth : 1 ≤ s.maxDepth
  one_le_maxParallelDocuments : 1 ≤ s.maxParallelDocuments
  timeout_pos : ∀ t, s.handlerTimeout = some t → t.isPositive = true

theorem bounded_default : Bounded {} :=
  ⟨by decide, by decide, by simp⟩

theorem le_of_countOf {least n : Nat} {v : Value}
    (h : countOf least v = .ok n) : least ≤ n := by
  unfold countOf at h
  split at h
  case h_1 => cases h
  case h_2 z _ =>
    split_ifs at h with hz
    obtain rfl : z.toNat = n := by simpa using h
    omega

theorem isPositive_of_limitOf {t : Double} {v : Value}
    (h : limitOf v = .ok (some t)) : t.isPositive = true := by
  unfold limitOf at h
  split at h
  case h_1 => cases h
  case h_2 =>
    split at h
    case h_1 => cases h
    case h_2 x _ =>
      split_ifs at h with hx
      obtain rfl : x = t := by simpa using h
      exact hx

/-- A value that is put in is within the bounds of its field. -/
theorem bounded_assign {s s' : Settings} {field : Field} {v : Value}
    (h : assign s field v = .ok s') (hs : s.Bounded) : s'.Bounded := by
  cases field with
  | openDelimiter | closeDelimiter | maxConcurrency | onError =>
    obtain ⟨_, _, rfl⟩ := map_eq_ok_iff.mp h
    exact { hs with }
  | maxDepth =>
    obtain ⟨n, hn, rfl⟩ := map_eq_ok_iff.mp h
    exact { hs with one_le_maxDepth := le_of_countOf hn }
  | maxParallelDocuments =>
    obtain ⟨n, hn, rfl⟩ := map_eq_ok_iff.mp h
    exact { hs with one_le_maxParallelDocuments := le_of_countOf hn }
  | handlerTimeout =>
    obtain ⟨t, ht, rfl⟩ := map_eq_ok_iff.mp h
    exact { hs with
      timeout_pos := fun x (hx : t = some x) =>
        isPositive_of_limitOf (hx ▸ ht) }

variable {host : List (Text × Value)} {environment : List (Text × Text)}

/-- Settings are made when every field takes its value and nothing is wrong
with the delimiters. -/
theorem make_eq_ok_iff {s : Settings} :
    make host environment = .ok s ↔
      fill (given host environment) Field.all {} = (s, []) ∧
        delimitersProblem? s.delimiters = none := by
  unfold make
  split
  case h_1 t ht =>
    rw [ht, Prod.mk.injEq]
    split
    case h_1 hn =>
      constructor
      · intro h
        cases h
        exact ⟨⟨rfl, rfl⟩, hn⟩
      · rintro ⟨⟨rfl, -⟩, -⟩
        rfl
    case h_2 p hp =>
      constructor
      · intro h
        cases h
      · rintro ⟨⟨rfl, -⟩, hn⟩
        exact absurd hn (by simp [hp])
  case h_2 t problems hne ht =>
    constructor
    · intro h
      cases h
    · rintro ⟨h, -⟩
      exact absurd (congrArg Prod.snd (ht.symm.trans h)) hne

/-- **Settings that are made satisfy every check.** -/
theorem valid_of_make {s : Settings} (h : make host environment = .ok s) :
    s.Valid := by
  obtain ⟨hfill, hd⟩ := make_eq_ok_iff.mp h
  obtain ⟨ho, hc, hne⟩ := delimitersProblem?_eq_none.mp hd
  have hb : s.Bounded := by
    have hkept : (fill (given host environment) Field.all {}).1.Bounded :=
      fill_keeps (fun _ _ _ _ _ => bounded_assign) bounded_default
    rwa [hfill] at hkept
  exact { hb with opening := ho, closing := hc, differ := hne }

/-! ## A pair of delimiters -/

/-- What an environment gives for a field that is not a delimiter can be
used. -/
def Usable (environment : List (Text × Text)) : Prop :=
  ∀ f ∈ Field.all, f ≠ .openDelimiter → f ≠ .closeDelimiter →
    ∀ v, given [] environment f = some v → Takes f v

theorem usable_nil : Usable [] := by
  intro f _ _ _ v hv
  simp [given, lastNamed?] at hv

variable {d : Delimiters}

theorem given_named_openDelimiter :
    given d.named environment .openDelimiter = some (.text d.opening) := by
  simp [given, lastNamed?, Delimiters.named, Field.label]

theorem given_named_closeDelimiter :
    given d.named environment .closeDelimiter = some (.text d.closing) := by
  simp [given, lastNamed?, Delimiters.named, Field.label]

/-- The other fields are left to the environment. -/
theorem given_named {f : Field} (ho : f ≠ .openDelimiter)
    (hc : f ≠ .closeDelimiter) :
    given d.named environment f = given [] environment f := by
  cases f <;> simp_all [given, lastNamed?, Delimiters.named, Field.label]

/-- The delimiters that a host names are the ones that are put in. -/
theorem delimiters_fill_named (d : Delimiters)
    (environment : List (Text × Text)) :
    (fill (given d.named environment) Field.all {}).1.delimiters = d := by
  unfold Field.all
  rw [fill_cons given_named_openDelimiter rfl,
    fill_cons given_named_closeDelimiter rfl, delimiters_fill (by decide)]

/-- Two texts are always taken, so it is up to the environment whether
every field takes its value. -/
theorem fill_named_ok_iff :
    (fill (given d.named environment) Field.all {}).2 = [] ↔
      Usable environment := by
  have takes_text : ∀ f, f = .openDelimiter ∨ f = .closeDelimiter →
      ∀ t, Takes f (.text t) := by
    rintro f (rfl | rfl) t <;> exact ⟨_, rfl⟩
  rw [fill_ok_iff]
  constructor
  · intro h f hf ho hc v hv
    exact h f hf v ((given_named ho hc).trans hv)
  · intro h f hf v hv
    by_cases ho : f = .openDelimiter
    · subst ho
      obtain rfl := Option.some.inj (given_named_openDelimiter.symm.trans hv)
      exact takes_text _ (.inl rfl) _
    by_cases hc : f = .closeDelimiter
    · subst hc
      obtain rfl := Option.some.inj (given_named_closeDelimiter.symm.trans hv)
      exact takes_text _ (.inr rfl) _
    exact h f hf ho hc v ((given_named ho hc).symm.trans hv)

theorem delimiters_make_named {s : Settings}
    (h : fill (given d.named environment) Field.all {} = (s, [])) :
    s.delimiters = d := by
  rw [← delimiters_fill_named d environment, h]

/-- The exact condition, in terms of the white space that is looked for. -/
theorem exists_make_named_iff :
    (∃ s, make d.named environment = .ok s) ↔
      d.FreeOf isPlainBlank ∧ Usable environment := by
  have key : ∀ s, make d.named environment = .ok s ↔
      fill (given d.named environment) Field.all {} = (s, []) ∧
        d.FreeOf isPlainBlank := by
    intro s
    rw [make_eq_ok_iff]
    refine and_congr_right fun hs => ?_
    rw [delimiters_make_named hs, delimitersProblem?_eq_none,
      isDelimiter_iff_freeOf]
  simp only [key, exists_and_right, and_comm (a := d.FreeOf _)]
  rw [← fill_named_ok_iff]
  refine and_congr_left fun _ => ⟨?_, fun h => ⟨_, Prod.ext rfl h⟩⟩
  rintro ⟨s, hs⟩
  rw [hs]

/-- **Which pairs of delimiters are accepted.** A host that names two
delimiters gets settings with them, and with every check satisfied, if they
are there, differ, and hold no quote, no slash, no tab, no end of a line and
no space, and the environment gives no other field a value that cannot be
used. On delimiters that hold no other white space than these four
characters, this is the condition that the reading of tags asks for. -/
theorem make_named_iff (d : Delimiters) (environment : List (Text × Text)) :
    ((∃ s, make d.named environment = .ok s) ↔
      d.FreeOf isPlainBlank ∧ Usable environment)
    ∧ (∀ s, make d.named environment = .ok s →
      s.delimiters = d ∧ s.Valid)
    ∧ (d.FreeOf isBlank ∧ Usable environment →
      ∃ s, make d.named environment = .ok s)
    ∧ ((∀ c ∈ d.opening ++ d.closing,
        isBlank c = true → isPlainBlank c = true) →
      ((∃ s, make d.named environment = .ok s) ↔
        d.FreeOf isBlank ∧ Usable environment)) := by
  have weaker : d.FreeOf isBlank → d.FreeOf isPlainBlank :=
    fun h => h.mono fun _ _ => isBlank_of_isPlainBlank
  refine ⟨exists_make_named_iff, fun s hs => ⟨?_, valid_of_make hs⟩,
    fun ⟨hd, hu⟩ => exists_make_named_iff.mpr ⟨weaker hd, hu⟩,
    fun hplain => ?_⟩
  · exact delimiters_make_named (make_eq_ok_iff.mp hs).1
  · rw [exists_make_named_iff]
    exact and_congr_left fun _ => ⟨fun h => h.mono hplain, weaker⟩

/-- Square brackets can be used where the environment sets the depth. -/
theorem make_named_iff_brackets :
    ∃ s, make (Delimiters.named ⟨['[', '['], [']', ']']⟩)
        [("SHORTCODE_MAX_DEPTH".toList, ['5'])] = .ok s
      ∧ s.delimiters = ⟨['[', '['], [']', ']']⟩ := by
  obtain ⟨-, hs, -, h⟩ := make_named_iff ⟨['[', '['], [']', ']']⟩
    [("SHORTCODE_MAX_DEPTH".toList, ['5'])]
  have hfree : Delimiters.FreeOf isBlank ⟨['[', '['], [']', ']']⟩ :=
    ⟨by decide, by decide, by decide, by simp; decide⟩
  have husable : Usable [("SHORTCODE_MAX_DEPTH".toList, ['5'])] :=
    fill_named_ok_iff (d := ⟨[], []⟩).mp (by decide +kernel)
  obtain ⟨s, hmake⟩ := (h (by simp; decide)).mpr ⟨hfree, husable⟩
  exact ⟨s, hmake, (hs s hmake).1⟩

/-- A delimiter with a vertical tab is accepted, though a vertical tab is
white space to the reading of tags. -/
theorem exists_blank_accepted :
    ¬ ∀ d : Delimiters, (∃ s, make d.named = .ok s) ↔ d.FreeOf isBlank := by
  intro h
  -- no tab, no end of a line and no space, so nothing is found
  have hplain : Delimiters.FreeOf isPlainBlank ⟨['<', '\x0b'], ['%', '>']⟩ :=
    ⟨by decide, by decide, by decide, by simp; decide⟩
  have hfree := (h _).mp (exists_make_named_iff.mpr ⟨hplain, usable_nil⟩)
  exact absurd (hfree.free '\x0b' (by simp)).2.2 (by decide)

end Settings

end Shortcode
