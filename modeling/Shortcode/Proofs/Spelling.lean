import Shortcode.Proofs.Places
import Shortcode.Proofs.Written

/-!
# Argument texts, right and wrong

`Arguments.Spelled` is the grammar of argument texts: white space around
arguments that white space separates. Reading accepts exactly the texts
of this grammar, and where it refuses one, the position it tells is how
far the text goes right: up to there it is the beginning of a text of the
grammar, and with one more character it is not
(`Arguments.parse_spelled`).

The two halves meet in one decomposition. A text that is refused is a
front of arguments, each with white space behind it, and something that
goes wrong as an argument (`Arguments.exists_of_parseFrom_eq_error`); what can
go wrong is four things, `Argument.Faulty`. Three of them show at the
next character, or at the end of the text where a value is missing
altogether. Only a quotation that is never closed takes the whole text
to see, and is reported at the quote that opens it.
-/

namespace Shortcode

/-! ## Arguments, one after the other -/

/-- **The texts that spell arguments**: white space alone, or an argument
with white space in front of it; what stands behind an argument is
nothing, or starts with white space and spells the arguments that
follow. -/
inductive Arguments.Spelled : Arguments → Text → Prop
  | blank {t : Text} : Text.IsBlank t → Spelled [] t
  | argument {a : Argument} {args : Arguments} {lead t rest : Text} :
      Text.IsBlank lead → IsKey a.key → a.Written t → Text.Spaced rest →
      Spelled args rest → Spelled (a :: args) (lead ++ (t ++ rest))

/-- **How an argument goes wrong**, from its first character on: the
cause, and the position at which it shows. -/
inductive Argument.Faulty : Text → Cause → Nat → Prop
  /-- No key starts here. -/
  | unexpected {c : Char} {rest : Text} :
      isBlank c = false → isNameStart c = false →
      Faulty (c :: rest) (.unexpectedCharacter c) 0
  /-- An argument ends here, and the next character is not white space. A
  bare key ends where it goes on neither as a key nor with a value. -/
  | unseparated {a : Argument} {t rest : Text} {c : Char} :
      IsKey a.key → a.Written t → isBlank c = false →
      (a.value = none → isKeyRest c = false ∧ c ≠ '=') →
      Faulty (t ++ c :: rest) (.missingSeparator c) t.length
  /-- No quote stands behind the sign that announces a value. -/
  | unquoted {key rest : Text} :
      IsKey key → (∀ c ∈ rest.head?, Tag.isQuote c = false) →
      Faulty (key ++ '=' :: rest) (.unquotedValue key) (key.length + 1)
  /-- The quotation of a value is not closed. -/
  | unterminated {key rest : Text} {q : Char} :
      IsKey key → Tag.isQuote q = true → q ∉ rest →
      Faulty (key ++ '=' :: q :: rest) (.unterminatedValue key)
        (key.length + 1)

namespace Argument

/-! ## One argument -/

/-- What follows an argument is spaced, or its first character is what is
wrong. -/
theorem separated_cases (position : Nat) (a : Argument) (rest : Text) :
    (separated position a rest = .ok (a, rest) ∧ Text.Spaced rest)
      ∨ ∃ c more, rest = c :: more ∧ isBlank c = false
          ∧ separated position a rest
              = .error ⟨.missingSeparator c, position⟩ := by
  cases rest with
  | nil => exact .inl ⟨rfl, by simp [Text.Spaced]⟩
  | cons c more =>
    by_cases hc : isBlank c = true
    · have hs : Text.Spaced (c :: more) := by
        intro x hx
        obtain rfl := Option.some.inj hx
        exact hc
      exact .inl ⟨separated_spaced hs, hs⟩
    · refine .inr ⟨c, more, rfl, by simpa using hc, ?_⟩
      unfold separated
      exact if_neg hc

/-- A character that is not white space may not follow an argument. -/
theorem separated_of_not_blank {c : Char} (hc : isBlank c = false)
    (position : Nat) (a : Argument) (rest : Text) :
    separated position a (c :: rest)
      = .error ⟨.missingSeparator c, position⟩ := by
  unfold separated
  exact if_neg (by simp [hc])

/-- A value ends at its quote, and what follows it is judged. -/
theorem quotedValue_eq {q : Char} {v : Text} (hv : q ∉ v)
    (position : Nat) (key rest : Text) :
    quotedValue position key q (v ++ q :: rest)
      = separated (position + v.length + 2) ⟨key, some v⟩ rest := by
  unfold quotedValue
  rw [Text.cut?_singleton hv]

/-- Without its quote a value does not end. -/
theorem quotedValue_of_not_mem {q : Char} {text : Text} (hq : q ∉ text)
    (position : Nat) (key : Text) :
    quotedValue position key q text
      = .error ⟨.unterminatedValue key, position⟩ := by
  have hc : Text.cut? [q] text = none := by
    refine Text.cut?_eq_none_iff.mpr ?_
    rintro u v rfl
    exact hq (by simp)
  unfold quotedValue
  rw [hc]

variable {key behind text : Text} {c : Char}

/-- A key with a quotation behind it is read by the quotation. -/
theorem next?_value {q : Char} {rest : Text} (hk : IsKey key)
    (hq : Tag.isQuote q = true)
    (h : key ++ '=' :: q :: rest = c :: text) (position : Nat) :
    next? position c text
      = quotedValue (position + key.length + 1) key q rest := by
  obtain ⟨hc, hkey, hrest⟩ := hk.split_cons (by simp; decide) h
  rw [next?_eq, if_pos hc]
  dsimp only
  rw [hkey, hrest]
  rcases Bool.or_eq_true _ _ ▸ hq with h | h
  · obtain rfl := eq_of_beq h
    rfl
  · obtain rfl := eq_of_beq h
    rfl

/-- A key that announces a value, and no quotation behind it. -/
theorem next?_unquoted {rest : Text} (hk : IsKey key)
    (hq : ∀ x ∈ rest.head?, Tag.isQuote x = false)
    (h : key ++ '=' :: rest = c :: text) (position : Nat) :
    next? position c text
      = .error ⟨.unquotedValue key, position + key.length + 1⟩ := by
  obtain ⟨hc, hkey, hrest⟩ := hk.split_cons (by simp; decide) h
  rw [next?_eq, if_pos hc]
  dsimp only
  rw [hkey, hrest]
  split
  · exact absurd (hq '"' (by simp_all)) (by decide)
  · exact absurd (hq '\'' (by simp_all)) (by decide)
  · rfl
  · next hne => exact absurd rfl (hne rest)

/-- A bare key is read, and what follows it is judged. -/
theorem next?_flag (hk : IsKey key)
    (hb : ∀ x ∈ behind.head?, isKeyRest x = false ∧ x ≠ '=')
    (h : key ++ behind = c :: text) (position : Nat) :
    next? position c text
      = separated (position + key.length) ⟨key, none⟩ behind := by
  obtain ⟨hc, hkey, hrest⟩ := hk.split_cons (fun x hx => (hb x hx).1) h
  rw [next?_eq, if_pos hc]
  dsimp only
  rw [hkey, hrest]
  split
  · exact absurd rfl (hb '=' rfl).2
  · exact absurd rfl (hb '=' rfl).2
  · exact absurd rfl (hb '=' rfl).2
  · rfl

/-- A first character that starts a key is taken with the rest of it. -/
theorem exists_key (hc : isNameStart c = true) (text : Text) :
    ∃ key behind, IsKey key ∧ key ++ behind = c :: text
      ∧ ∀ x ∈ behind.head?, isKeyRest x = false := by
  have hs := splitWord_append isKeyRest (c :: text)
  rcases splitWord_spec isKeyRest (c :: text) with ⟨-, h⟩ | ⟨hk, hb⟩
  · exact absurd (h c rfl) (by simp [hc])
  · exact ⟨_, _, hk, hs, hb⟩

/-- A quoted value is read up to its quote and what follows it is judged,
or it goes wrong. -/
theorem next?_value_cases {q : Char} {rest : Text} (hk : IsKey key)
    (hq : Tag.isQuote q = true)
    (h : key ++ '=' :: q :: rest = c :: text) (position : Nat) :
    (∃ a t rest', next? position c text = .ok (a, rest')
        ∧ key ++ '=' :: q :: rest = t ++ rest' ∧ IsKey a.key ∧ a.Written t
        ∧ Text.Spaced rest')
      ∨ ∃ cause k, next? position c text = .error ⟨cause, position + k⟩
          ∧ Faulty (key ++ '=' :: q :: rest) cause k := by
  rw [next?_value hk hq h position]
  by_cases hmem : q ∈ rest
  · obtain ⟨v, rest, rfl, hv⟩ := List.eq_append_cons_of_mem hmem
    rw [quotedValue_eq hv]
    have hw : Argument.Written ⟨key, some v⟩
        (key ++ '=' :: q :: (v ++ [q])) := .value hq hv
    have hsplit : key ++ '=' :: q :: (v ++ q :: rest)
        = key ++ '=' :: q :: (v ++ [q]) ++ rest := by simp
    rw [hsplit]
    rcases separated_cases (position + key.length + 1 + v.length + 2)
      ⟨key, some v⟩ rest with ⟨hok, hr⟩ | ⟨x, more, rfl, hx, herr⟩
    · exact .inl ⟨_, _, rest, hok, rfl, hk, hw, hr⟩
    · refine .inr ⟨_, _, ?_, .unseparated hk hw hx (by simp)⟩
      rw [herr]
      congr 2
      simp only [List.length_append, List.length_cons, List.length_nil]
      omega
  · refine .inr ⟨_, key.length + 1, ?_, .unterminated hk hq hmem⟩
    rw [quotedValue_of_not_mem hmem, Nat.add_assoc]

/-- A bare key is read and what follows it is judged, or it goes wrong. -/
theorem next?_flag_cases (hk : IsKey key)
    (hb : ∀ x ∈ behind.head?, isKeyRest x = false ∧ x ≠ '=')
    (h : key ++ behind = c :: text) (position : Nat) :
    (∃ a t rest, next? position c text = .ok (a, rest)
        ∧ key ++ behind = t ++ rest ∧ IsKey a.key ∧ a.Written t
        ∧ Text.Spaced rest)
      ∨ ∃ cause k, next? position c text = .error ⟨cause, position + k⟩
          ∧ Faulty (key ++ behind) cause k := by
  rw [next?_flag hk hb h position]
  rcases separated_cases (position + key.length) ⟨key, none⟩ behind with
    ⟨hok, hr⟩ | ⟨x, more, rfl, hx, herr⟩
  · exact .inl ⟨_, key, behind, hok, rfl, hk, .flag, hr⟩
  · exact .inr ⟨_, key.length, herr,
      .unseparated hk .flag hx fun _ => hb x rfl⟩

/-- **An argument is read, or goes wrong**: in the one case it stands
written at the front of the text with white space behind it, in the other
the text is faulty. -/
theorem next?_cases (hc : isBlank c = false) (text : Text)
    (position : Nat) :
    (∃ a t rest, next? position c text = .ok (a, rest)
        ∧ c :: text = t ++ rest ∧ IsKey a.key ∧ a.Written t
        ∧ Text.Spaced rest)
      ∨ ∃ cause k, next? position c text = .error ⟨cause, position + k⟩
          ∧ Faulty (c :: text) cause k := by
  by_cases hs : isNameStart c = true
  swap
  · have hs : isNameStart c = false := by simpa using hs
    refine .inr ⟨_, 0, ?_, .unexpected hc hs⟩
    rw [next?_eq]
    exact if_neg (by simp [hs])
  obtain ⟨key, behind, hk, he, hb⟩ := exists_key hs text
  rw [← he]
  by_cases hsign : behind.head? = some '='
  · obtain ⟨rest, rfl⟩ := List.head?_eq_some_iff.mp hsign
    by_cases hquote : ∀ x ∈ rest.head?, Tag.isQuote x = false
    · refine .inr ⟨_, key.length + 1, ?_, .unquoted hk hquote⟩
      rw [next?_unquoted hk hquote he position, Nat.add_assoc]
    · push Not at hquote
      obtain ⟨q, hhead, hne⟩ := hquote
      obtain ⟨rest, rfl⟩ := List.head?_eq_some_iff.mp hhead
      exact next?_value_cases hk (by simpa using hne) he position
  · refine next?_flag_cases hk (fun x hx => ⟨hb x hx, ?_⟩) he position
    rintro rfl
    exact hsign hx

/-- **What is faulty goes wrong.** -/
theorem next?_faulty {cause : Cause} {k : Nat} (h : Faulty (c :: text) cause k)
    (position : Nat) :
    next? position c text = .error ⟨cause, position + k⟩ := by
  generalize he : c :: text = t at h
  cases h with
  | unexpected _ hs =>
    obtain ⟨rfl, rfl⟩ := List.cons.inj he
    rw [next?_eq]
    exact if_neg (by simp [hs])
  | @unseparated a t rest x hk hw hx hbare =>
    cases hw with
    | flag =>
      rw [next?_flag hk ?_ he.symm, separated_of_not_blank hx]
      intro y hy
      obtain rfl := Option.some.inj hy
      exact hbare rfl
    | @value key v q hq hv =>
      have he' : key ++ '=' :: q :: (v ++ q :: x :: rest) = c :: text := by
        rw [he]
        simp
      rw [next?_value hk hq he', quotedValue_eq hv,
        separated_of_not_blank hx]
      congr 2
      simp only [List.length_append, List.length_cons, List.length_nil]
      omega
  | unquoted hk hq => rw [next?_unquoted hk hq he.symm, Nat.add_assoc]
  | unterminated hk hq hmem =>
    rw [next?_value hk hq he.symm, quotedValue_of_not_mem hmem, Nat.add_assoc]

/-- A faulty argument starts with a character that is not white space. -/
theorem Faulty.exists_cons {t : Text} {cause : Cause} {k : Nat}
    (h : Faulty t cause k) : ∃ c rest, t = c :: rest ∧ isBlank c = false := by
  have hkey : ∀ {key : Text}, IsKey key → ∀ rest : Text,
      ∃ c more, key ++ rest = c :: more ∧ isBlank c = false := by
    rintro _ ⟨c, more, rfl, hc, -⟩ rest
    exact ⟨c, more ++ rest, rfl, isBlank_of_isKeyRest
      (isKeyRest_of_isNameRest (isNameRest_of_isNameStart hc))⟩
  cases h with
  | unexpected hb _ => exact ⟨_, _, rfl, hb⟩
  | unseparated hk hw =>
    obtain ⟨c, more, rfl, hc⟩ := hw.exists_cons hk
    exact ⟨c, _, rfl, hc⟩
  | unquoted hk => exact hkey hk _
  | unterminated hk => exact hkey hk _

end Argument

/-! ## All arguments -/

namespace Arguments

/-- A text that is empty or ends with white space. -/
def Closed (t : Text) : Prop :=
  ∀ c ∈ t.getLast?, isBlank c = true

/-- **How an argument text goes wrong**: behind arguments with white space
behind each stands something that goes wrong as an argument. The cause,
and the position in the whole text. -/
inductive Faulty : Text → Cause → Nat → Prop
  | behind {args : Arguments} {front t : Text} {cause : Cause} {k : Nat} :
      Spelled args front → Closed front → Argument.Faulty t cause k →
      Faulty (front ++ t) cause (front.length + k)

variable {args more : Arguments} {front text w : Text}

theorem Spelled.cons_blank {c : Char} (hc : isBlank c = true)
    (h : Spelled args text) : Spelled args (c :: text) := by
  have hcons : ∀ {lead : Text}, Text.IsBlank lead →
      Text.IsBlank (c :: lead) := by
    intro lead hl x hx
    rcases List.mem_cons.mp hx with rfl | hx
    · exact hc
    · exact hl x hx
  cases h with
  | blank ht => exact .blank (hcons ht)
  | argument hl hk hw hr hs => exact .argument (hcons hl) hk hw hr hs

theorem Faulty.cons_blank {c : Char} {cause : Cause} {k : Nat}
    (hc : isBlank c = true) (h : Faulty text cause k) :
    Faulty (c :: text) cause (k + 1) := by
  obtain @⟨args, front, t, _, k, hs, hcl, hf⟩ := h
  have hcl' : Closed (c :: front) := by
    intro x hx
    cases front with
    | nil =>
      obtain rfl := Option.some.inj hx
      exact hc
    | cons y front => exact hcl x (by simpa using hx)
  have := Faulty.behind (hs.cons_blank hc) hcl' hf
  rwa [List.cons_append, List.length_cons, Nat.add_right_comm] at this

/-- Closed arguments behind an argument are not empty, as an argument does not
end with white space. -/
theorem Closed.of_argument {a : Argument} {lead t rest : Text}
    (hk : IsKey a.key) (hw : a.Written t)
    (h : Closed (lead ++ (t ++ rest))) : rest ≠ [] ∧ Closed rest := by
  constructor
  · rintro rfl
    obtain ⟨c, text, rfl, -⟩ := hw.exists_cons hk
    obtain ⟨x, hx⟩ := Option.isSome_iff_exists.mp
      (List.getLast?_isSome.mpr (List.cons_ne_nil c text))
    have hblank := h x (by
      rw [List.getLast?_append, List.append_nil, hx]
      rfl)
    exact absurd (hw.getLast? hk x hx).1 (by simp [hblank])
  · intro c hc
    refine h c ?_
    rw [List.getLast?_append, List.getLast?_append, hc]
    rfl

/-- **Behind arguments reading goes on** with what follows them, if white
space stands between. -/
theorem Spelled.parseFrom_append (h : Spelled args front)
    (hs : Text.Spaced w ∨ Closed front) (position : Nat) :
    parseFrom position (front ++ w)
      = (parseFrom (position + front.length) w).map (args ++ ·) := by
  induction h generalizing position with
  | @blank t hb =>
    rw [parseFrom_blank hb]
    cases parseFrom (position + t.length) w <;> rfl
  | @argument a args lead t rest hl hk hw hr hrest ih =>
    have hs' : Text.Spaced w ∨ Closed rest :=
      hs.imp_right fun hcl => (hcl.of_argument hk hw).2
    have hr' : Text.Spaced (rest ++ w) := by
      cases rest with
      | cons c rest => exact hr
      | nil =>
        exact hs.elim id fun hcl => absurd rfl (hcl.of_argument hk hw).1
    have hplace : position + lead.length + t.length + rest.length
        = position + (lead ++ (t ++ rest)).length := by
      simp only [List.length_append]
      omega
    rw [List.append_assoc, List.append_assoc,
      parseFrom_argument hl hk hw hr', ih hs', hplace]
    cases parseFrom (position + (lead ++ (t ++ rest)).length) w <;> rfl

theorem Spelled.parseFrom_eq (h : Spelled args text) (position : Nat) :
    parseFrom position text = .ok args := by
  have he := h.parseFrom_append (w := []) (.inl (by simp [Text.Spaced]))
    position
  rw [List.append_nil, parseFrom] at he
  rw [he]
  exact congrArg Except.ok (List.append_nil args)

/-- **What goes wrong as an argument text is refused**, where it goes
wrong. -/
theorem Faulty.parseFrom_eq {cause : Cause} {k : Nat}
    (h : Faulty text cause k) (position : Nat) :
    parseFrom position text = .error ⟨cause, position + k⟩ := by
  obtain @⟨args, front, t, _, k, hs, hcl, hf⟩ := h
  obtain ⟨c, rest, rfl, hc⟩ := hf.exists_cons
  have hn := Argument.next?_faulty hf (position + front.length)
  rw [hs.parseFrom_append (.inr hcl), parseFrom, if_neg (by simp [hc])]
  split
  · next e h =>
    obtain rfl := Except.error.inj (hn.symm.trans h)
    rw [Nat.add_assoc]
    rfl
  · next h =>
    rw [hn] at h
    simp at h

/-- Closed arguments behind an argument are closed arguments with it, if
something follows them that is not white space. -/
theorem Spelled.behind_argument {a : Argument} {lead t rest : Text} {c : Char}
    (hl : Text.IsBlank lead) (hk : IsKey a.key) (hw : a.Written t)
    (hr : Text.Spaced (front ++ c :: rest)) (hc : isBlank c = false)
    (hs : Spelled args front) (hcl : Closed front) :
    Spelled (a :: args) (lead ++ (t ++ front))
      ∧ Closed (lead ++ (t ++ front)) := by
  cases front with
  | nil =>
    -- white space follows an argument
    exact absurd (hr c rfl) (by simp [hc])
  | cons x front =>
    refine ⟨.argument hl hk hw hr hs, fun y hy => hcl y ?_⟩
    rwa [← List.append_assoc,
      List.getLast?_append_of_ne_nil _ (List.cons_ne_nil x front)] at hy

theorem Faulty.argument {a : Argument} {t : Text} {cause : Cause} {k : Nat}
    (hk : IsKey a.key) (hw : a.Written t) (hr : Text.Spaced text)
    (h : Faulty text cause k) : Faulty (t ++ text) cause (t.length + k) := by
  obtain @⟨args, front, t', _, k, hs, hcl, hf⟩ := h
  obtain ⟨c, rest, rfl, hc⟩ := hf.exists_cons
  obtain ⟨hs', hcl'⟩ := hs.behind_argument Text.isBlank_nil hk hw hr hc hcl
  have := Faulty.behind hs' hcl' hf
  rwa [List.nil_append, List.append_assoc, List.length_append,
    Nat.add_assoc] at this

/-- **An argument text is one or the other**: it spells arguments, or goes
wrong somewhere. -/
theorem spelled_or_faulty (text : Text) :
    (∃ args, Spelled args text) ∨ ∃ cause k, Faulty text cause k := by
  induction hn : text.length using Nat.strong_induction_on generalizing text
    with
  | _ n ih =>
  subst hn
  cases text with
  | nil => exact .inl ⟨[], .blank Text.isBlank_nil⟩
  | cons c text =>
    by_cases hc : isBlank c = true
    · exact (ih _ (by simp) text rfl).imp
        (fun ⟨args, h⟩ => ⟨args, h.cons_blank hc⟩)
        fun ⟨cause, k, h⟩ => ⟨cause, k + 1, h.cons_blank hc⟩
    · have hc : isBlank c = false := by simpa using hc
      rcases Argument.next?_cases hc text 0 with
        ⟨a, t, rest, -, he, hk, hw, hr⟩ | ⟨cause, k, -, hf⟩
      · obtain ⟨x, more, rfl, -⟩ := hw.exists_cons hk
        have hlt : rest.length < (c :: text).length := by
          rw [he, List.length_append, List.length_cons]
          omega
        rw [he]
        exact (ih _ hlt rest rfl).imp
          (fun ⟨args, h⟩ =>
            ⟨a :: args, .argument Text.isBlank_nil hk hw hr h⟩)
          fun ⟨cause, k, h⟩ => ⟨cause, _, h.argument hk hw hr⟩
      · exact .inr ⟨cause, _, .behind (.blank Text.isBlank_nil)
          (by simp [Closed]) hf⟩

/-- **The texts that are read** are those that spell arguments. -/
theorem parseFrom_eq_ok_iff {position : Nat} :
    parseFrom position text = .ok args ↔ Spelled args text := by
  refine ⟨fun h => ?_, fun h => h.parseFrom_eq position⟩
  rcases spelled_or_faulty text with ⟨args', hs⟩ | ⟨cause, k, hf⟩
  · obtain rfl := Except.ok.inj ((hs.parseFrom_eq position).symm.trans h)
    exact hs
  · rw [hf.parseFrom_eq] at h
    simp at h

/-- **The texts that are refused** are those that go wrong, and what is
told is how. -/
theorem exists_of_parseFrom_eq_error {position : Nat} {fault : ArgumentFault}
    (h : parseFrom position text = .error fault) :
    ∃ k, fault.position = position + k ∧ Faulty text fault.cause k := by
  rcases spelled_or_faulty text with ⟨args, hs⟩ | ⟨cause, k, hf⟩
  · rw [hs.parseFrom_eq] at h
    simp at h
  · obtain rfl := Except.error.inj ((hf.parseFrom_eq position).symm.trans h)
    exact ⟨k, rfl, hf⟩

/-- No text both spells arguments and goes wrong. -/
theorem Faulty.not_spelled {cause : Cause} {k : Nat}
    (h : Faulty text cause k) : ¬Spelled args text := by
  intro hs
  have := (h.parseFrom_eq 0).symm.trans (hs.parseFrom_eq 0)
  simp at this

/-- Arguments and more arguments spell what they are together, if white
space stands between. -/
theorem Spelled.append (h : Spelled args front) (hcl : Closed front)
    (hw : Spelled more w) : Spelled (args ++ more) (front ++ w) := by
  have hparse : parseFrom 0 (front ++ w) = .ok (args ++ more) := by
    rw [h.parseFrom_append (.inr hcl), hw.parseFrom_eq]
    rfl
  exact parseFrom_eq_ok_iff.mp hparse

end Arguments

/-! ## How far a text goes right -/

namespace Argument

variable {t : Text} {cause : Cause} {k : Nat}

/-- Up to where it goes wrong, something faulty goes right: there is a way
to go on. -/
theorem Faulty.exists_spelled (h : Faulty t cause k) :
    k ≤ t.length ∧ ∃ args more, Arguments.Spelled args (t.take k ++ more) := by
  have hspaced : Text.Spaced [] := by simp [Text.Spaced]
  have hone : ∀ {a : Argument} {u : Text}, IsKey a.key → a.Written u →
      Arguments.Spelled [a] u := by
    intro a u hk hw
    have := Arguments.Spelled.argument Text.isBlank_nil hk hw hspaced
      (.blank Text.isBlank_nil)
    rwa [List.nil_append, List.append_nil] at this
  -- behind the sign of a value, an empty quotation goes on
  have hsign : ∀ {key rest : Text}, IsKey key →
      key.length + 1 ≤ (key ++ '=' :: rest).length
        ∧ ∃ args more, Arguments.Spelled args
            ((key ++ '=' :: rest).take (key.length + 1) ++ more) := by
    intro key rest hk
    refine ⟨by simp, [⟨key, some []⟩], ['"', '"'], ?_⟩
    rw [List.take_length_add_append, List.append_assoc]
    exact hone hk (.value (by decide) (by simp))
  cases h with
  | unexpected => exact ⟨Nat.zero_le _, [], [], .blank Text.isBlank_nil⟩
  | @unseparated a t rest c hk hw =>
    refine ⟨by simp, [a], [], ?_⟩
    rw [List.take_left, List.append_nil]
    exact hone hk hw
  | unquoted hk => exact hsign hk
  | unterminated hk => exact hsign hk

/-- **With one more character it goes wrong**, however it goes on: unless
the text ends there, or a quotation is not closed that starts there. -/
theorem Faulty.take (h : Faulty t cause k) :
    (∀ more, ∃ cause', Faulty (t.take (k + 1) ++ more) cause' k)
      ∨ k = t.length
      ∨ ∃ key q v, t = key ++ '=' :: q :: v ∧ k = key.length + 1
          ∧ IsKey key ∧ Tag.isQuote q = true ∧ q ∉ v := by
  cases h with
  | unexpected hb hs => exact .inl fun more => ⟨_, .unexpected hb hs⟩
  | @unseparated a t rest c hk hw hc hbare =>
    refine .inl fun more => ⟨.missingSeparator c, ?_⟩
    rw [List.take_length_add_append, List.append_assoc]
    exact .unseparated hk hw hc hbare
  | @unquoted key rest hk hq =>
    cases rest with
    | nil => exact .inr (.inl (by simp))
    | cons c rest =>
      refine .inl fun more => ⟨.unquotedValue key, ?_⟩
      rw [Nat.add_assoc, List.take_length_add_append, List.append_assoc]
      exact .unquoted hk hq
  | unterminated hk hq hv => exact .inr (.inr ⟨_, _, _, rfl, rfl, hk, hq, hv⟩)

end Argument

namespace Arguments

/-- The quote at a position opens the value of an argument, and closes
nowhere. -/
def Unclosed (text : Text) (p : Nat) : Prop :=
  ∃ args front key q v, text = front ++ (key ++ '=' :: q :: v)
    ∧ p = front.length + (key.length + 1) ∧ Spelled args front
    ∧ Closed front ∧ IsKey key ∧ Tag.isQuote q = true ∧ q ∉ v

variable {text : Text} {cause : Cause} {k : Nat}

/-- Up to where it goes wrong, an argument text goes right. -/
theorem Faulty.exists_spelled (h : Faulty text cause k) :
    k ≤ text.length ∧ ∃ args more, Spelled args (text.take k ++ more) := by
  obtain @⟨args, front, t, _, k, hs, hcl, hf⟩ := h
  obtain ⟨hle, args', more, hs'⟩ := hf.exists_spelled
  refine ⟨by simpa using hle, args ++ args', more, ?_⟩
  rw [List.take_length_add_append, List.append_assoc]
  exact hs.append hcl hs'

/-- With one more character an argument text goes wrong. -/
theorem Faulty.not_spelled_take (h : Faulty text cause k) :
    (∀ args more, ¬Spelled args (text.take (k + 1) ++ more))
      ∨ k = text.length ∨ Unclosed text k := by
  obtain @⟨args, front, t, _, k, hs, hcl, hf⟩ := h
  rcases hf.take with hwrong | rfl | ⟨key, q, v, rfl, rfl, hk, hq, hv⟩
  · refine .inl fun args' more => ?_
    obtain ⟨cause', hf'⟩ := hwrong more
    rw [Nat.add_assoc, List.take_length_add_append, List.append_assoc]
    exact (Faulty.behind hs hcl hf').not_spelled
  · exact .inr (.inl (by simp))
  · exact .inr (.inr ⟨args, front, key, q, v, rfl, rfl, hs, hcl, hk, hq, hv⟩)

theorem parse_eq_ok_iff_spelled {args : Arguments} {name : Option Text}
    {base : Int} : parse text name base = .ok args ↔ Spelled args text := by
  have hfrom : parseFrom 0 text = .ok args ↔ Spelled args text :=
    parseFrom_eq_ok_iff
  rw [← hfrom]
  unfold parse
  cases parseFrom 0 text <;> simp

/-- **Reading arguments is exact.** What is read is what the text spells,
and only texts that spell arguments are read. Any other text is refused,
under the name it came with, at how far it goes right: what stands in
front of the position can still become a text that spells arguments; with
the character at the position it cannot, except where the text ends, or
where the character opens a quotation that is never closed. -/
theorem parse_spelled (text : Text) (name : Option Text) (base : Int) :
    (∀ args, parse text name base = .ok args ↔ Spelled args text)
      ∧ ∀ e, parse text name base = .error e →
          e.kind = .malformedArgument ∧ e.name = name
            ∧ ∃ p, p ≤ text.length ∧ e.offset = some (base + p)
                ∧ (∃ args more, Spelled args (text.take p ++ more))
                ∧ ((∀ args more, ¬Spelled args (text.take (p + 1) ++ more))
                    ∨ p = text.length ∨ Unclosed text p) := by
  refine ⟨fun args => parse_eq_ok_iff_spelled, fun e h => ?_⟩
  have hkind := kind_of_parse h
  unfold parse at h
  cases hp : parseFrom 0 text with
  | ok args => simp [hp] at h
  | error fault =>
    obtain ⟨k, hk, hf⟩ := exists_of_parseFrom_eq_error hp
    rw [Nat.zero_add] at hk
    rw [hp] at h
    obtain rfl := Except.error.inj h
    obtain ⟨hle, hright⟩ := hf.exists_spelled
    exact ⟨hkind, rfl, k, hle, by rw [hk], hright, hf.not_spelled_take⟩

end Arguments

end Shortcode
