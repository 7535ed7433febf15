import Mathlib
import Shortcode.Text.Markup

/-!
# Escaped text

A text that is escaped can stand in a page wherever text can, also between
quotes: no character of it is markup (`Text.Inert`). And nothing of it is
lost: putting the characters back for which the references stand gives the
text again (`Text.unescape_escape`).

Escaping goes through the text once, so an ampersand that it puts in is not
escaped in turn. Replacing one character after the other in the whole text
does the same, as long as the ampersand is the first of them
(`Text.escape_eq_replace`).
-/

namespace Shortcode.Text

/-- **The references**, with the characters they stand for. -/
def references : List (Char × Text) :=
  [('&', "&amp;".toList), ('<', "&lt;".toList), ('>', "&gt;".toList),
    ('"', "&quot;".toList), ('\'', "&#x27;".toList)]

/-- A character that has a reference is escaped by it, any other one is left
as it is. -/
theorem escapeChar_cases (c : Char) :
    (c, escapeChar c) ∈ references
      ∨ (∀ r ∈ references, c ≠ r.1) ∧ escapeChar c = [c] := by
  unfold escapeChar
  split
  · exact .inl (by decide)
  · exact .inl (by decide)
  · exact .inl (by decide)
  · exact .inl (by decide)
  · exact .inl (by decide)
  · next h₁ h₂ h₃ h₄ h₅ =>
    refine .inr ⟨?_, rfl⟩
    simp only [references, List.forall_mem_cons]
    exact ⟨h₁, h₂, h₃, h₄, h₅, List.forall_mem_nil _⟩

theorem escape_cons (c : Char) (t : Text) :
    escape (c :: t) = escapeChar c ++ escape t :=
  List.flatMap_cons ..

/-! ## One character after the other -/

/-- A text with something in the place of each occurrence of a character. -/
def replace (c : Char) (r t : Text) : Text :=
  t.flatMap fun x => if x = c then r else [x]

theorem foldl_replace_append (rs : List (Char × Text)) (u v : Text) :
    rs.foldl (fun u r => replace r.1 r.2 u) (u ++ v)
      = rs.foldl (fun u r => replace r.1 r.2 u) u
        ++ rs.foldl (fun u r => replace r.1 r.2 u) v := by
  induction rs generalizing u v with
  | nil => rfl
  | cons r rs ih =>
    have hreplace : replace r.1 r.2 (u ++ v)
        = replace r.1 r.2 u ++ replace r.1 r.2 v := List.flatMap_append
    rw [List.foldl_cons, hreplace, ih]
    rfl

/-- **Escaping is replacing**, one character after the other and the
ampersand first. -/
theorem escape_eq_replace (t : Text) :
    escape t = references.foldl (fun u r => replace r.1 r.2 u) t := by
  induction t with
  | nil => rfl
  | cons c t ih =>
    have hchar : escapeChar c
        = references.foldl (fun u r => replace r.1 r.2 u) [c] := by
      rcases escapeChar_cases c with h | ⟨hno, h⟩
      · simp only [references, List.mem_cons, Prod.mk.injEq,
          List.not_mem_nil, or_false] at h
        rcases h with ⟨rfl, -⟩ | ⟨rfl, -⟩ | ⟨rfl, -⟩ | ⟨rfl, -⟩ | ⟨rfl, -⟩
        all_goals decide
      · have hkeep : ∀ r ∈ references, replace r.1 r.2 [c] = [c] := by
          intro r hr
          simp [replace, hno r hr]
        simp only [references, List.forall_mem_cons] at hkeep
        obtain ⟨h₁, h₂, h₃, h₄, h₅, -⟩ := hkeep
        simp only [references, List.foldl, h, h₁, h₂, h₃, h₄, h₅]
    rw [escape_cons, ih, hchar, ← foldl_replace_append, List.singleton_append]

/-! ## No character is markup -/

/-- **A text that is no markup**: it has no angle bracket and no quote, and
every ampersand begins a reference. -/
structure Inert (t : Text) : Prop where
  plain : ∀ c ∈ t, c ∉ ['<', '>', '"', '\'']
  reference : ∀ u v, t = u ++ '&' :: v →
    ∃ r ∈ references, r.2 <+: '&' :: v

theorem Inert.append {t u : Text} (ht : Inert t) (hu : Inert u) :
    Inert (t ++ u) where
  plain := List.forall_mem_append.mpr ⟨ht.plain, hu.plain⟩
  reference := by
    intro a b he
    rcases List.append_eq_append_iff.mp he with ⟨w, rfl, hu'⟩ | ⟨w, ha, hw⟩
    · exact hu.reference w b hu'
    · cases w with
      | nil => exact hu.reference [] b hw.symm
      | cons x w =>
        obtain ⟨rfl, rfl⟩ := List.cons.inj hw
        obtain ⟨r, hr, hprefix⟩ := ht.reference a w ha
        exact ⟨r, hr, hprefix.trans (List.prefix_append ..)⟩

/-- A reference is no markup: it begins with the only ampersand it has. -/
theorem inert_of_mem {c : Char} {r : Text} (h : (c, r) ∈ references) :
    Inert r where
  plain := by
    have hall : ∀ p ∈ references, ∀ x ∈ p.2, x ∉ ['<', '>', '"', '\''] := by
      simp [references]
    exact hall _ h
  reference := by
    intro u v he
    have hall : ∀ p ∈ references, '&' ∉ p.2.tail := by decide
    cases u with
    | nil => exact ⟨_, h, he ▸ List.prefix_rfl⟩
    | cons x u =>
      have hno : '&' ∉ r.tail := hall _ h
      rw [he] at hno
      exact absurd (List.mem_append_right u List.mem_cons_self) hno

/-- **An escaped text is no markup.** -/
theorem inert_escape (t : Text) : Inert (escape t) := by
  induction t with
  | nil => exact ⟨by simp [escape], by simp [escape]⟩
  | cons c t ih =>
    rw [escape_cons]
    refine Inert.append ?_ ih
    rcases escapeChar_cases c with h | ⟨hno, h⟩
    · exact inert_of_mem h
    · rw [h]
      constructor
      · intro x hx hmarkup
        obtain rfl := List.mem_singleton.mp hx
        have hall : ∀ x ∈ ['<', '>', '"', '\''],
            x ∈ references.map Prod.fst := by simp [references]
        obtain ⟨r, hr, he⟩ := List.mem_map.mp (hall x hmarkup)
        exact hno r hr he.symm
      · intro u v he
        have hmem : '&' ∈ [c] := he ▸ List.mem_append_right u
          List.mem_cons_self
        exact absurd (List.mem_singleton.mp hmem).symm
          (hno _ List.mem_cons_self)

/-! ## Nothing is lost -/

/-- The text with the character in the place of each reference. -/
def unescape : Text → Text
  | '&' :: 'a' :: 'm' :: 'p' :: ';' :: rest => '&' :: unescape rest
  | '&' :: 'l' :: 't' :: ';' :: rest => '<' :: unescape rest
  | '&' :: 'g' :: 't' :: ';' :: rest => '>' :: unescape rest
  | '&' :: 'q' :: 'u' :: 'o' :: 't' :: ';' :: rest => '"' :: unescape rest
  | '&' :: '#' :: 'x' :: '2' :: '7' :: ';' :: rest => '\'' :: unescape rest
  | c :: rest => c :: unescape rest
  | [] => []

theorem unescape_reference {c : Char} {r : Text} (h : (c, r) ∈ references)
    (t : Text) : unescape (r ++ t) = c :: unescape t := by
  simp only [references, List.mem_cons, Prod.mk.injEq, List.not_mem_nil,
    or_false] at h
  rcases h with ⟨rfl, rfl⟩ | ⟨rfl, rfl⟩ | ⟨rfl, rfl⟩ | ⟨rfl, rfl⟩ | ⟨rfl, rfl⟩
  all_goals rfl

theorem unescape_cons {c : Char} (h : c ≠ '&') (t : Text) :
    unescape (c :: t) = c :: unescape t := by
  rw [unescape]
  all_goals simp [h]

/-- **Nothing is lost by escaping.** -/
theorem unescape_escape (t : Text) : unescape (escape t) = t := by
  induction t with
  | nil => rfl
  | cons c t ih =>
    rw [escape_cons]
    rcases escapeChar_cases c with h | ⟨hno, h⟩
    · rw [unescape_reference h, ih]
    · rw [h, List.singleton_append, unescape_cons (hno _ List.mem_cons_self),
        ih]

end Shortcode.Text
