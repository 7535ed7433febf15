/-!
# Texts

A text is the list of its characters. Every position, span and length
of this library counts characters, so a list is the representation in
which a position is what it looks like, and in which a scanner can hand
on what it has not read yet.

`Text.cut?` finds the first occurrence of a mark and gives the text on
both sides of it. Its two laws, `cut?_eq` and `cut?_none`, are what the
scanners are reasoned about with.
-/

namespace Shortcode

/-- A text: the list of its characters. -/
abbrev Text := List Char

namespace Text

/-- Cut a text at the first occurrence of a mark: what stands before it
and what stands behind it. The empty mark occurs at the front. -/
def cut? (mark : Text) : Text → Option (Text × Text)
  | [] => if mark.isEmpty then some ([], []) else none
  | c :: rest =>
    if mark.isPrefixOf (c :: rest) then
      some ([], (c :: rest).drop mark.length)
    else
      (cut? mark rest).map fun (before, behind) => (c :: before, behind)

/-- The mark occurs somewhere in the text. -/
def has (mark text : Text) : Bool :=
  (cut? mark text).isSome

/-- Texts joined with a separator between neighbours. -/
def join (separator : Text) (texts : List Text) : Text :=
  separator.intercalate texts

/-- A number in decimal notation. -/
def ofInt (n : Int) : Text :=
  (toString n).toList

/-- **A cut loses nothing**: the mark stands where the text was cut. -/
theorem cut?_eq {mark text before behind : Text}
    (h : cut? mark text = some (before, behind)) :
    text = before ++ mark ++ behind := by
  induction text generalizing before behind with
  | nil =>
    simp only [cut?] at h
    split at h
    · next hm =>
      obtain ⟨rfl, rfl⟩ := by simpa using h
      simpa using hm
    · simp at h
  | cons c rest ih =>
    simp only [cut?] at h
    split at h
    · next hp =>
      obtain ⟨rfl, rfl⟩ := by simpa using h
      have := List.prefix_iff_eq_append.mp (List.isPrefixOf_iff_prefix.mp hp)
      simpa using this.symm
    · obtain ⟨⟨b, r⟩, hb, he⟩ := Option.map_eq_some_iff.mp h
      obtain ⟨rfl, rfl⟩ := by simpa using he
      simp [ih hb]

/-- **No cut means no mark**: the mark is nowhere in the text. -/
theorem cut?_none {mark text : Text} (h : cut? mark text = none)
    (before behind : Text) : text ≠ before ++ mark ++ behind := by
  induction text generalizing before with
  | nil =>
    intro he
    have : mark = [] := by
      simp only [List.append_assoc] at he
      exact (List.append_eq_nil_iff.mp (List.append_eq_nil_iff.mp he.symm).2).1
    simp [cut?, this] at h
  | cons c rest ih =>
    simp only [cut?] at h
    split at h
    · simp at h
    · next hp =>
      have hr : cut? mark rest = none := by simpa using h
      cases before with
      | nil =>
        intro he
        apply hp
        rw [he]
        exact List.isPrefixOf_iff_prefix.mpr ⟨behind, by simp⟩
      | cons b before =>
        intro he
        simp only [List.cons_append, List.cons.injEq] at he
        exact ih hr before he.2

/-- What stands behind the first occurrence is no longer than the text. -/
theorem length_behind_le {mark text before behind : Text}
    (h : cut? mark text = some (before, behind)) :
    behind.length ≤ text.length := by
  have := congrArg List.length (cut?_eq h)
  simp only [List.length_append] at this
  omega

end Text

end Shortcode
