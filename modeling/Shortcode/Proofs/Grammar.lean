import Shortcode.Proofs.Tags
import Shortcode.Segment.Parse

/-!
# The language of texts

Which texts can be read is said here without the scanner and without its
stack. `TagsFrom` gives the tags of a text, from left to right, as a
relation; `Derives` is the grammar of brackets over them,

  `D ::= empty | self D | open(n) D close(n) D`,

and tells the productions of its top level, which is all that is read of
a text at first.

The scanner finds the tags (`tagsFrom_iff`). The grammar is recursive
and reading is not, so a third notion stands between them: `Unwinds`
says what a stack of open blocks still demands of the tags to come. Its
step lemmas, one for each form of a tag, are what the stack is reasoned
about with.
-/

namespace Shortcode

/-! ## The tags of a text -/

/-- A tag in a text: what was read of it, and its span. -/
structure PlacedTag where
  form : TagForm
  name : Text
  argumentText : Text
  start : Nat
  stop : Nat
deriving DecidableEq, Repr, Inhabited

/-- **The tags of a text**, from left to right, where the text stands
behind `n` characters. A tag starts at the first occurrence of the
opening delimiter, ends at its end, and has one of the forms; the next
one is looked for behind it. -/
inductive TagsFrom (d : Delimiters) : Nat → Text → List PlacedTag → Prop
  | done {n : Nat} {text : Text} :
      (∀ u v, text ≠ u ++ d.opening ++ v) → TagsFrom d n text []
  | tag {n : Nat} {before inside behind : Text} {t : PlacedTag}
      {ts : List PlacedTag} :
      Text.IsFirst d.opening before (inside ++ d.closing ++ behind) →
      Tag.EndsAfter d.closing inside behind →
      Tag.Form inside t.form t.name t.argumentText →
      t.start = n + before.length →
      t.stop = t.start + (d.opening ++ inside ++ d.closing).length →
      TagsFrom d t.stop behind ts →
      TagsFrom d n
        (before ++ d.opening ++ (inside ++ d.closing ++ behind)) (t :: ts)

/-- A tag that was read, at a position. -/
def Tag.placed (t : Tag) (n : Nat) : PlacedTag :=
  ⟨t.form, t.name, t.argumentText, n, n + t.source.length⟩

namespace Lexeme

/-- The tags among pieces that start at a position. -/
def placed : Nat → List Lexeme → List PlacedTag
  | _, [] => []
  | n, .literal t :: rest => placed (n + t.length) rest
  | n, .tag t :: rest => t.placed n :: placed (n + t.source.length) rest

/-- How many characters pieces take up. -/
def size (ls : List Lexeme) : Nat :=
  (ls.flatMap source).length

@[simp] theorem size_nil : size [] = 0 := rfl

@[simp] theorem size_cons (l : Lexeme) (ls : List Lexeme) :
    size (l :: ls) = l.source.length + size ls := by
  simp [size]

/-- A literal piece in front moves the tags by its length. -/
theorem placed_consLiteral (n : Nat) (t : Text) (s : Scan) :
    placed n (consLiteral t s).lexemes = placed (n + t.length) s.lexemes := by
  unfold consLiteral
  split
  · next h => simp [List.isEmpty_iff.mp h]
  · rfl

end Lexeme

/-- The tags of a text that is read are the tag at its front and those
behind it. -/
theorem tagsFrom_of_read {d : Delimiters} {n : Nat}
    {text before rest behind : Text} {tag : Tag} {ts : List PlacedTag}
    (hc : Text.cut? d.opening text = some (before, rest))
    (hr : Tag.read d rest = .ok (tag, behind)) :
    TagsFrom d n text ts
      ↔ ∃ ts', ts = tag.placed (n + before.length) :: ts'
        ∧ TagsFrom d (n + before.length + tag.source.length) behind ts' := by
  obtain ⟨inside, hi, hend, ht⟩ := Tag.read_eq_ok_iff.mp hr
  obtain ⟨he, hfirst⟩ := Text.cut?_eq_some_iff.mp hc
  have hsource := Tag.source_ofInside ht
  constructor
  · intro h
    cases h with
    | done hno => exact absurd he (hno before rest)
    | @tag _ before' inside' behind' t ts' hfirst' hend' hform hstart hstop hts =>
      rw [Text.cut?_eq_some_iff.mpr ⟨rfl, hfirst'⟩] at hc
      obtain ⟨rfl, rfl⟩ := Prod.mk.inj (Option.some.inj hc)
      obtain ⟨tag', ht', hf, hn, ha⟩ := Tag.ofInside_of_form d hform
      rw [Tag.read_eq_ok_iff.mpr ⟨inside', rfl, hend', ht'⟩] at hr
      obtain ⟨rfl, rfl⟩ := Prod.mk.inj (Except.ok.inj hr)
      rw [← Tag.source_ofInside ht', hstart] at hstop
      refine ⟨ts', ?_, hstop ▸ hts⟩
      unfold Tag.placed
      rw [hf, hn, ha, ← hstop, ← hstart]
  · rintro ⟨ts', rfl, hts⟩
    subst he hi
    refine .tag hfirst hend (Tag.form_of_ofInside ht) rfl ?_ hts
    unfold Tag.placed
    rw [hsource]

/-- **The scanner finds the tags of a text** and no others; a fault ends
the pieces of a text that is no sequence of tags. -/
theorem tagsFrom_iff {d : Delimiters} {n : Nat} {text : Text}
    {ts : List PlacedTag} :
    TagsFrom d n text ts
      ↔ (Lexeme.scan d text).fault = none
        ∧ ts = Lexeme.placed n (Lexeme.scan d text).lexemes := by
  fun_induction Lexeme.scan d text generalizing n ts with
  | case1 text h =>
    rw [Lexeme.fault_consLiteral, Lexeme.placed_consLiteral]
    constructor
    · intro ht
      refine ⟨rfl, ?_⟩
      cases ht with
      | done _ => rfl
      | tag => exact absurd rfl (Text.cut?_none h _ _)
    · rintro ⟨_, rfl⟩
      exact .done (Text.cut?_none h)
  | case2 text before rest h fault h' =>
    rw [Lexeme.fault_consLiteral]
    constructor
    · intro ht
      cases ht with
      | done hno => exact absurd (Text.cut?_eq h) (hno before rest)
      | tag hfirst hend hform =>
        rw [Text.cut?_eq_some_iff.mpr ⟨rfl, hfirst⟩] at h
        obtain ⟨rfl, rfl⟩ := Prod.mk.inj (Option.some.inj h)
        obtain ⟨tag, ht, _⟩ := Tag.ofInside_of_form d hform
        rw [Tag.read_eq_ok_iff.mpr ⟨_, rfl, hend, ht⟩] at h'
        simp at h'
    · rintro ⟨hf, _⟩
      simp at hf
  | case3 text before rest h t behind h' s =>
    rename_i ih
    rw [Lexeme.fault_consLiteral, Lexeme.placed_consLiteral,
      tagsFrom_of_read h h']
    constructor
    · rintro ⟨ts', rfl, hts⟩
      obtain ⟨hf, rfl⟩ := ih.mp hts
      exact ⟨hf, rfl⟩
    · rintro ⟨hf, rfl⟩
      exact ⟨_, rfl, ih.mpr ⟨hf, rfl⟩⟩

/-! ## Brackets -/

/-- What stands at the top level of a sequence of tags: a self-closing
tag, or an opening tag with the closing tag that belongs to it. -/
inductive Production where
  | single (t : PlacedTag)
  | block (opened closed : PlacedTag)
deriving DecidableEq, Repr, Inhabited

/-- **The bracket grammar.** A sequence of tags is empty, or starts with
a self-closing tag, or starts with an opening tag, a sequence, and a
closing tag of the same name; and goes on with a sequence. What it is
made of at its top level is told in order. -/
inductive Derives : List PlacedTag → List Production → Prop
  | nil : Derives [] []
  | single {t : PlacedTag} {ts : List PlacedTag} {ps : List Production} :
      t.form = .selfClosing → Derives ts ps →
      Derives (t :: ts) (.single t :: ps)
  | block {o c : PlacedTag} {inner ts : List PlacedTag}
      {qs ps : List Production} :
      o.form = .opening → c.form = .closing → o.name = c.name →
      Derives inner qs → Derives ts ps →
      Derives (o :: (inner ++ c :: ts)) (.block o c :: ps)

/-- Where a production starts. -/
def Production.start : Production → Nat
  | .single t => t.start
  | .block o _ => o.start

/-- Productions start where tags do, in the same order. -/
theorem Derives.sublist {ts : List PlacedTag} {ps : List Production}
    (h : Derives ts ps) :
    (ps.map Production.start).Sublist (ts.map PlacedTag.start) := by
  induction h with
  | nil => exact .slnil
  | single _ _ ih => exact ih.cons_cons _
  | @block o c inner ts _ _ _ _ _ _ _ _ ih =>
    refine List.Sublist.cons_cons _ (ih.trans ?_)
    rw [List.map_append, List.map_cons]
    exact (List.sublist_cons_self ..).trans (List.sublist_append_right ..)

/-- The tag at the front of a production. -/
def Production.opened : Production → PlacedTag
  | .single t => t
  | .block o _ => o

/-- The tag that a production starts with opens it. -/
theorem Derives.opened_mem {ts : List PlacedTag} {ps : List Production}
    (h : Derives ts ps) :
    ∀ p ∈ ps, p.opened ∈ ts ∧ p.opened.form ≠ .closing := by
  induction h with
  | nil => simp
  | @single t ts ps hf _ ih =>
    refine List.forall_mem_cons.mpr
      ⟨⟨List.mem_cons_self, by simp [Production.opened, hf]⟩, fun p hp => ?_⟩
    exact (ih p hp).imp_left (List.mem_cons_of_mem _)
  | @block o c inner ts qs ps hf _ _ _ _ _ ih =>
    refine List.forall_mem_cons.mpr
      ⟨⟨List.mem_cons_self, by simp [Production.opened, hf]⟩, fun p hp => ?_⟩
    exact (ih p hp).imp_left fun hmem => List.mem_cons_of_mem _
      (List.mem_append_right _ (List.mem_cons_of_mem _ hmem))

/-- A self-closing tag in front stands for itself. -/
theorem derives_selfClosing {t : PlacedTag} {ts : List PlacedTag}
    {ps : List Production} (ht : t.form = .selfClosing) :
    Derives (t :: ts) ps ↔ ∃ qs, Derives ts qs ∧ ps = .single t :: qs := by
  constructor
  · intro h
    cases h with
    | single _ h => exact ⟨_, h, rfl⟩
    | block ho => simp [ht] at ho
  · rintro ⟨qs, h, rfl⟩
    exact .single ht h

/-- An opening tag in front opens a block, which ends at a closing tag
of its name. -/
theorem derives_opening {t : PlacedTag} {ts : List PlacedTag}
    {ps : List Production} (ht : t.form = .opening) :
    Derives (t :: ts) ps
      ↔ ∃ inner c rest qs, ts = inner ++ c :: rest ∧ c.form = .closing
        ∧ c.name = t.name ∧ (∃ rs, Derives inner rs) ∧ Derives rest qs
        ∧ ps = .block t c :: qs := by
  constructor
  · intro h
    cases h with
    | single hs => simp [ht] at hs
    | @block _ c inner rest rs qs _ hc hn hi hr =>
      exact ⟨inner, c, rest, qs, rfl, hc, hn.symm, ⟨rs, hi⟩, hr, rfl⟩
  · rintro ⟨inner, c, rest, qs, rfl, hc, hn, ⟨rs, hi⟩, hr, rfl⟩
    exact .block ht hc hn.symm hi hr

/-- No sequence starts with a closing tag. -/
theorem not_derives_closing {t : PlacedTag} {ts : List PlacedTag}
    {ps : List Production} (ht : t.form = .closing) :
    ¬Derives (t :: ts) ps := by
  intro h
  cases h with
  | single hs => simp [ht] at hs
  | block ho => simp [ht] at ho

/-- What blocks that are open, the innermost first, demand of the tags
that follow: a sequence and a closing tag for each of them, and then a
sequence. -/
def Unwinds : List Text → List PlacedTag → Prop
  | [], ts => ∃ ps, Derives ts ps
  | name :: stack, ts =>
    ∃ inner c rest ps, ts = inner ++ c :: rest ∧ Derives inner ps
      ∧ c.form = .closing ∧ c.name = name ∧ Unwinds stack rest

/-- Only with no open block nothing need follow. -/
theorem unwinds_nil {stack : List Text} : Unwinds stack [] ↔ stack = [] := by
  cases stack with
  | nil => exact ⟨fun _ => rfl, fun _ => ⟨[], .nil⟩⟩
  | cons name stack => simp [Unwinds]

/-- A self-closing tag leaves the open blocks as they are. -/
theorem unwinds_selfClosing {stack : List Text} {t : PlacedTag}
    {ts : List PlacedTag} (ht : t.form = .selfClosing) :
    Unwinds stack (t :: ts) ↔ Unwinds stack ts := by
  cases stack with
  | nil =>
    constructor
    · rintro ⟨_, h⟩
      obtain ⟨qs, h, _⟩ := (derives_selfClosing ht).mp h
      exact ⟨qs, h⟩
    · rintro ⟨_, h⟩
      exact ⟨_, .single ht h⟩
  | cons name stack =>
    constructor
    · rintro ⟨inner, c, rest, ps, he, hi, hc, hn, hu⟩
      cases inner with
      | nil =>
        obtain ⟨rfl, rfl⟩ := List.cons.inj he
        simp [ht] at hc
      | cons x inner =>
        obtain ⟨rfl, rfl⟩ := List.cons.inj he
        obtain ⟨qs, hi, _⟩ := (derives_selfClosing ht).mp hi
        exact ⟨inner, c, rest, qs, rfl, hi, hc, hn, hu⟩
    · rintro ⟨inner, c, rest, ps, rfl, hi, hc, hn, hu⟩
      exact ⟨t :: inner, c, rest, _, rfl, .single ht hi, hc, hn, hu⟩

/-- A closing tag closes the innermost open block, which it names. -/
theorem unwinds_closing {stack : List Text} {t : PlacedTag}
    {ts : List PlacedTag} (ht : t.form = .closing) :
    Unwinds stack (t :: ts)
      ↔ ∃ stack', stack = t.name :: stack' ∧ Unwinds stack' ts := by
  cases stack with
  | nil =>
    constructor
    · rintro ⟨_, h⟩
      exact absurd h (not_derives_closing ht)
    · rintro ⟨_, h, _⟩
      simp at h
  | cons name stack =>
    constructor
    · rintro ⟨inner, c, rest, ps, he, hi, hc, rfl, hu⟩
      cases inner with
      | nil =>
        obtain ⟨rfl, rfl⟩ := List.cons.inj he
        exact ⟨stack, rfl, hu⟩
      | cons x inner =>
        obtain ⟨rfl, _⟩ := List.cons.inj he
        exact absurd hi (not_derives_closing ht)
    · rintro ⟨_, he, hu⟩
      obtain ⟨rfl, rfl⟩ := List.cons.inj he
      exact ⟨[], t, ts, [], rfl, .nil, ht, rfl, hu⟩

/-- An opening tag opens a block inside the others. -/
theorem unwinds_opening {stack : List Text} {t : PlacedTag}
    {ts : List PlacedTag} (ht : t.form = .opening) :
    Unwinds stack (t :: ts) ↔ Unwinds (t.name :: stack) ts := by
  constructor
  · intro h
    cases stack with
    | nil =>
      obtain ⟨_, h⟩ := h
      obtain ⟨inner, c, rest, qs, rfl, hc, hn, ⟨rs, hi⟩, hr, _⟩ :=
        (derives_opening ht).mp h
      exact ⟨inner, c, rest, rs, rfl, hi, hc, hn, qs, hr⟩
    | cons name stack =>
      obtain ⟨inner, c, rest, ps, he, hi, hc, hn, hu⟩ := h
      cases inner with
      | nil =>
        obtain ⟨rfl, rfl⟩ := List.cons.inj he
        simp [ht] at hc
      | cons x inner =>
        obtain ⟨rfl, rfl⟩ := List.cons.inj he
        -- the block's own closing tag comes first, then the outer one
        obtain ⟨inner', c', rest', qs, rfl, hc', hn', ⟨rs, hi'⟩, hr', _⟩ :=
          (derives_opening ht).mp hi
        exact ⟨inner', c', rest' ++ c :: rest, rs,
          List.append_assoc inner' (c' :: rest') (c :: rest), hi', hc', hn',
          rest', c, rest, qs, rfl, hr', hc, hn, hu⟩
  · rintro ⟨inner, c, rest, ps, rfl, hi, hc, hn, hu⟩
    cases stack with
    | nil =>
      obtain ⟨_, hr⟩ := hu
      exact ⟨_, .block ht hc hn.symm hi hr⟩
    | cons name stack =>
      obtain ⟨inner', c', rest', ps', rfl, hi', hc', hn', hu'⟩ := hu
      refine ⟨t :: (inner ++ c :: inner'), c', rest', _, ?_,
        .block ht hc hn.symm hi hi', hc', hn', hu'⟩
      simp

end Shortcode
