import Shortcode.Proofs.Seams
import Shortcode.Proofs.Spelling
import Shortcode.Settings

/-!
# Tags that differ in a value

The scanner passes over what stands between quotes. So where a tag ends does
not depend on the values in it, also when they hold delimiters or what looks
like a whole tag: if one of them is replaced with another one, between the
same quotes or between the others, the tag still ends behind the same text
(`Tag.EndsAfter.requoted`).

`Tag.Frame` is an opening tag but for one value. It is read with every value
that can stand between quotes (`Tag.Frame.exists_form`), and the value goes
into the arguments of the tag. From there on it stays where it is: what is
read of a text with such a tag is the same for all values of the same length,
but for the arguments of one invocation
(`Segment.parse_framed_cases`). If the text cannot be read, the same is wrong
with it at the same place.
-/

namespace Shortcode

/-! ## Where a tag with a value ends -/

namespace Text

/-- A text without a character ends in front of it. -/
theorem exists_of_append_eq_append_cons {t u x y : Text} {c : Char}
    (hc : c ∉ t) (h : t ++ u = x ++ c :: y) : ∃ z, x = t ++ z := by
  rcases List.append_eq_append_iff.mp h with ⟨z, rfl, -⟩ | ⟨z, rfl, hz⟩
  · exact ⟨z, rfl⟩
  · cases z with
    | nil => exact ⟨[], by simp⟩
    | cons b z =>
      obtain ⟨rfl, -⟩ := List.cons.inj hz
      exact absurd (List.mem_append_right x List.mem_cons_self) hc

end Text

namespace Tag

theorem quoteAfter_append (quote : Option Char) (t u : Text) :
    quoteAfter quote (t ++ u) = quoteAfter (quoteAfter quote t) u := by
  fun_induction quoteAfter quote t with
  | case1 => rfl
  | case2 q c t ih => exact ih
  | case3 c t ih => exact ih

theorem Passes.unquoted {stop : Char} {t : Text} (h : Passes stop t) :
    Unquoted t := by
  induction h with
  | nil => exact .nil
  | plain hc _ _ ih => exact .plain hc ih
  | quotation hq hv _ ih => exact .quotation hq hv ih

/-- Behind a quotation, a text is outside quotations if what follows is. -/
theorem unquoted_quotation_iff {lead v t : Text} {q : Char}
    (hlead : Unquoted lead) (hq : isQuote q = true) (hv : q ∉ v) :
    Unquoted (lead ++ q :: (v ++ q :: t)) ↔ Unquoted t := by
  rw [unquoted_iff, quoteAfter_append, unquoted_iff.mp hlead, quoteAfter,
    if_pos hq, quoteAfter_value hv, unquoted_iff]

/-- Inside a quotation no tag can end. -/
theorem not_unquoted_of_quotation {lead v : Text} {q : Char}
    (hlead : Unquoted lead) (hq : isQuote q = true) (hv : q ∉ v) :
    ¬Unquoted (lead ++ q :: v) := by
  rw [unquoted_iff, quoteAfter_append, unquoted_iff.mp hlead, quoteAfter,
    if_pos hq]
  intro h
  obtain ⟨value, rest, rfl, -, -⟩ := exists_of_quoteAfter h
  exact hv (List.mem_append_right value List.mem_cons_self)

/-- **Where a tag ends does not depend on its values.** A delimiter that
holds no quote stands in front of a quotation, inside it or behind it; in
front of it and behind it, nothing has changed. -/
theorem EndsAfter.requoted {closing lead trail v v' : Text} {q q' : Char}
    (hclosing : closing ≠ []) (hplain : ∀ c ∈ closing, isQuote c = false)
    (hlead : Unquoted lead) (hq : isQuote q = true) (hv : q ∉ v)
    (hq' : isQuote q' = true) (hv' : q' ∉ v')
    (h : EndsAfter closing (lead ++ q :: (v ++ q :: trail)) []) :
    EndsAfter closing (lead ++ q' :: (v' ++ q' :: trail)) [] := by
  have hnext : ∀ behind, NoQuoteNext (closing ++ behind) := by
    intro behind
    obtain ⟨c, rest, rfl⟩ := List.exists_cons_of_ne_nil hclosing
    exact ⟨c, rest ++ behind, rfl, hplain c List.mem_cons_self⟩
  have hmem : q' ∉ closing := fun hmem =>
    absurd hq' (by simp [hplain q' hmem])
  obtain ⟨⟨hunquoted, -⟩, hfirst⟩ := h
  have htrail : Unquoted trail :=
    (unquoted_quotation_iff hlead hq hv).mp hunquoted
  refine ⟨⟨(unquoted_quotation_iff hlead hq' hv').mpr htrail, hnext []⟩,
    fun u w he hu => ?_⟩
  simp only [List.append_assoc, List.cons_append, List.append_nil] at he
  rcases List.append_eq_append_iff.mp he with ⟨x, rfl, hx⟩ | ⟨x, rfl, hx⟩
  · cases x with
    | nil =>
      -- the delimiter would start with the quote
      obtain ⟨z, hz⟩ := Text.exists_of_append_eq_append_cons hmem
        (x := []) hx.symm
      exact absurd (List.append_eq_nil_iff.mp hz.symm).1 hclosing
    | cons c y =>
      obtain ⟨rfl, hy⟩ := List.cons.inj hx
      rcases List.append_eq_append_iff.mp hy with ⟨z, rfl, hz⟩ | ⟨z, rfl, -⟩
      · cases z with
        | nil =>
          rw [List.append_nil] at hu
          exact absurd hu.1 (not_unquoted_of_quotation hlead hq' hv')
        | cons c z =>
          -- behind the quotation, the place is one of the other tag
          obtain ⟨rfl, htail⟩ := List.cons.inj hz
          have hold : lead ++ q :: (v ++ q :: trail) ++ closing ++ []
              = lead ++ q :: (v ++ q :: z) ++ closing ++ w := by
            simpa using htail
          have hu' := (unquoted_quotation_iff hlead hq' hv').mp hu.1
          have hle := hfirst _ w hold
            ⟨(unquoted_quotation_iff hlead hq hv).mpr hu', hnext w⟩
          simp only [List.length_append, List.length_cons] at hle ⊢
          omega
      · have hy : q' ∉ y := fun hmem => hv' (List.mem_append_left z hmem)
        exact absurd hu.1 (not_unquoted_of_quotation hlead hq' hy)
  · -- in front of the quotation, the place is one of the other tag
    obtain ⟨z, rfl⟩ := Text.exists_of_append_eq_append_cons hmem hx
    have hold : u ++ (closing ++ z) ++ q :: (v ++ q :: trail) ++ closing ++ []
        = u ++ closing ++ (z ++ q :: (v ++ q :: (trail ++ closing))) := by
      simp
    have hle := hfirst u _ hold ⟨hu.1, hnext _⟩
    simp only [List.length_append, List.length_cons] at hle
    omega

end Tag

/-! ## Tags around a value -/

theorem Arguments.Written.append {args args' : Arguments} {t u : Text}
    (h : Written args t) (h' : Written args' u) :
    Written (args ++ args') (t ++ u) := by
  induction h with
  | nil => exact h'
  | cons hl hne ht _ ih =>
    rw [List.append_assoc, List.append_assoc]
    exact .cons hl hne ht ih

namespace Tag

/-- **An opening tag around a value**: all of its inside but for the value
and the quotes it stands in. The white space and the other arguments can be
written in any way. -/
structure Frame where
  name : Text
  key : Text
  /-- The arguments in front of the one with the value. -/
  before : Arguments
  /-- The arguments behind it. -/
  after : Arguments
  /-- The white space in front of the name. -/
  margin : Text
  /-- How the arguments in front are written. -/
  lead : Text
  /-- The white space in front of the key. -/
  gap : Text
  /-- How the arguments behind are written. -/
  trail : Text
  /-- The white space at the end. -/
  rest : Text
  isName : IsName name
  isKey : IsKey key
  isKey_before : ∀ a ∈ before, IsKey a.key
  isKey_after : ∀ a ∈ after, IsKey a.key
  blank_margin : Text.IsBlank margin
  written_lead : before.Written lead
  blank_gap : Text.IsBlank gap
  gap_ne_nil : gap ≠ []
  written_trail : after.Written trail
  blank_rest : Text.IsBlank rest

namespace Frame

variable (f : Frame) {v : Text} {q : Char}

/-- The arguments with a value. -/
def arguments (v : Text) : Arguments :=
  f.before ++ ⟨f.key, some v⟩ :: f.after

/-- What stands in front of the quotes. -/
def front : Text :=
  f.margin ++ (f.name ++ (f.lead ++ (f.gap ++ (f.key ++ ['=']))))

/-- The inside with a value between quotes. -/
def inside (q : Char) (v : Text) : Text :=
  f.front ++ q :: (v ++ q :: (f.trail ++ f.rest))

/-- A text with the tag, between other texts. -/
def written (d : Delimiters) (front rest : Text) (q : Char) (v : Text) :
    Text :=
  front ++ (d.opening ++ f.inside q v ++ d.closing) ++ rest

theorem length_inside (q : Char) (v : Text) :
    (f.inside q v).length
      = f.front.length + v.length + (f.trail ++ f.rest).length + 2 := by
  simp only [inside, List.length_append, List.length_cons]
  omega

theorem isKey_arguments (v : Text) : ∀ a ∈ f.arguments v, IsKey a.key := by
  unfold arguments
  rw [List.forall_mem_append, List.forall_mem_cons]
  exact ⟨f.isKey_before, f.isKey, f.isKey_after⟩

/-- **A tag around a value is an opening tag** with the value among its
arguments. -/
theorem exists_form (hq : isQuote q = true) (hv : q ∉ v) :
    ∃ a, Form (f.inside q v) .opening f.name a
      ∧ (f.arguments v).Spelled a := by
  have hw : (f.arguments v).Written (f.lead ++ (f.gap
      ++ ((f.key ++ '=' :: q :: (v ++ [q])) ++ f.trail))) :=
    f.written_lead.append
      (.cons f.blank_gap f.gap_ne_nil (.value hq hv) f.written_trail)
  have hk := f.isKey_arguments v
  have hspaced := hw.spaced Text.isBlank_nil
  have hparse := Arguments.parse_written hw hk Text.isBlank_nil
  rw [List.append_nil] at hspaced hparse
  refine ⟨_, ?_, Arguments.parse_eq_ok_iff_spelled.mp hparse⟩
  have h := Form.opening f.blank_margin f.isName
    (fun c hc => .inl (hspaced c hc)) (hw.getLast? hk) f.blank_rest
  simpa [inside, front] using h

theorem passes_front {stop : Char} (hs : IsStop stop) :
    Passes stop f.front :=
  (passes_of_isBlank hs f.blank_margin).append
    ((passes_of_isKeyRest hs f.isName.isKeyRest).append
      ((passes_arguments hs f.written_lead f.isKey_before).append
        ((passes_of_isBlank hs f.blank_gap).append
          ((passes_of_isKeyRest hs f.isKey.isKeyRest).append
            (.plain (by decide) hs.equals.symm .nil)))))

theorem unquoted_front : Unquoted f.front :=
  have hs : IsStop '%' :=
    ⟨by decide, by decide, by decide, by decide, by decide⟩
  (f.passes_front hs).unquoted

/-- With delimiters that do not get in the way of what is written, the tag
ends behind its inside. -/
theorem endsAfter {d : Delimiters} (hd : d.Plain) (hq : isQuote q = true)
    (hv : q ∉ v) : EndsAfter d.closing (f.inside q v) [] :=
  endsAfter_of_passes hd fun hs =>
    (f.passes_front hs).append (.quotation hq hv
      ((passes_arguments hs f.written_trail f.isKey_after).append
        (passes_of_isBlank hs f.blank_rest)))

end Frame

end Tag

/-! ## What is read of a text with a tag -/

/-- What stands apart from a mark stands apart from a text with the mark at
its front. -/
theorem Text.Apart.append_right {mark front : Text}
    (h : Apart mark front mark) (behind : Text) :
    Apart mark front (mark ++ behind) := by
  rw [apart_iff] at h ⊢
  intro k hk hm
  rw [← h k hk hm, ← List.append_assoc,
    List.drop_append_of_le_length (by simp; omega), Bool.eq_iff_iff,
    List.isPrefixOf_iff_prefix, List.isPrefixOf_iff_prefix]
  constructor
  · intro hp
    exact List.prefix_of_prefix_length_le hp (List.prefix_append ..)
      (by simp; omega)
  · intro hp
    exact hp.trans (List.prefix_append ..)

namespace Segment

variable {d : Delimiters} {front : Text} {origin : Int}

/-- **An opening tag behind a text** that can be read: what is behind the
tag is read as the body of a block, until that is closed. -/
theorem exists_parse_opening {segments : List Segment}
    (h : parse d front origin = .ok segments)
    (hapart : Text.Apart d.opening front d.opening) :
    ∃ first start, ∀ (t : Tag) (inside : Text) (args : Arguments)
      (rest : Text), t.StandsFor d inside → t.form = .opening →
      Arguments.parse t.argumentText = .ok args →
      parse d (front ++ (d.opening ++ inside ++ d.closing) ++ rest) origin
        = (assemble origin (Lexeme.scan d rest).fault
            (some ⟨t.name, args, start, start + t.source.length, [], []⟩)
            (start + t.source.length) (Lexeme.scan d rest).lexemes).map
              (first ++ ·) := by
  obtain ⟨first, last, n, -, -, ⟨u, hu⟩, hcut, hparse⟩ :=
    exists_of_parse_eq_ok h
  refine ⟨first ++ literals last n, n + last.length,
    fun t inside args rest ht hform hargs => ?_⟩
  have hlast := ((Text.Apart.of_append (hu ▸ hapart)).append_right
    (inside ++ (d.closing ++ rest))).cut?_append_mark hcut
  have hargs' : ∀ name base,
      Arguments.parse t.argumentText name base = .ok args := fun name base =>
    Arguments.parse_eq_ok_iff_spelled.mpr
      (Arguments.parse_eq_ok_iff_spelled.mp hargs)
  have hwhole : front ++ (d.opening ++ inside ++ d.closing) ++ rest
      = front ++ (d.opening ++ (inside ++ (d.closing ++ rest))) := by simp
  rw [hwhole, hparse, Lexeme.scan_of_read hlast (ht.read rest),
    Lexeme.consLiteral_eq]
  dsimp only [Lexeme.prepend]
  rw [assemble_literals, map_append_map, List.singleton_append, assemble,
    hform]
  dsimp only
  rw [hargs']

/-- **The arguments of the open block stay where they are** until it is
closed, and are not looked at. -/
theorem assemble_readdressed_cases (origin : Int) (fault : Option TagFault)
    (b : OpenBlock) (args : Arguments) (n : Nat) (ls : List Lexeme) :
    (∃ e, assemble origin fault (some b) n ls = .error e
        ∧ assemble origin fault (some { b with arguments := args }) n ls
          = .error e)
      ∨ ∃ inv rest, inv.name = b.name ∧ inv.arguments = b.arguments
        ∧ (∃ body, inv.body = some body)
        ∧ assemble origin fault (some b) n ls
          = .ok (.invocation inv :: rest)
        ∧ assemble origin fault (some { b with arguments := args }) n ls
          = .ok (.invocation { inv with arguments := args } :: rest) := by
  induction ls generalizing b n with
  | nil =>
    left
    rw [assemble, assemble]
    cases fault <;> exact ⟨_, rfl, rfl⟩
  | cons l ls ih =>
    cases l with
    | literal t =>
      rw [assemble, assemble]
      exact ih (b.extend t) _
    | tag t =>
      rw [assemble, assemble]
      dsimp only
      cases t.form with
      | selfClosing => exact ih (b.extend t.source) _
      | opening => exact ih (OpenBlock.extend { b with inner := _ } _) _
      | closing =>
        have hinner : OpenBlock.innermost { b with arguments := args }
            = b.innermost := rfl
        dsimp only
        rw [hinner]
        by_cases hn : t.name = b.innermost.1
        · rw [if_pos hn, if_pos hn]
          cases hb : b.inner with
          | nil =>
            dsimp only
            cases assemble origin fault none (n + t.source.length) ls with
            | error e => exact .inl ⟨e, rfl, rfl⟩
            | ok rest => exact .inr ⟨_, rest, rfl, rfl, ⟨_, rfl⟩, rfl, rfl⟩
          | cons p inner =>
            exact ih (OpenBlock.extend { b with inner := inner } _) _
        · rw [if_neg hn, if_neg hn]
          exact .inl ⟨_, rfl, rfl⟩

/-- **A value stays in the arguments of its tag.** Take a text with a tag
around a value, behind something that can be read, and the same text with
another value of that length. Either the same is wrong with both at the same
place, or they are read to the same segments, but for the arguments of the
block that the tag opens. -/
theorem parse_framed_cases (f : Tag.Frame) {segments : List Segment}
    {q q' : Char} {v v' : Text} (hd : Settings.IsDelimiter d.closing)
    (h : parse d front = .ok segments)
    (hapart : Text.Apart d.opening front d.opening)
    (hq : Tag.isQuote q = true) (hv : q ∉ v)
    (hq' : Tag.isQuote q' = true) (hv' : q' ∉ v')
    (hlen : v'.length = v.length)
    (hends : Tag.EndsAfter d.closing (f.inside '"' []) []) (rest : Text)
    (origin : Int) :
    (∃ e, parse d (f.written d front rest q v) origin = .error e
        ∧ parse d (f.written d front rest q' v') origin = .error e)
      ∨ ∃ before inv after, inv.name = f.name
        ∧ inv.arguments = f.arguments v ∧ (∃ body, inv.body = some body)
        ∧ parse d (f.written d front rest q v) origin
          = .ok (before ++ .invocation inv :: after)
        ∧ parse d (f.written d front rest q' v') origin
          = .ok (before
            ++ .invocation { inv with arguments := f.arguments v' }
              :: after) := by
  have hplain : ∀ c ∈ d.closing, Tag.isQuote c = false := fun c hc =>
    Tag.isQuote_of_class (p := fun c => !Settings.reservedCharacters.contains c)
      rfl rfl (by simpa using hd.2 c hc)
  have hany : ∀ {q : Char} {v : Text}, Tag.isQuote q = true → q ∉ v →
      Tag.EndsAfter d.closing (f.inside q v) [] := fun hq hv =>
    hends.requoted hd.1 hplain f.unquoted_front (by decide)
      (List.not_mem_nil) hq hv
  obtain ⟨a, hform, hargs⟩ := f.exists_form hq hv
  obtain ⟨a', hform', hargs'⟩ := f.exists_form hq' hv'
  obtain ⟨t, ht, hopening, hname, rfl⟩ :=
    Tag.exists_standsFor (hany hq hv) hform
  obtain ⟨t', ht', hopening', hname', rfl⟩ :=
    Tag.exists_standsFor (hany hq' hv') hform'
  have hsource : t'.source.length = t.source.length := by
    rw [ht'.source, ht.source]
    simp only [List.length_append]
    rw [f.length_inside, f.length_inside, hlen]
  have hmoved := parse_moved d front 0 origin
  rw [h] at hmoved
  obtain ⟨first, start, hparse⟩ := exists_parse_opening hmoved hapart
  unfold Tag.Frame.written
  rw [hparse t _ _ rest ht hopening
      (Arguments.parse_eq_ok_iff_spelled.mpr hargs),
    hparse t' _ _ rest ht' hopening'
      (Arguments.parse_eq_ok_iff_spelled.mpr hargs'), hname, hname', hsource]
  rcases assemble_readdressed_cases origin (Lexeme.scan d rest).fault
    ⟨f.name, f.arguments v, start, start + t.source.length, [], []⟩
    (f.arguments v') (start + t.source.length) (Lexeme.scan d rest).lexemes
    with ⟨e, he, he'⟩ | ⟨inv, after, hn, ha, hbody, he, he'⟩
  · exact .inl ⟨e, by rw [he]; rfl, by rw [he']; rfl⟩
  · exact .inr ⟨first, inv, after, hn, ha, hbody, by rw [he]; rfl,
      by rw [he']; rfl⟩

end Segment

end Shortcode
