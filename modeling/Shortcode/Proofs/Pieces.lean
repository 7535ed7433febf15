import Shortcode.Proofs.Reading

/-!
# The pieces of a part of a text

What the scanner cuts a text into does not depend on where the text was
cut out of. Behind a tag it goes on as at the front of a text
(`Lexeme.exists_of_scan_eq`), and the text in front of a tag has the
pieces that it has there when it stands alone (`Lexeme.scan_sources`).
The second is not obvious: that a text ends early could lose the end of
a tag, or find an opening delimiter nowhere else. It holds because an
occurrence of a delimiter that is found lies in front of what is cut
off, and because a tag that was read shows that the closing delimiter is
not empty.

For the top level of a text, `Segment.Assembled` says what its pieces
are put together to: literal text and self-closing tags by themselves,
and an opening tag with everything up to the closing tag that belongs to
it.
-/

namespace Shortcode

/-! ## Texts that end early -/

namespace Text

variable {mark before behind more : Text}

/-- A first occurrence is one too if less text stands behind it. -/
theorem IsFirst.of_append (h : IsFirst mark before (behind ++ more)) :
    IsFirst mark before behind := by
  intro u v he
  refine h u (v ++ more) ?_
  rw [← List.append_assoc, he, List.append_assoc]

/-- A text is cut where it was cut when it went on. -/
theorem cut?_of_append {text : Text}
    (h : cut? mark (text ++ more) = some (before, behind ++ more)) :
    cut? mark text = some (before, behind) := by
  obtain ⟨he, hf⟩ := cut?_eq_some_iff.mp h
  rw [← List.append_assoc] at he
  exact cut?_eq_some_iff.mpr ⟨List.append_cancel_right he, hf.of_append⟩

/-- The text in front of the first occurrence of a mark is not cut. -/
theorem cut?_before {text : Text} (hm : mark ≠ [])
    (h : cut? mark text = some (before, behind)) :
    cut? mark before = none := by
  have hf : IsFirst mark before ([] ++ behind) := (cut?_eq_some_iff.mp h).2
  exact cut?_eq_none_iff.mpr (hf.of_append.ne hm)

end Text

namespace Tag

variable {d : Delimiters} {text behind more : Text} {tag : Tag}

/-- An inside that has a form does not start with a quote. -/
theorem Form.noQuoteNext {inside name args : Text} {form : TagForm}
    (h : Form inside form name args) : NoQuoteNext inside := by
  -- white space, or else the first character behind it
  have hlead : ∀ {lead rest : Text}, Text.IsBlank lead →
      NoQuoteNext rest → NoQuoteNext (lead ++ rest) := by
    intro lead rest hl hr
    cases lead with
    | nil => exact hr
    | cons c lead =>
      exact ⟨c, _, rfl, isQuote_of_isBlank (hl c (List.mem_cons_self ..))⟩
  have hname : ∀ {rest : Text}, IsName name → NoQuoteNext (name ++ rest) := by
    rintro rest ⟨c, name, rfl, hc, _⟩
    exact ⟨c, _, rfl, isQuote_of_class (by decide) (by decide) hc⟩
  cases h with
  | closing hl => exact hlead hl ⟨'/', _, rfl, by decide⟩
  | selfClosing hl hn => exact hlead hl (hname hn)
  | opening hl hn => exact hlead hl (hname hn)

/-- **Tags end with something**: where the closing delimiter is empty, no
tag is read. -/
theorem closing_ne_nil (h : read d text = .ok (tag, behind)) :
    d.closing ≠ [] := by
  intro hc
  obtain ⟨inside, -, hend, ht⟩ := read_eq_ok_iff.mp h
  obtain ⟨c, rest, rfl, hq⟩ := (form_of_ofInside ht).noQuoteNext
  rw [hc] at hend
  -- the tag could have ended in front of its inside
  have hle := hend.2 [] (c :: rest ++ behind) (by simp)
    ⟨.nil, c, rest ++ behind, rfl, hq⟩
  simp at hle

/-- A tag ends where it ended when the text went on. -/
theorem EndsAfter.of_append {closing inside : Text} (hc : closing ≠ [])
    (h : EndsAfter closing inside (behind ++ more)) :
    EndsAfter closing inside behind := by
  obtain ⟨c, rest, rfl⟩ := List.exists_cons_of_ne_nil hc
  obtain ⟨⟨hu, c', rest', he, hq⟩, hmin⟩ := h
  obtain ⟨rfl, -⟩ := List.cons.inj he
  refine ⟨⟨hu, c, _, rfl, hq⟩, fun u v hv hcan => ?_⟩
  refine hmin u (v ++ more) ?_ ⟨hcan.1, c, _, rfl, hq⟩
  rw [← List.append_assoc, hv, List.append_assoc]

/-- **A tag is read** as it was read when the text went on. -/
theorem read_of_append
    (h : read d (text ++ more) = .ok (tag, behind ++ more)) :
    read d text = .ok (tag, behind) := by
  obtain ⟨inside, he, hend, ht⟩ := read_eq_ok_iff.mp h
  rw [← List.append_assoc] at he
  exact read_eq_ok_iff.mpr ⟨inside, List.append_cancel_right he,
    hend.of_append (closing_ne_nil h), ht⟩

/-- How a tag is written that was read: it has something inside. -/
def Bounded (d : Delimiters) (t : Tag) : Prop :=
  ∃ inside, inside ≠ [] ∧ t.source = d.opening ++ inside ++ d.closing

theorem bounded_of_read (h : read d text = .ok (tag, behind)) :
    tag.Bounded d := by
  obtain ⟨inside, -, -, ht⟩ := read_eq_ok_iff.mp h
  exact ⟨inside, inside_ne_nil ht, source_ofInside ht⟩

theorem Bounded.length_pos (h : tag.Bounded d) : 0 < tag.source.length := by
  obtain ⟨inside, hne, hs⟩ := h
  have := List.length_pos_iff.mpr hne
  rw [hs, List.length_append, List.length_append]
  omega

end Tag

namespace Lexeme

variable {d : Delimiters} {text : Text}

/-! ## The scanner, step by step -/

/-- Pieces in front of others. -/
def prepend (ls : List Lexeme) (s : Scan) : Scan :=
  { s with lexemes := ls ++ s.lexemes }

theorem prepend_prepend (ls ms : List Lexeme) (s : Scan) :
    prepend ls (prepend ms s) = prepend (ls ++ ms) s := by
  unfold prepend
  rw [List.append_assoc]

theorem scan_of_cut?_eq_none (h : Text.cut? d.opening text = none) :
    scan d text = consLiteral text ⟨[], none⟩ := by
  rw [scan]
  split
  · rfl
  · next h' =>
    rw [h] at h'
    simp at h'

theorem scan_of_read {before rest behind : Text} {t : Tag}
    (h : Text.cut? d.opening text = some (before, rest))
    (hr : Tag.read d rest = .ok (t, behind)) :
    scan d text = consLiteral before (prepend [.tag t] (scan d behind)) := by
  rw [scan]
  split
  · next h' =>
    rw [h] at h'
    simp at h'
  · next b r h' =>
    obtain ⟨rfl, rfl⟩ := Prod.mk.inj (Option.some.inj (h.symm.trans h'))
    split
    · next f hr' =>
      rw [hr] at hr'
      simp at hr'
    · next t' behind' hr' =>
      obtain ⟨rfl, rfl⟩ := Prod.mk.inj (Except.ok.inj (hr.symm.trans hr'))
      rfl

theorem scan_nil (hd : d.opening ≠ []) : scan d [] = ⟨[], none⟩ := by
  have hc : Text.cut? d.opening [] = none := by
    rw [Text.cut?, if_neg (by simpa using hd)]
  rw [scan_of_cut?_eq_none hc]
  rfl

theorem consLiteral_of_ne_nil {t : Text} (ht : t ≠ []) (s : Scan) :
    consLiteral t s = prepend [.literal t] s := by
  unfold consLiteral
  rw [if_neg (by simpa using ht)]
  rfl

/-- A tag at the front of a text is its first piece. -/
theorem scan_tag {behind : Text} {t : Tag}
    (h : Tag.read d text = .ok (t, behind)) :
    scan d (d.opening ++ text) = prepend [.tag t] (scan d behind) := by
  rw [scan_of_read (Text.cut?_front d.opening text) h]
  rfl

/-- A text that is scanned to its end is written in its pieces. -/
theorem sources_of_scan_eq {ls : List Lexeme} (h : scan d text = ⟨ls, none⟩) :
    text = ls.flatMap source := by
  obtain ⟨left, hl, hf⟩ := sources_scan d text
  rw [h] at hl hf
  rw [hl, hf rfl, List.append_nil]

/-- Where the scanner comes to the end of a text, the opening delimiter
is not empty: an empty one occurs at the end as well. -/
theorem opening_ne_nil (h : (scan d text).fault = none) : d.opening ≠ [] := by
  fun_induction scan d text with
  | case1 text hc =>
    intro hd
    exact Text.cut?_none hc text [] (by simp [hd])
  | case2 => simp [fault_consLiteral] at h
  | case3 text before rest hc t behind hr s ih =>
    exact ih (by simpa [fault_consLiteral] using h)

/-- A literal piece in front is no tag. -/
theorem tag_mem_consLiteral {before : Text} {s : Scan} {t : Tag} :
    .tag t ∈ (consLiteral before s).lexemes ↔ .tag t ∈ s.lexemes := by
  unfold consLiteral
  split
  · rfl
  · simp

/-- **Pieces as the scanner cuts them**: a literal piece is not empty,
and a tag has something between its delimiters. -/
def Proper (d : Delimiters) : Lexeme → Prop
  | .literal t => t ≠ []
  | .tag t => t.Bounded d

theorem Proper.length_pos {l : Lexeme} (h : l.Proper d) :
    0 < l.source.length := by
  cases l with
  | literal t => exact List.length_pos_iff.mpr h
  | tag t => exact Tag.Bounded.length_pos h

/-- The pieces of a text are proper. -/
theorem proper_of_mem_scan {l : Lexeme} (h : l ∈ (scan d text).lexemes) :
    l.Proper d := by
  have hcons : ∀ {before : Text} {s : Scan}, (∀ l ∈ s.lexemes, l.Proper d) →
      ∀ l ∈ (consLiteral before s).lexemes, l.Proper d := by
    intro before s hs l hl
    unfold consLiteral at hl
    split at hl
    · exact hs l hl
    · next hb =>
      rcases List.mem_cons.mp hl with rfl | hl
      · exact fun hn => hb (List.isEmpty_iff.mpr hn)
      · exact hs l hl
  fun_induction scan d text generalizing l with
  | case1 => exact hcons (by simp) l h
  | case2 => exact hcons (by simp) l h
  | case3 text before rest hc t behind hr s =>
    rename_i ih
    refine hcons (fun l hl => ?_) l h
    rcases List.mem_cons.mp hl with rfl | hl
    · exact Tag.bounded_of_read hr
    · exact ih hl

/-! ## Parts of a text -/

/-- A tag among the pieces of a literal text, a tag and a rest is that
tag or stands in the rest. -/
theorem consLiteral_eq_append {before : Text} {t t' : Tag} {s : Scan}
    {pre post : List Lexeme}
    (h : (consLiteral before (prepend [.tag t] s)).lexemes
      = pre ++ .tag t' :: post) :
    (t' = t ∧ post = s.lexemes
        ∧ pre = (consLiteral before ⟨[], none⟩).lexemes)
      ∨ ∃ pre', s.lexemes = pre' ++ .tag t' :: post
        ∧ pre
          = (consLiteral before (prepend [.tag t] ⟨pre', none⟩)).lexemes := by
  have htag : ∀ {pre : List Lexeme},
      .tag t :: s.lexemes = pre ++ .tag t' :: post →
      (t' = t ∧ post = s.lexemes ∧ pre = [])
        ∨ ∃ pre', s.lexemes = pre' ++ .tag t' :: post
          ∧ pre = .tag t :: pre' := by
    intro pre h
    rcases List.cons_eq_append_iff.mp h with ⟨rfl, he⟩ | ⟨pre', rfl, he⟩
    · obtain ⟨ht, rfl⟩ := List.cons.inj he
      exact .inl ⟨Lexeme.tag.inj ht, rfl, rfl⟩
    · exact .inr ⟨pre', he, rfl⟩
  unfold consLiteral prepend at *
  by_cases hb : before.isEmpty = true
  · simp only [if_pos hb] at h ⊢
    exact htag h
  · simp only [if_neg hb] at h ⊢
    rcases List.cons_eq_append_iff.mp h with ⟨rfl, he⟩ | ⟨pre₁, rfl, he⟩
    · simp at he
    · rcases htag he with ⟨ht, hp, rfl⟩ | ⟨pre', hp, rfl⟩
      · exact .inl ⟨ht, hp, rfl⟩
      · exact .inr ⟨pre', hp, rfl⟩

/-- **Induction up to a tag.** A tag among the pieces of a text is the
first tag of the text, or one among the pieces of what stands behind the
first. -/
theorem induction_to_tag {t : Tag} {post : List Lexeme}
    {motive : Text → List Lexeme → Prop}
    (first : ∀ {text before rest behind : Text},
      Text.cut? d.opening text = some (before, rest) →
      Tag.read d rest = .ok (t, behind) →
      (scan d behind).lexemes = post →
      motive text (consLiteral before ⟨[], none⟩).lexemes)
    (next : ∀ {text before rest behind : Text} {t' : Tag}
      {pre : List Lexeme},
      Text.cut? d.opening text = some (before, rest) →
      Tag.read d rest = .ok (t', behind) →
      (scan d behind).lexemes = pre ++ .tag t :: post →
      motive behind pre →
      motive text
        (consLiteral before (prepend [.tag t'] ⟨pre, none⟩)).lexemes)
    {pre : List Lexeme} (h : (scan d text).lexemes = pre ++ .tag t :: post) :
    motive text pre := by
  have hmem : .tag t ∈ (scan d text).lexemes := by
    rw [h]
    simp
  fun_induction scan d text generalizing pre with
  | case1 => simp [tag_mem_consLiteral] at hmem
  | case2 => simp [tag_mem_consLiteral] at hmem
  | case3 text before rest hc t' behind hr s =>
    rename_i ih
    rcases consLiteral_eq_append h with ⟨rfl, hp, rfl⟩ | ⟨pre', hp, rfl⟩
    · exact first hc hr hp.symm
    · exact next hc hr hp (ih hp (by rw [hp]; simp))

/-- What is wrong with a text is wrong behind its first tag. -/
theorem fault_scan_of_read {before rest behind : Text} {t : Tag}
    (h : Text.cut? d.opening text = some (before, rest))
    (hr : Tag.read d rest = .ok (t, behind)) :
    (scan d text).fault = (scan d behind).fault := by
  rw [scan_of_read h hr, fault_consLiteral]
  rfl

/-- **Behind a tag** the scanner goes on as at the front of a text. -/
theorem exists_of_scan_eq {t : Tag} {pre post : List Lexeme}
    (h : (scan d text).lexemes = pre ++ .tag t :: post) :
    ∃ behind, (scan d behind).lexemes = post
      ∧ (scan d behind).fault = (scan d text).fault := by
  refine induction_to_tag
    (motive := fun text _ => ∃ behind, (scan d behind).lexemes = post
      ∧ (scan d behind).fault = (scan d text).fault)
    (fun hc hr hp => ?_) (fun hc hr _ ih => ?_) h
  · exact ⟨_, hp, (fault_scan_of_read hc hr).symm⟩
  · rw [fault_scan_of_read hc hr]
    exact ih

/-- Behind its first tag a text may be cut off where the rest of it stands
for itself: up to there it has the pieces it had. -/
theorem scan_cut {before rest behind part more : Text} {t : Tag}
    {ls : List Lexeme} (hc : Text.cut? d.opening text = some (before, rest))
    (hr : Tag.read d rest = .ok (t, behind)) (hb : behind = part ++ more)
    (hp : scan d part = ⟨ls, none⟩) :
    scan d (before ++ (t.source ++ part))
      = consLiteral before (prepend [.tag t] ⟨ls, none⟩) := by
  obtain ⟨inside, -, hs⟩ := Tag.bounded_of_read hr
  let rest' := inside ++ d.closing ++ part
  have hrest : rest = rest' ++ more := by
    have hsource := Tag.source_read hr
    rw [hs, hb] at hsource
    simpa [rest'] using hsource
  have htext : text = before ++ (t.source ++ part) ++ more := by
    rw [Text.cut?_eq hc, hrest, hs]
    simp [rest']
  rw [htext, hrest] at hc
  rw [hrest, hb] at hr
  rw [scan_of_read (Text.cut?_of_append hc) (Tag.read_of_append hr), hp]

/-- **The text in front of a tag stands for itself**: alone it has the
pieces that it has there, and nothing is wrong with it. -/
theorem scan_sources {t : Tag} {pre post : List Lexeme}
    (hd : d.opening ≠ [])
    (h : (scan d text).lexemes = pre ++ .tag t :: post) :
    scan d (pre.flatMap source) = ⟨pre, none⟩ := by
  refine induction_to_tag
    (motive := fun _ pre => scan d (pre.flatMap source) = ⟨pre, none⟩)
    (fun hc _ _ => ?_) (fun hc hr hp hpre => ?_) h
  · rw [sources_consLiteral, List.flatMap_nil, List.append_nil,
      scan_of_cut?_eq_none (Text.cut?_before hd hc)]
    exact congrArg (Scan.mk _) (fault_consLiteral ..)
  · next before _ behind t' pre' =>
    obtain ⟨left, hleft, -⟩ := sources_scan d behind
    have hbehind : behind = pre'.flatMap source
        ++ ((.tag t :: post : List Lexeme).flatMap source ++ left) := by
      rw [hleft, hp, List.flatMap_append, List.append_assoc]
    rw [sources_consLiteral]
    show scan d (before ++ (t'.source ++ pre'.flatMap source)) = _
    rw [scan_cut hc hr hbehind hpre]
    exact congrArg (Scan.mk _) (fault_consLiteral ..)

end Lexeme

/-! ## The top level of a text -/

namespace Segment

/-- **What pieces are put together to**, from a position on, at the top
level of a text. A block takes all pieces from its opening tag to the
closing tag that belongs to it, and those between them derive. -/
inductive Assembled (origin : Int) :
    Nat → List Lexeme → List Segment → Prop
  | nil {n : Nat} : Assembled origin n [] []
  | literal {n : Nat} {t : Text} {ls : List Lexeme}
      {segments : List Segment} :
      Assembled origin (n + t.length) ls segments →
      Assembled origin n (.literal t :: ls) (.literal t n :: segments)
  | single {n : Nat} {t : Tag} {args : Arguments} {ls : List Lexeme}
      {segments : List Segment} :
      Assembled origin (n + t.source.length) ls segments →
      Assembled origin n (.tag t :: ls)
        (.invocation ⟨t.name, args, none, n, n + t.source.length, origin⟩
          :: segments)
  | block {n m : Nat} {o c : Tag} {args : Arguments}
      {body ls : List Lexeme} {segments : List Segment} :
      m = n + o.source.length →
      (∃ ps, Derives (Lexeme.placed m body) ps) →
      Assembled origin (m + Lexeme.size body + c.source.length) ls segments →
      Assembled origin n (.tag o :: (body ++ .tag c :: ls))
        (.invocation ⟨o.name, args, some ⟨body.flatMap Lexeme.source, m⟩, n,
            m + Lexeme.size body + c.source.length, origin⟩ :: segments)

theorem assembled_of_assemble {origin : Int} {n : Nat} {ls : List Lexeme}
    {segments : List Segment}
    (h : assemble origin none none n ls = .ok segments) :
    Assembled origin n ls segments := by
  -- a block is one step, so the induction is on the number of pieces
  induction hk : ls.length using Nat.strong_induction_on
    generalizing ls n segments with
  | _ k ih =>
    subst hk
    match ls with
    | [] =>
      rw [assemble, atEnd] at h
      obtain rfl := Except.ok.inj h
      exact .nil
    | .literal t :: rest =>
      rw [assemble] at h
      obtain ⟨tail, ht, rfl⟩ := map_eq_ok_iff.mp h
      exact .literal (ih rest.length (by simp) ht rfl)
    | .tag t :: rest =>
      cases hf : t.form with
      | closing =>
        rw [assemble] at h
        simp [hf] at h
      | selfClosing =>
        obtain ⟨args, tail, _, ht, rfl⟩ :=
          (assemble_selfClosing_iff hf).mp h
        exact .single (ih rest.length (by simp) ht rfl)
      | opening =>
        obtain ⟨args, body, c, rest', tail, _, rfl, _, _, hd, ht, rfl⟩ :=
          (assemble_opening_iff hf).mp h
        refine .block rfl hd (ih rest'.length ?_ ht rfl)
        simp only [List.length_cons, List.length_append]
        omega

/-- A text that is read is scanned to its end, and its pieces are put
together. -/
theorem assembled_of_parse {d : Delimiters} {text : Text} {origin : Int}
    {segments : List Segment} (h : parse d text origin = .ok segments) :
    (Lexeme.scan d text).fault = none
      ∧ text = (Lexeme.scan d text).lexemes.flatMap Lexeme.source
      ∧ Assembled origin 0 (Lexeme.scan d text).lexemes segments := by
  unfold parse at h
  dsimp only at h
  have hnone := fault_of_assemble h
  rw [hnone] at h
  have hs : Lexeme.scan d text = ⟨(Lexeme.scan d text).lexemes, none⟩ := by
    rw [← hnone]
  exact ⟨hnone, Lexeme.sources_of_scan_eq hs, assembled_of_assemble h⟩

/-- What is read of a text can be computed. -/
theorem parse_eq_ok_of_toOption {d : Delimiters} {text : Text}
    {origin : Int} {segments : List Segment}
    (h : (parse d text origin).toOption = some segments) :
    parse d text origin = .ok segments := by
  cases hp : parse d text origin with
  | error e => simp [hp, Except.toOption] at h
  | ok s => simpa [hp, Except.toOption] using h

end Segment

end Shortcode
