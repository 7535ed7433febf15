import Shortcode.Proofs.Diagnosis
import Shortcode.Proofs.Values

/-!
# Quotations are seen alike

Two readers go over the inside of a tag. The first looks for the end of the
tag, and knows no more than which quote is open. The second reads the
arguments, and knows keys, signs and values, in a text from which white space
and a slash have been taken off. They see the same quotations.

The reason is that whatever the second one passes over closes what it opens.
Arguments with a quotation for each value are outside quotations as a whole
(`Arguments.Spelled.unquoted`), and so is what is taken off in front and
behind (`Tag.Form.exists_around`). So where the reader of arguments comes to
the quote of a value, no quote is open for the other one; and since none is
open at the end of the tag, the quotation that starts here is closed in the
arguments (`Arguments.Opens.exists_quotation`). A value that is not closed is
therefore never found, whatever the text is (`Segment.parse_quotations`).

Nothing is asked of the delimiters. One that holds a quote changes where tags
end, and not what is inside of them.
-/

namespace Shortcode

/-! ## Texts outside quotations -/

namespace Tag

variable {t u : Text} {quote : Option Char} {q : Char}

/-- Behind a text outside quotations, a text is outside them if it is so by
itself. -/
theorem Unquoted.append_iff (h : Unquoted t) :
    Unquoted (t ++ u) ↔ Unquoted u := by
  rw [unquoted_iff, quoteAfter_append, unquoted_iff.mp h, unquoted_iff]

theorem unquoted_of_forall (h : ∀ c ∈ t, isQuote c = false) : Unquoted t := by
  induction t with
  | nil => exact .nil
  | cons c t ih =>
    exact .plain (h c List.mem_cons_self)
      (ih fun x hx => h x (List.mem_cons_of_mem c hx))

/-- What is open is a quote. -/
theorem isQuote_of_quoteAfter (hquote : ∀ c ∈ quote, isQuote c = true)
    (h : quoteAfter quote t = some q) : isQuote q = true := by
  fun_induction quoteAfter quote t with
  | case1 quote => exact hquote q h
  | case2 p c t ih =>
    refine ih (fun x hx => ?_) h
    split at hx
    · simp at hx
    · exact hquote x hx
  | case3 c t ih =>
    refine ih (fun x hx => ?_) h
    split at hx
    · next hc =>
      obtain rfl := Option.some.inj hx
      exact hc
    · simp at hx

/-- A quotation is not closed by a text without quotes. -/
theorem Unquoted.of_append (h : Unquoted (t ++ u))
    (hu : ∀ c ∈ u, isQuote c = false) : Unquoted t := by
  rw [unquoted_iff, quoteAfter_append] at h
  rw [unquoted_iff]
  cases hq : quoteAfter none t with
  | none => rfl
  | some q =>
    rw [hq] at h
    obtain ⟨value, rest, rfl, -, -⟩ := exists_of_quoteAfter h
    have := isQuote_of_quoteAfter (by simp) hq
    simp [hu q (by simp)] at this

theorem unquoted_of_isBlank (h : Text.IsBlank t) : Unquoted t :=
  unquoted_of_forall fun c hc => isQuote_of_isBlank (h c hc)

end Tag

/-! ## Where a tag ends -/

/-- **A place at which the tag can end** whose inside starts a text: the
closing delimiter stands there, outside quotations, and no quote. -/
def Tag.Closes (closing text : Text) (n : Nat) : Prop :=
  Unquoted (text.take n) ∧ closing <+: text.drop n ∧ NoQuoteNext (text.drop n)

/-- **A tag ends at the least place at which it can.** -/
theorem Tag.EndsAfter.isLeast {closing inside behind : Text}
    (h : EndsAfter closing inside behind) :
    IsLeast {n | Closes closing (inside ++ closing ++ behind) n}
      inside.length := by
  obtain ⟨⟨hu, hn⟩, hfirst⟩ := h
  constructor
  · show Closes closing (inside ++ closing ++ behind) inside.length
    unfold Closes
    rw [List.append_assoc, List.take_left, List.drop_left]
    exact ⟨hu, List.prefix_append .., hn⟩
  · rintro n ⟨hu, ⟨v, hv⟩, hn⟩
    have htext : inside ++ closing ++ behind
        = (inside ++ closing ++ behind).take n ++ closing ++ v := by
      rw [List.append_assoc _ closing v, hv, List.take_append_drop]
    rw [← hv] at hn
    have hle := hfirst _ v htext ⟨hu, hn⟩
    rw [List.length_take] at hle
    omega

/-! ## Arguments and their quotations -/

/-- **A quotation of a text**: at a position that is outside quotations stands
a quote, and behind it a value that the next such quote closes. Behind that
one, the text is outside quotations again. -/
def Text.Quotation (t : Text) (n : Nat) (q : Char) (value : Text) : Prop :=
  ∃ front rest, t = front ++ q :: (value ++ q :: rest) ∧ n = front.length
    ∧ Tag.isQuote q = true ∧ q ∉ value
    ∧ Tag.Unquoted front ∧ Tag.Unquoted rest

/-- **The reader of arguments comes to a value**: behind arguments that it has
read stand a key, the sign that announces a value and, at a position, the
quote that opens it. -/
def Arguments.Opens (text key : Text) (n : Nat) (q : Char) : Prop :=
  ∃ args front rest, text = front ++ (key ++ '=' :: q :: rest)
    ∧ n = front.length + (key.length + 1) ∧ Spelled args front
    ∧ Closed front ∧ IsKey key ∧ Tag.isQuote q = true

/-- A quotation in a part of a text is one of the text, if what stands around
the part is outside quotations. -/
theorem Text.Quotation.around {t head tail value : Text} {n : Nat} {q : Char}
    (h : t.Quotation n q value) (hh : Tag.Unquoted head)
    (ht : Tag.Unquoted tail) :
    Quotation (head ++ (t ++ tail)) (head.length + n) q value := by
  obtain ⟨front, rest, rfl, rfl, hq, hv, hf, hr⟩ := h
  refine ⟨head ++ front, rest ++ tail, by simp, by simp, hq, hv,
    hh.append_iff.mpr hf, hr.append_iff.mpr ht⟩

theorem Text.Quotation.le {t value : Text} {n : Nat} {q : Char}
    (h : t.Quotation n q value) : n + value.length + 2 ≤ t.length := by
  obtain ⟨front, rest, rfl, rfl, -⟩ := h
  simp only [List.length_append, List.length_cons]
  omega

theorem Tag.unquoted_of_isKey {key : Text} (h : IsKey key) : Unquoted key :=
  unquoted_of_forall fun c hc => isQuote_of_isKeyRest (h.isKeyRest c hc)

/-- A key and the sign of a value hold no quotes. -/
theorem Tag.unquoted_sign {key : Text} (h : IsKey key) :
    Unquoted (key ++ ['=']) :=
  (unquoted_of_isKey h).append_iff.mpr (.plain (by decide) .nil)

/-- A written argument closes its quotation. -/
theorem Argument.Written.unquoted {a : Argument} {t : Text} (h : a.Written t)
    (hk : IsKey a.key) : Tag.Unquoted t := by
  cases h with
  | flag => exact Tag.unquoted_of_isKey hk
  | value hq hv =>
    exact (Tag.unquoted_of_isKey hk).append_iff.mpr
      (.plain (by decide) (.quotation hq hv .nil))

namespace Arguments

variable {args : Arguments} {text key : Text} {n : Nat} {q : Char}

/-- **Arguments close their quotations.** -/
theorem Spelled.unquoted (h : Spelled args text) : Tag.Unquoted text := by
  induction h with
  | blank ht => exact Tag.unquoted_of_isBlank ht
  | argument hl hk hw _ _ ih =>
    exact (Tag.unquoted_of_isBlank hl).append_iff.mpr
      ((hw.unquoted hk).append_iff.mpr ih)

/-- **A value that is opened is closed** in an argument text that is outside
quotations as a whole. -/
theorem Opens.exists_quotation (h : Opens text key n q)
    (hu : Tag.Unquoted text) : ∃ value, text.Quotation n q value := by
  obtain ⟨args, front, rest, rfl, rfl, hs, -, hk, hq⟩ := h
  have hfront : Tag.Unquoted (front ++ (key ++ ['='])) :=
    hs.unquoted.append_iff.mpr (Tag.unquoted_sign hk)
  have htext : front ++ (key ++ '=' :: q :: rest)
      = front ++ (key ++ ['=']) ++ q :: rest := by simp
  rw [htext] at hu ⊢
  by_cases hmem : q ∈ rest
  · obtain ⟨value, rest, rfl, hv⟩ := List.eq_append_cons_of_mem hmem
    exact ⟨value, _, rest, rfl, by simp, hq, hv, hfront,
      (Tag.unquoted_quotation_iff hfront hq hv).mp hu⟩
  · exact absurd hu (Tag.not_unquoted_of_quotation hfront hq hmem)

/-- What is opened behind an argument is opened in the whole text. -/
theorem Opens.argument {a : Argument} {lead t rest : Text}
    (hl : Text.IsBlank lead) (hk : IsKey a.key) (hw : a.Written t)
    (hr : Text.Spaced rest) (h : Opens rest key n q) :
    Opens (lead ++ (t ++ rest)) key ((lead ++ t).length + n) q := by
  obtain ⟨args, front, back, rfl, rfl, hs, hcl, hkey, hq⟩ := h
  obtain ⟨c, more, rfl, hc, -⟩ := id hkey
  have hc' : isBlank c = false := isBlank_of_isKeyRest
    (isKeyRest_of_isNameRest (isNameRest_of_isNameStart hc))
  obtain ⟨hs', hcl'⟩ := hs.behind_argument hl hk hw hr hc' hcl
  refine ⟨a :: args, lead ++ (t ++ front), back, by simp, ?_, hs', hcl', hkey,
    hq⟩
  simp only [List.length_append]
  omega

/-- **The values of arguments** are opened and closed where they are
written. -/
theorem Spelled.exists_opens (h : Spelled args text) {a : Argument} {v : Text}
    (ha : a ∈ args) (hv : a.value = some v) :
    ∃ n q, Opens text a.key n q ∧ text.Quotation n q v := by
  induction h with
  | blank => simp at ha
  | @argument b args lead t rest hl hk hw hr hs ih =>
    have hlead := Tag.unquoted_of_isBlank hl
    rcases List.mem_cons.mp ha with rfl | ha
    · cases hw with
      | flag => simp at hv
      | @value key w q hq hw =>
        obtain rfl := Option.some.inj hv
        refine ⟨lead.length + (key.length + 1), q,
          ⟨[], lead, w ++ q :: rest, by simp, rfl, .blank hl,
            fun c hc => hl c (List.mem_of_getLast? hc), hk, hq⟩,
          lead ++ (key ++ ['=']), rest, by simp, by simp, hq, hw,
          hlead.append_iff.mpr (Tag.unquoted_sign hk), hs.unquoted⟩
    · obtain ⟨n, q, hopens, hquoted⟩ := ih ha
      have hfront : Tag.Unquoted (lead ++ t) :=
        hlead.append_iff.mpr (hw.unquoted hk)
      have hall := hquoted.around hfront .nil
      rw [List.append_nil, List.append_assoc] at hall
      exact ⟨_, q, hopens.argument hl hk hw hr, hall⟩

/-- **A value that is not closed is not found** in an argument text that is
outside quotations as a whole. -/
theorem Faulty.ne_unterminatedValue {cause : Cause} {k : Nat}
    (h : Faulty text cause k) (hu : Tag.Unquoted text) (key : Text) :
    cause ≠ .unterminatedValue key := by
  rintro rfl
  obtain @⟨args, front, t, _, k, hs, hcl, hf⟩ := h
  cases hf with
  | @unterminated _ rest q hk hq hmem =>
    have hfront : Tag.Unquoted (front ++ (key ++ ['='])) :=
      hs.unquoted.append_iff.mpr (Tag.unquoted_sign hk)
    have htext : front ++ (key ++ '=' :: q :: rest)
        = front ++ (key ++ ['=']) ++ q :: rest := by simp
    rw [htext] at hu
    exact Tag.not_unquoted_of_quotation hfront hq hmem hu

end Arguments

/-! ## The arguments in their tag -/

/-- **What stands around the arguments of a tag** in its inside: in front of
them white space and the name, behind them white space, with the slash in
front of it that makes the tag stand for itself. All of them are outside
quotations. -/
structure Tag.Around (d : Delimiters) (tag : Tag) (inside head tail : Text) :
    Prop where
  inside_eq : inside = head ++ (tag.argumentText ++ tail)
  argumentsAt_eq : tag.argumentsAt = d.opening.length + head.length
  unquoted_head : Unquoted head
  unquoted_arguments : Unquoted tag.argumentText
  unquoted_tail : Unquoted tail
  slash : tag.form = .selfClosing →
    ∃ trail, Text.IsBlank trail ∧ tail = '/' :: trail

namespace Tag

variable {d : Delimiters} {tag : Tag} {inside text behind : Text}

/-- The arguments of a tag that is read stand in its inside. -/
theorem exists_around (h : ofInside d inside = .ok tag) (hu : Unquoted inside)
    (hf : tag.form ≠ .closing) : ∃ head tail, tag.Around d inside head tail := by
  have hform := form_of_ofInside h
  have hat : ∀ {lead name rest : Text}, Text.IsBlank lead → IsName name →
      Parted rest → inside = lead ++ (name ++ rest) →
      tag.argumentsAt = d.opening.length + (lead ++ name).length := by
    rintro lead name rest hl hn hp rfl
    have := (ofInside_named d hl hn hp).symm.trans h
    rw [← Except.ok.inj this, List.length_append, Nat.add_assoc]
  have hhead : ∀ {lead name : Text}, Text.IsBlank lead → IsName name →
      Unquoted (lead ++ name) := fun hl hn =>
    (unquoted_of_isBlank hl).append_iff.mpr (unquoted_of_forall fun c hc =>
      isQuote_of_isKeyRest (hn.isKeyRest c hc))
  generalize hargs : tag.argumentText = args at hform
  generalize hname : tag.name = name at hform
  generalize hwhich : tag.form = form at hform hf
  cases hform with
  | closing => exact absurd rfl hf
  | @selfClosing lead _ _ trail hl hn hp ht =>
    have hin : lead ++ (name ++ (args ++ '/' :: trail))
        = lead ++ name ++ (args ++ '/' :: trail) := by simp
    have hslash : ∀ c ∈ '/' :: trail, isQuote c = false := by
      rw [List.forall_mem_cons]
      exact ⟨by decide, fun c hc => isQuote_of_isBlank (ht c hc)⟩
    have hhead := hhead hl hn
    rw [hin, hhead.append_iff] at hu
    exact ⟨lead ++ name, '/' :: trail, {
      inside_eq := by rw [hargs, hin]
      argumentsAt_eq := hat hl hn (hp.append (parted_slash trail)) rfl
      unquoted_head := hhead
      unquoted_arguments := hargs ▸ hu.of_append hslash
      unquoted_tail := unquoted_of_forall hslash
      slash := fun _ => ⟨trail, ht, rfl⟩ }⟩
  | @opening lead _ _ trail hl hn hp ha ht =>
    have hin : lead ++ (name ++ (args ++ trail))
        = lead ++ name ++ (args ++ trail) := by simp
    have hhead := hhead hl hn
    rw [hin, hhead.append_iff] at hu
    exact ⟨lead ++ name, trail, {
      inside_eq := by rw [hargs, hin]
      argumentsAt_eq := hat hl hn (hp.append (parted_of_isBlank ht)) rfl
      unquoted_head := hhead
      unquoted_arguments := hargs ▸ hu.of_append fun c hc =>
        isQuote_of_isBlank (ht c hc)
      unquoted_tail := unquoted_of_isBlank ht
      slash := fun hs => by simp [hwhich] at hs }⟩

/-- **The argument text of a tag that is read is outside quotations.** -/
theorem unquoted_arguments (h : read d text = .ok (tag, behind)) :
    Unquoted tag.argumentText := by
  obtain ⟨inside, -, hends, ht⟩ := read_eq_ok_iff.mp h
  by_cases hf : tag.form = .closing
  · have hform := form_of_ofInside ht
    rw [hf] at hform
    generalize tag.argumentText = args at hform ⊢
    cases hform
    exact .nil
  · obtain ⟨head, tail, ha⟩ := exists_around ht hends.1.1 hf
    exact ha.unquoted_arguments

/-- **Both readers see the same quotations** in the inside of a tag that is
read from a text. -/
structure SeenAlike (d : Delimiters) (tag : Tag) (text inside : Text) :
    Prop where
  source_eq : tag.source = d.opening ++ inside ++ d.closing
  /-- The tag ends at the least place at which it can. -/
  least : IsLeast {n | Closes d.closing text n} inside.length
  /-- Every quotation that is opened in it is closed in it. -/
  unquoted : Unquoted inside
  /-- Where the reader of arguments comes to a value, a quotation starts, and
  it is closed in the arguments: what stands around them, with the slash that
  makes the tag stand for itself, has no part in it. And each value that is
  read is read from there. -/
  values : tag.form ≠ .closing → ∃ head tail, tag.Around d inside head tail
    ∧ (∀ key n q, Arguments.Opens tag.argumentText key n q → ∃ value,
        inside.Quotation (head.length + n) q value
          ∧ n + value.length + 2 ≤ tag.argumentText.length)
    ∧ ∀ args, Arguments.parse tag.argumentText = .ok args →
        ∀ a ∈ args, ∀ v, a.value = some v → ∃ n q,
          Arguments.Opens tag.argumentText a.key n q
            ∧ inside.Quotation (head.length + n) q v
            ∧ n + v.length + 2 ≤ tag.argumentText.length

/-- **The quotations of a tag that is read are seen alike.** -/
theorem seenAlike_of_read (h : read d text = .ok (tag, behind)) :
    ∃ inside, text = inside ++ d.closing ++ behind
      ∧ tag.SeenAlike d text inside := by
  obtain ⟨inside, htext, hends, ht⟩ := read_eq_ok_iff.mp h
  refine ⟨inside, htext, source_ofInside ht, ?_, hends.1.1, fun hf => ?_⟩
  · rw [htext]
    exact hends.isLeast
  obtain ⟨head, tail, ha⟩ := exists_around ht hends.1.1 hf
  have hplace : ∀ {n : Nat} {q : Char} {v : Text},
      tag.argumentText.Quotation n q v →
        inside.Quotation (head.length + n) q v
          ∧ n + v.length + 2 ≤ tag.argumentText.length := by
    intro n q v hv
    refine ⟨?_, hv.le⟩
    have := hv.around ha.unquoted_head ha.unquoted_tail
    rwa [← ha.inside_eq] at this
  refine ⟨head, tail, ha, fun key n q ho => ?_, fun args hargs a hmem v hv => ?_⟩
  · obtain ⟨value, hvalue⟩ := ho.exists_quotation ha.unquoted_arguments
    exact ⟨value, hplace hvalue⟩
  · have hs := Arguments.parse_eq_ok_iff_spelled.mp hargs
    obtain ⟨n, q, ho, hquoted⟩ := hs.exists_opens hmem hv
    exact ⟨n, q, ho, hplace hquoted⟩

/-- A value that is not closed is not found in a tag that is read. -/
theorem ne_unterminatedValue_of_read (h : read d text = .ok (tag, behind))
    {name : Option Text} {offset : Int} {e : Error}
    (he : Arguments.parse tag.argumentText name offset = .error e)
    (key : Text) : e.cause ≠ .unterminatedValue key := by
  unfold Arguments.parse at he
  split at he
  · simp at he
  · next fault hfault =>
    obtain rfl := Except.error.inj he
    obtain ⟨k, -, hf⟩ := Arguments.exists_of_parseFrom_eq_error hfault
    exact hf.ne_unterminatedValue (unquoted_arguments h) key

end Tag

namespace Segment

/-- **The readers of tags and of arguments agree**, whatever the delimiters
are. A tag that is read ends at the first place at which its closing
delimiter stands outside quotations and no quote starts. So the quotations
inside it are closed inside it, and each value that the reader of arguments
comes to stands in the arguments with both of its quotes, in front of the
slash that makes a tag stand for itself. And no text is refused because a
value is not closed. -/
theorem parse_quotations (d : Delimiters) :
    (∀ text behind tag, Tag.read d text = .ok (tag, behind) →
        ∃ inside, text = inside ++ d.closing ++ behind
          ∧ tag.SeenAlike d text inside)
      ∧ ∀ text origin e, parse d text origin = .error e →
          ∀ key, e.cause ≠ .unterminatedValue key := by
  refine ⟨fun text behind tag h => Tag.seenAlike_of_read h,
    fun text origin e h key => ?_⟩
  obtain ⟨n, -, h⟩ := exists_of_parse_eq_error h
  have hcases := Leaves.nil.cases_of_error h
  rw [List.nil_append] at hcases
  rcases hcases with ⟨block, -, hend⟩ | ⟨front, block, l, more, hls, -, hstep⟩
  · cases hf : (Lexeme.scan d text).fault with
    | some f =>
      rw [hf, atEnd] at hend
      have hkind := Lexeme.kind_of_fault hf
      rw [show f.cause = e.cause from
        congrArg Error.cause (Except.error.inj hend)] at hkind
      intro hc
      simp [hc, Cause.kind] at hkind
    | none =>
      rw [hf] at hend
      cases block with
      | none => simp [atEnd] at hend
      | some b =>
        rw [atEnd] at hend
        rw [← congrArg Error.cause (Except.error.inj hend)]
        simp
  · obtain ⟨t, rfl, hcases⟩ := cases_of_step_error hstep
    obtain ⟨rest, behind, -, hread, -⟩ := Lexeme.exists_of_tag hls
    rcases hcases with ⟨-, -, he⟩ | ⟨-, -, hargs⟩ | ⟨b, -, -, -, he⟩
    · rw [congrArg Error.cause he]
      simp
    · exact Tag.ne_unterminatedValue_of_read hread hargs key
    · rw [congrArg Error.cause he]
      simp

/-- A closing delimiter with a quote in it. The tag goes past the first
place at which it stands, in a value, and past a slash in another one; a
text in which it stands in a quotation only is not read. -/
theorem parse_quotations_apostrophe :
    let d : Delimiters := ⟨"<".toList, ">'".toList⟩
    let text := "a k=\">'\" x='/' />'b".toList
    let tag : Tag := ⟨.selfClosing, ['a'], "<a k=\">'\" x='/' />'".toList,
      " k=\">'\" x='/' ".toList, 2⟩
    let e : Error := ⟨.unterminatedTag d.closing, none, some 7⟩
    (Tag.read d text = .ok (tag, ['b'])
        ∧ ∃ inside, text = inside ++ d.closing ++ ['b']
          ∧ tag.SeenAlike d text inside)
      ∧ parse d "<a k='v>'".toList 7 = .error e
      ∧ ∀ key, e.cause ≠ .unterminatedValue key := by
  intro d text tag e
  have hread : Tag.read d text = .ok (tag, ['b']) := by
    unfold d text tag
    cbv
  have hparse : parse d "<a k='v>'".toList 7 = .error e := by
    unfold d e
    cbv
  obtain ⟨hall, hno⟩ := parse_quotations d
  exact ⟨⟨hread, hall text _ tag hread⟩, hparse, hno _ 7 e hparse⟩

end Segment

end Shortcode
