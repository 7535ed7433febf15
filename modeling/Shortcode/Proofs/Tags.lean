import Shortcode.Proofs.Occurrence
import Shortcode.Tag

/-!
# What a tag is

A tag is told apart from the text around it in two steps: where it ends,
and whether its inside has one of the three forms. Both are stated here
on their own – the end as a first occurrence outside quotations
(`Tag.EndsAfter`), the forms as ways to write an inside
(`Tag.Form`) – and the scanner is shown to find exactly these:
`Tag.cutInside_eq_some_iff`, `Tag.form_of_ofInside` with
`Tag.ofInside_of_form`, and for both steps together `Tag.read_eq_ok_iff`.
-/

namespace Shortcode.Tag

/-! ## Quotations -/

/-- **A text outside quotations**: every quotation that is opened in it
is closed in it, by the quote that opened it. -/
inductive Unquoted : Text → Prop
  | nil : Unquoted []
  | plain {c : Char} {t : Text} :
      isQuote c = false → Unquoted t → Unquoted (c :: t)
  | quotation {q : Char} {value t : Text} :
      isQuote q = true → q ∉ value → Unquoted t →
      Unquoted (q :: value ++ q :: t)

/-- The quote that is open behind a text, given the one that is open in
front of it. -/
def quoteAfter : Option Char → Text → Option Char
  | quote, [] => quote
  | some q, c :: t => quoteAfter (if c = q then none else some q) t
  | none, c :: t => quoteAfter (if isQuote c then some c else none) t

/-- Inside a quotation, everything up to its quote belongs to it. -/
theorem quoteAfter_value {q : Char} {value : Text} (h : q ∉ value)
    (t : Text) : quoteAfter (some q) (value ++ q :: t) = quoteAfter none t := by
  induction value with
  | nil => simp [quoteAfter]
  | cons c value ih =>
    simp only [List.mem_cons, not_or] at h
    rw [List.cons_append, quoteAfter, if_neg (Ne.symm h.1)]
    exact ih h.2

/-- A quotation that is closed somewhere is closed at its quote. -/
theorem exists_of_quoteAfter {q : Char} {t : Text}
    (h : quoteAfter (some q) t = none) :
    ∃ value rest, t = value ++ q :: rest ∧ q ∉ value
      ∧ quoteAfter none rest = none := by
  induction t with
  | nil => simp [quoteAfter] at h
  | cons c t ih =>
    by_cases hc : c = q
    · subst hc
      exact ⟨[], t, rfl, by simp, by simpa [quoteAfter] using h⟩
    · rw [quoteAfter, if_neg hc] at h
      obtain ⟨value, rest, rfl, hv, hr⟩ := ih h
      exact ⟨c :: value, rest, rfl, by simp [Ne.symm hc, hv], hr⟩

/-- **A text is outside quotations** exactly when no quote is open
behind it. -/
theorem unquoted_iff {t : Text} : Unquoted t ↔ quoteAfter none t = none := by
  constructor
  · intro h
    induction h with
    | nil => rfl
    | plain hc _ ih => simpa [quoteAfter, hc] using ih
    | quotation hq hv _ ih =>
      rw [List.cons_append, quoteAfter, if_pos hq, quoteAfter_value hv]
      exact ih
  · intro h
    induction hn : t.length using Nat.strong_induction_on generalizing t with
    | _ n ih =>
      cases t with
      | nil => exact .nil
      | cons c t =>
        subst hn
        by_cases hc : isQuote c = true
        · rw [quoteAfter, if_pos hc] at h
          obtain ⟨value, rest, rfl, hv, hr⟩ := exists_of_quoteAfter h
          refine .quotation hc hv (ih _ ?_ hr rfl)
          simp only [List.length_cons, List.length_append]
          omega
        · rw [quoteAfter, if_neg hc] at h
          exact .plain (by simpa using hc) (ih _ (by simp) h rfl)

/-- The characters of a class that neither quote is in are no quotes. -/
theorem isQuote_of_class {p : Char → Bool} (h₁ : p '"' = false)
    (h₂ : p '\'' = false) {c : Char} (h : p c = true) :
    isQuote c = false := by
  unfold isQuote
  rw [Bool.or_eq_false_iff]
  constructor
  · exact beq_false_of_ne fun hc => by simp [hc, h₁] at h
  · exact beq_false_of_ne fun hc => by simp [hc, h₂] at h

theorem isQuote_of_isBlank {c : Char} (h : isBlank c = true) :
    isQuote c = false :=
  isQuote_of_class (by decide) (by decide) h

theorem isQuote_of_isKeyRest {c : Char} (h : isKeyRest c = true) :
    isQuote c = false :=
  isQuote_of_class (by decide) (by decide) h

/-! ## The end of a tag -/

/-- The next character of a text is there and is no quote. -/
def NoQuoteNext (t : Text) : Prop :=
  ∃ c rest, t = c :: rest ∧ isQuote c = false

/-- A tag can end behind `inside`: the closing delimiter stands there,
outside quotations, at a character that is no quote. -/
def CanEnd (closing inside behind : Text) : Prop :=
  Unquoted inside ∧ NoQuoteNext (closing ++ behind)

/-- **The end of a tag**: of the places at which it can end, the first
one. -/
def EndsAfter (closing inside behind : Text) : Prop :=
  CanEnd closing inside behind
    ∧ ∀ u v, inside ++ closing ++ behind = u ++ closing ++ v →
        CanEnd closing u v → inside.length ≤ u.length

/-- A character in front moves the cut behind it. -/
theorem map_cons_eq_some {c : Char} {cut : Option (Text × Text)}
    {inside behind : Text}
    (h : (cut.map fun (i, b) => (c :: i, b)) = some (inside, behind)) :
    ∃ i, cut = some (i, behind) ∧ inside = c :: i := by
  obtain ⟨⟨i, b⟩, hcut, he⟩ := Option.map_eq_some_iff.mp h
  obtain ⟨rfl, rfl⟩ := Prod.mk.inj he
  exact ⟨i, hcut, rfl⟩

/-- Where the scanner ends a tag, one can end. Stated for any quote that
is open in front of the text, so that the induction goes through
quotations. -/
theorem cutInside_sound {closing : Text} {quote : Option Char}
    {text inside behind : Text}
    (h : cutInside closing quote text = some (inside, behind)) :
    quoteAfter quote inside = none ∧ NoQuoteNext (closing ++ behind) := by
  fun_induction cutInside closing quote text generalizing inside with
  | case1 => simp at h
  | case2 q c rest ih =>
    obtain ⟨i, hcut, rfl⟩ := map_cons_eq_some h
    exact ih hcut
  | case3 c rest hc ih =>
    obtain ⟨i, hcut, rfl⟩ := map_cons_eq_some h
    rw [quoteAfter, if_pos hc]
    exact ih hcut
  | case4 c rest hc hp =>
    obtain ⟨rfl, rfl⟩ := Prod.mk.inj (Option.some.inj h)
    have he : closing ++ (c :: rest).drop closing.length = c :: rest :=
      List.prefix_iff_eq_append.mp (List.isPrefixOf_iff_prefix.mp hp)
    exact ⟨rfl, c, rest, he, by simpa using hc⟩
  | case5 c rest hc hp ih =>
    obtain ⟨i, hcut, rfl⟩ := map_cons_eq_some h
    rw [quoteAfter, if_neg hc]
    exact ih hcut

/-- Where a tag can end, the scanner has ended it there or before. -/
theorem exists_cutInside {closing : Text} {quote : Option Char}
    {text u v : Text} (hu : text = u ++ closing ++ v)
    (hq : quoteAfter quote u = none) (hn : NoQuoteNext (closing ++ v)) :
    ∃ inside behind, cutInside closing quote text = some (inside, behind)
      ∧ inside.length ≤ u.length := by
  obtain ⟨a, w, ha, hqa⟩ := hn
  fun_induction cutInside closing quote text generalizing u with
  | case1 =>
    rw [List.append_assoc, ha] at hu
    simp at hu
  | case2 q c rest ih =>
    cases u with
    | nil => simp [quoteAfter] at hq
    | cons b u =>
      obtain ⟨rfl, hrest⟩ := List.cons.inj hu
      obtain ⟨i, behind, hcut, hle⟩ := ih hrest hq
      exact ⟨c :: i, behind, by rw [hcut]; rfl, Nat.succ_le_succ hle⟩
  | case3 c rest hc ih =>
    cases u with
    | nil =>
      -- the closing delimiter would start with the quote
      rw [List.nil_append, ha] at hu
      rw [(List.cons.inj hu).1, hqa] at hc
      exact absurd hc (by simp)
    | cons b u =>
      obtain ⟨rfl, hrest⟩ := List.cons.inj hu
      rw [quoteAfter, if_pos hc] at hq
      obtain ⟨i, behind, hcut, hle⟩ := ih hrest hq
      exact ⟨c :: i, behind, by rw [hcut]; rfl, Nat.succ_le_succ hle⟩
  | case4 c rest hc hp => exact ⟨[], _, rfl, Nat.zero_le _⟩
  | case5 c rest hc hp ih =>
    cases u with
    | nil =>
      refine absurd (List.isPrefixOf_iff_prefix.mpr ⟨v, ?_⟩) hp
      simpa using hu.symm
    | cons b u =>
      obtain ⟨rfl, hrest⟩ := List.cons.inj hu
      rw [quoteAfter, if_neg hc] at hq
      obtain ⟨i, behind, hcut, hle⟩ := ih hrest hq
      exact ⟨c :: i, behind, by rw [hcut]; rfl, Nat.succ_le_succ hle⟩

/-- **The scanner ends a tag at its end**, and where it finds none there
is none. -/
theorem cutInside_eq_some_iff {closing text inside behind : Text} :
    cutInside closing none text = some (inside, behind)
      ↔ text = inside ++ closing ++ behind
        ∧ EndsAfter closing inside behind := by
  constructor
  · intro h
    obtain ⟨hq, hn⟩ := cutInside_sound h
    refine ⟨cutInside_eq h, ⟨unquoted_iff.mpr hq, hn⟩, fun u v hu hc => ?_⟩
    obtain ⟨i, b, hcut, hle⟩ := exists_cutInside
      ((cutInside_eq h).trans hu) (unquoted_iff.mp hc.1) hc.2
    obtain ⟨rfl, rfl⟩ := Prod.mk.inj (Option.some.inj (h.symm.trans hcut))
    exact hle
  · rintro ⟨rfl, ⟨hu, hn⟩, hmin⟩
    obtain ⟨i, b, hcut, hle⟩ :=
      exists_cutInside (v := behind) rfl (unquoted_iff.mp hu) hn
    obtain ⟨hq, hn'⟩ := cutInside_sound hcut
    have hge : inside.length ≤ i.length :=
      hmin i b (cutInside_eq hcut) ⟨unquoted_iff.mpr hq, hn'⟩
    obtain ⟨rfl, rfl⟩ :=
      Text.eq_of_length_eq (cutInside_eq hcut) (Nat.le_antisymm hge hle)
    exact hcut

/-- The end of a tag does not change when the text goes on. -/
theorem cutInside_more {closing : Text} {quote : Option Char} {inside : Text}
    (h : cutInside closing quote text = some (inside, behind)) (more : Text) :
    cutInside closing quote (text ++ more)
      = some (inside, behind ++ more) := by
  fun_induction cutInside closing quote text generalizing inside with
  | case1 => simp at h
  | case2 q c rest ih =>
    obtain ⟨i, hcut, rfl⟩ := map_cons_eq_some h
    rw [List.cons_append, cutInside, ih hcut]
    rfl
  | case3 c rest hq ih =>
    obtain ⟨i, hcut, rfl⟩ := map_cons_eq_some h
    rw [List.cons_append, cutInside, if_pos hq, ih hcut]
    rfl
  | case4 c rest hq hp =>
    obtain ⟨rfl, rfl⟩ := by simpa using h
    have hp := List.isPrefixOf_iff_prefix.mp hp
    have hmore : closing.isPrefixOf (c :: (rest ++ more)) = true :=
      List.isPrefixOf_iff_prefix.mpr
        (hp.trans (List.prefix_append (c :: rest) more))
    rw [List.cons_append, cutInside, if_neg hq, if_pos hmore,
      ← List.cons_append, List.drop_append_of_le_length hp.length_le]
  | case5 c rest hq hp ih =>
    obtain ⟨i, hcut, rfl⟩ := map_cons_eq_some h
    -- the delimiter is found in the text, so here it is not cut off either
    have hle : closing.length ≤ (c :: rest).length := by
      have hl := congrArg List.length (cutInside_eq hcut)
      simp only [List.length_append, List.length_cons] at hl ⊢
      omega
    have hmore : ¬closing.isPrefixOf (c :: (rest ++ more)) = true := by
      intro hm
      have hm := List.isPrefixOf_iff_prefix.mp hm
      rw [← List.cons_append] at hm
      exact hp (List.isPrefixOf_iff_prefix.mpr
        (List.prefix_of_prefix_length_le hm (List.prefix_append _ _) hle))
    rw [List.cons_append, cutInside, if_neg hq, if_neg hmore, ih hcut]
    rfl

/-! ## The forms of an inside -/

/-- What may stand behind a name: nothing, or something that starts with
white space or a slash. -/
def Parted (t : Text) : Prop :=
  ∀ c ∈ t.head?, isBlank c = true ∨ c = '/'

theorem parted_slash (t : Text) : Parted ('/' :: t) :=
  fun _ hc => .inr (Option.some.inj hc).symm

theorem parted_of_isBlank {t : Text} (h : Text.IsBlank t) : Parted t :=
  fun c hc => .inl (h c (List.mem_of_mem_head? hc))

theorem Parted.append {t u : Text} (ht : Parted t) (hu : Parted u) :
    Parted (t ++ u) := by
  cases t with
  | nil => exact hu
  | cons c t => exact ht

/-- **The forms of an inside**, with the name and the argument text that
is read from each. White space stands around everything. Behind the
arguments, the slash of a self-closing tag is the last character but
white space; the arguments of an opening tag end with neither. -/
inductive Form : Text → TagForm → Text → Text → Prop
  | closing {lead mid name trail : Text} :
      Text.IsBlank lead → Text.IsBlank mid → IsName name →
      Text.IsBlank trail →
      Form (lead ++ '/' :: (mid ++ (name ++ trail))) .closing name []
  | selfClosing {lead name args trail : Text} :
      Text.IsBlank lead → IsName name → Parted args →
      Text.IsBlank trail →
      Form (lead ++ (name ++ (args ++ '/' :: trail))) .selfClosing name args
  | opening {lead name args trail : Text} :
      Text.IsBlank lead → IsName name → Parted args →
      (∀ c ∈ args.getLast?, isBlank c = false ∧ c ≠ '/') →
      Text.IsBlank trail →
      Form (lead ++ (name ++ (args ++ trail))) .opening name args

/-- A name does not go on with what may stand behind it. -/
theorem isNameRest_of_parted {t : Text} (h : Parted t) :
    ∀ c ∈ t.head?, isNameRest c = false := by
  intro c hc
  cases hn : isNameRest c with
  | false => rfl
  | true =>
    rcases h c hc with hb | rfl
    · exact absurd (isBlank_of_isKeyRest (isKeyRest_of_isNameRest hn))
        (by simp [hb])
    · exact absurd hn (by decide)

/-- A name starts with no white space and with no slash. -/
theorem head?_of_isName {name : Text} (h : IsName name) (t : Text) :
    ∀ c ∈ (name ++ t).head?, isBlank c = false ∧ c ≠ '/' := by
  obtain ⟨x, rest, rfl, hx, _⟩ := h
  intro c hc
  obtain rfl : x = c := by simpa using hc
  refine ⟨isBlank_of_isKeyRest (isKeyRest_of_isNameRest
    (isNameRest_of_isNameStart hx)), ?_⟩
  rintro rfl
  exact absurd hx (by decide)

/-- A name ends with no white space. -/
theorem getLast?_of_isName {name : Text} (h : IsName name) :
    ∀ c ∈ name.getLast?, isBlank c = false := fun _ hc =>
  isBlank_of_isKeyRest (IsName.isKeyRest h _ (List.mem_of_getLast? hc))

/-- The argument text of a self-closing tag is what stands before its
slash. -/
theorem splitSlash_selfClosing {args trail : Text}
    (ht : Text.IsBlank trail) :
    splitSlash (args ++ '/' :: trail) = (.selfClosing, args) := by
  have h : Text.trimRight (args ++ ['/'] ++ trail) = args ++ ['/'] :=
    Text.trimRight_append ht (by simp; decide)
  rw [List.append_assoc, List.singleton_append] at h
  simp [splitSlash, h]

/-- The argument text of an opening tag is what stands before the white
space at its end. -/
theorem splitSlash_opening {args trail : Text}
    (ha : ∀ c ∈ args.getLast?, isBlank c = false ∧ c ≠ '/')
    (ht : Text.IsBlank trail) :
    splitSlash (args ++ trail) = (.opening, args) := by
  have h : Text.trimRight (args ++ trail) = args :=
    Text.trimRight_append ht fun c hc => (ha c hc).1
  unfold splitSlash
  rw [h]
  split
  · next rest hr =>
    have hl : args.getLast? = some '/' := by
      rw [List.getLast?_eq_head?_reverse, hr]
      rfl
    exact absurd rfl (ha '/' hl).2
  · rfl

/-- An inside that starts with a name is read by what stands behind the
name. -/
theorem ofInside_named (d : Delimiters) {lead name rest : Text}
    (hl : Text.IsBlank lead) (hn : IsName name) (hp : Parted rest) :
    ofInside d (lead ++ (name ++ rest))
      = .ok ⟨(splitSlash rest).1, name,
          d.opening ++ (lead ++ (name ++ rest)) ++ d.closing,
          (splitSlash rest).2,
          d.opening.length + lead.length + name.length⟩ := by
  have hs : Text.trimLeft (lead ++ (name ++ rest)) = name ++ rest :=
    Text.trimLeft_append hl fun c hc => (head?_of_isName hn _ c hc).1
  have hw : splitName (name ++ rest) = (name, rest) :=
    splitWord_append_eq hn (isNameRest_of_parted hp)
  have hne : name.isEmpty = false := by
    obtain ⟨x, r, rfl, _⟩ := hn
    rfl
  unfold ofInside
  dsimp only
  rw [hs]
  split
  · next r hr =>
    have := (head?_of_isName hn rest '/' (by rw [hr]; rfl)).2
    exact absurd rfl this
  · have hlead : (lead ++ (name ++ rest)).length - (name ++ rest).length
        = lead.length := by
      rw [List.length_append, Nat.add_sub_cancel]
    rw [hw, hlead]
    dsimp only
    rw [if_neg (by simp [hne])]
    cases rest with
    | nil => rfl
    | cons c rest =>
      have hc : (isBlank c || c == '/') = true := by
        simpa using hp c rfl
      dsimp only
      rw [if_pos hc]

/-- **Every form is read**, with its name and its argument text. -/
theorem ofInside_of_form {inside name args : Text} {form : TagForm}
    (d : Delimiters) (h : Form inside form name args) :
    ∃ tag, ofInside d inside = .ok tag ∧ tag.form = form
      ∧ tag.name = name ∧ tag.argumentText = args := by
  cases h with
  | @closing lead mid _ trail hl hm hn ht =>
    have hs : Text.trimLeft (lead ++ '/' :: (mid ++ (name ++ trail)))
        = '/' :: (mid ++ (name ++ trail)) :=
      Text.trimLeft_append hl (by simp; decide)
    have hr : Text.trim (mid ++ (name ++ trail)) = name := by
      unfold Text.trim
      rw [Text.trimLeft_append hm fun c hc => (head?_of_isName hn _ c hc).1,
        Text.trimRight_append ht (getLast?_of_isName hn)]
    unfold ofInside
    dsimp only
    rw [hs]
    simp only [hr, isName_iff.mpr hn, if_true]
    exact ⟨_, rfl, rfl, rfl, rfl⟩
  | @selfClosing lead _ _ trail hl hn hp ht =>
    have hp' := hp.append (parted_slash trail)
    refine ⟨_, ofInside_named d hl hn hp', ?_, rfl, ?_⟩
    · rw [splitSlash_selfClosing ht]
    · rw [splitSlash_selfClosing ht]
  | @opening lead _ _ trail hl hn hp ha ht =>
    have hp' := hp.append (parted_of_isBlank ht)
    refine ⟨_, ofInside_named d hl hn hp', ?_, rfl, ?_⟩
    · rw [splitSlash_opening ha ht]
    · rw [splitSlash_opening ha ht]

/-- A name with something parted behind it is an opening or a
self-closing form, as the slash test says. -/
theorem form_named {lead name rest : Text} (hl : Text.IsBlank lead)
    (hn : IsName name) (hp : Parted rest) :
    Form (lead ++ (name ++ rest)) (splitSlash rest).1 name
      (splitSlash rest).2 := by
  obtain ⟨trail, ht, hr, hlast⟩ := Text.trimRight_spec rest
  -- what stands at the front of a parted text is parted
  have hparted : ∀ {t u : Text}, rest = t ++ u → Parted t := by
    intro t u he c hc
    obtain ⟨r, rfl⟩ := List.head?_eq_some_iff.mp hc
    exact hp c (by rw [he]; rfl)
  unfold splitSlash
  split
  · next r he =>
    have hs : Text.trimRight rest = r.reverse ++ ['/'] := by
      rw [← List.reverse_reverse (Text.trimRight rest), he]
      simp
    rw [hs, List.append_assoc, List.singleton_append] at hr
    have hf := Form.selfClosing hl hn (hparted hr) ht
    rwa [← hr] at hf
  · next hne =>
    have hlast' : ∀ c ∈ (Text.trimRight rest).getLast?,
        isBlank c = false ∧ c ≠ '/' := by
      refine fun c hc => ⟨hlast c hc, ?_⟩
      rintro rfl
      rw [List.getLast?_eq_head?_reverse] at hc
      obtain ⟨r, he⟩ := List.head?_eq_some_iff.mp hc
      exact hne r he
    have hf := Form.opening hl hn (hparted hr) hlast' ht
    rwa [← hr] at hf

/-- **Only the forms are read.** -/
theorem form_of_ofInside {d : Delimiters} {inside : Text} {tag : Tag}
    (h : ofInside d inside = .ok tag) :
    Form inside tag.form tag.name tag.argumentText := by
  obtain ⟨lead, hl, hi, _⟩ := Text.trimLeft_spec inside
  unfold ofInside at h
  dsimp only at h
  split at h
  · next rest hr =>
    split at h
    · next hn =>
      obtain rfl := Except.ok.inj h
      obtain ⟨mid, hm, hmid, _⟩ := Text.trimLeft_spec rest
      obtain ⟨trail, ht, htrail, _⟩ :=
        Text.trimRight_spec (Text.trimLeft rest)
      have he : inside
          = lead ++ '/' :: (mid ++ (Text.trim rest ++ trail)) := by
        rw [Text.trim, ← htrail, ← hmid, ← hr, ← hi]
      dsimp only
      rw [he]
      exact .closing hl hm (isName_iff.mp hn) ht
    · simp at h
  · split at h
    · simp at h
    · next hne =>
      have hname : IsName (splitName (Text.trimLeft inside)).1 := by
        rcases splitWord_spec isNameRest (Text.trimLeft inside) with
          ⟨he, _⟩ | ⟨hw, _⟩
        · exact absurd (by rw [splitName, he]; rfl) hne
        · exact hw
      have he : inside = lead ++ ((splitName (Text.trimLeft inside)).1
          ++ (splitName (Text.trimLeft inside)).2) := by
        rw [splitName, splitWord_append, ← hi]
      split at h
      · next c rest hr =>
        split at h
        · next hc =>
          obtain rfl := Except.ok.inj h
          have hp : Parted (c :: rest) := by
            intro x hx
            obtain rfl := Option.some.inj hx
            simpa using hc
          have hf := form_named hl hname hp
          rwa [← hr, ← he] at hf
        · simp at h
      · next hr =>
        obtain rfl := Except.ok.inj h
        have hp : Parted [] := by simp [Parted]
        have hf := form_named hl hname hp
        rw [← hr, ← he, hr] at hf
        exact hf

/-- **A tag is read** where it ends, from an inside that can be read. -/
theorem read_eq_ok_iff {d : Delimiters} {text behind : Text} {tag : Tag} :
    read d text = .ok (tag, behind)
      ↔ ∃ inside, text = inside ++ d.closing ++ behind
        ∧ EndsAfter d.closing inside behind
        ∧ ofInside d inside = .ok tag := by
  constructor
  · intro h
    unfold read at h
    split at h
    · simp at h
    · next inside b hc =>
      split at h
      · next t ht =>
        obtain ⟨rfl, rfl⟩ := by simpa using h
        obtain ⟨he, hend⟩ := cutInside_eq_some_iff.mp hc
        exact ⟨inside, he, hend, ht⟩
      · simp at h
  · rintro ⟨inside, he, hend, ht⟩
    unfold read
    rw [cutInside_eq_some_iff.mpr ⟨he, hend⟩]
    dsimp only
    rw [ht]

end Shortcode.Tag
