import Shortcode.Argument.Parse
import Shortcode.Proofs.Tags

/-!
# Arguments and tags as they are written

The other direction of reading: how an argument, the arguments of a tag
and a tag are written down, with all the freedom the format leaves –
which white space stands in front of an argument, and which of the two
quotes a value stands in. Whatever is written so is read back:
`Arguments.parse_written` for arguments, `Tag.exists_single`,
`Tag.exists_opened` and `Tag.exists_closed` for the three forms of a
tag.

The closing delimiter has to start with a character that the inside of a
tag does not hold outside its quotations (`Delimiters.Plain`). A value
may hold anything but its own quote, also a delimiter.
-/

namespace Shortcode

/-! ## Arguments -/

/-- **An argument that can be written**: its key is a key, and one of
the two quotes is not in its value. -/
def Argument.Writable (a : Argument) : Prop :=
  IsKey a.key ∧ ∀ v ∈ a.value, '"' ∉ v ∨ '\'' ∉ v

instance (a : Argument) : Decidable a.Writable :=
  inferInstanceAs (Decidable (_ ∧ _))

/-- An argument as it is written: a bare key, or a key with a value
between quotes that the value does not hold. -/
inductive Argument.Written : Argument → Text → Prop
  | flag {key : Text} : Written ⟨key, none⟩ key
  | value {key v : Text} {q : Char} :
      Tag.isQuote q = true → q ∉ v →
      Written ⟨key, some v⟩ (key ++ '=' :: q :: (v ++ [q]))

/-- Arguments as they are written, with white space in front of each. -/
inductive Arguments.Written : Arguments → Text → Prop
  | nil : Written [] []
  | cons {a : Argument} {args : Arguments} {lead t rest : Text} :
      Text.IsBlank lead → lead ≠ [] → a.Written t → Written args rest →
      Written (a :: args) (lead ++ (t ++ rest))

/-- A text that is empty or starts with white space. -/
def Text.Spaced (t : Text) : Prop :=
  ∀ c ∈ t.head?, isBlank c = true

theorem Text.spaced_append {lead t : Text} (hl : IsBlank lead)
    (hne : lead ≠ []) : Spaced (lead ++ t) := by
  cases lead with
  | nil => exact absurd rfl hne
  | cons c lead =>
    intro x hx
    obtain rfl := Option.some.inj hx
    exact hl c (List.mem_cons_self ..)

/-- Written arguments, with white space behind them, are spaced. -/
theorem Arguments.Written.spaced {args : Arguments} {t trail : Text}
    (h : Written args t) (ht : Text.IsBlank trail) :
    Text.Spaced (t ++ trail) := by
  cases h with
  | nil => exact fun c hc => ht c (List.mem_of_mem_head? hc)
  | cons hl hne =>
    rw [List.append_assoc]
    exact Text.spaced_append hl hne

namespace Argument

theorem separated_spaced {position : Nat} {a : Argument} {rest : Text}
    (h : Text.Spaced rest) : separated position a rest = .ok (a, rest) := by
  unfold separated
  cases rest with
  | nil => rfl
  | cons c rest =>
    dsimp only
    rw [if_pos (h c rfl)]

theorem quotedValue_written {position : Nat} {key v rest : Text} {q : Char}
    (hv : q ∉ v) (hr : Text.Spaced rest) :
    quotedValue position key q (v ++ q :: rest)
      = .ok (⟨key, some v⟩, rest) := by
  unfold quotedValue
  rw [Text.cut?_singleton hv]
  exact separated_spaced hr

/-- A written argument starts with its key. -/
theorem Written.exists_cons {a : Argument} {t : Text} (hw : a.Written t)
    (hk : IsKey a.key) : ∃ c rest, t = c :: rest ∧ isBlank c = false := by
  obtain ⟨x, key, hkey, hx, _⟩ := hk
  have hb : isBlank x = false := isBlank_of_isKeyRest
    (isKeyRest_of_isNameRest (isNameRest_of_isNameStart hx))
  cases hw with
  | flag =>
    obtain rfl := hkey
    exact ⟨x, key, rfl, hb⟩
  | value =>
    obtain rfl := hkey
    exact ⟨x, _, rfl, hb⟩

/-- A written argument ends with a character of its key or a quote. -/
theorem Written.getLast? {a : Argument} {t : Text} (hw : a.Written t)
    (hk : IsKey a.key) : ∀ c ∈ t.getLast?, isBlank c = false ∧ c ≠ '/' := by
  intro c hc
  cases hw with
  | flag =>
    have h := IsKey.isKeyRest hk c (List.mem_of_getLast? hc)
    refine ⟨isBlank_of_isKeyRest h, ?_⟩
    rintro rfl
    exact absurd h (by decide)
  | @value key v q hq =>
    have he : key ++ '=' :: q :: (v ++ [q]) = key ++ '=' :: q :: v ++ [q] := by
      simp
    rw [he, List.getLast?_concat] at hc
    obtain rfl := Option.some.inj hc
    rcases Bool.or_eq_true _ _ ▸ hq with h | h
    · obtain rfl := eq_of_beq h
      decide
    · obtain rfl := eq_of_beq h
      decide

/-- **A written argument is read back**, up to where it ends. -/
theorem next?_written {a : Argument} {t rest text : Text} {c : Char}
    (hw : a.Written t) (hk : IsKey a.key) (hr : Text.Spaced rest)
    (ht : t ++ rest = c :: text) (position : Nat) :
    next? position c text = .ok (a, rest) := by
  cases hw with
  | flag =>
    have hend : ∀ x ∈ rest.head?, isKeyRest x = false :=
      fun x hx => isKeyRest_of_isBlank (hr x hx)
    obtain ⟨hc, hkey, hrest⟩ := hk.split_cons hend ht
    rw [next?_eq, if_pos hc]
    dsimp only
    rw [hkey, hrest]
    -- what follows a bare key does not go on with its value
    split
    · exact absurd (hr '=' rfl) (by decide)
    · exact absurd (hr '=' rfl) (by decide)
    · exact absurd (hr '=' rfl) (by decide)
    · exact separated_spaced hr
  | @value key v q hq hv =>
    have ht' : key ++ '=' :: q :: (v ++ q :: rest) = c :: text := by
      rw [← ht]
      simp
    obtain ⟨hc, hkey, hrest⟩ := hk.split_cons (by simp; decide) ht'
    rw [next?_eq, if_pos hc]
    dsimp only
    rw [hkey, hrest]
    rcases Bool.or_eq_true _ _ ▸ hq with h | h
    · obtain rfl := eq_of_beq h
      exact quotedValue_written hv hr
    · obtain rfl := eq_of_beq h
      exact quotedValue_written hv hr

end Argument

namespace Arguments

/-- White space in front of arguments is passed over. -/
theorem parseFrom_blank {lead : Text} (hl : Text.IsBlank lead) (t : Text)
    (position : Nat) :
    parseFrom position (lead ++ t)
      = parseFrom (position + lead.length) t := by
  induction lead generalizing position with
  | nil => rfl
  | cons c lead ih =>
    have hc : isBlank c = true := hl c (List.mem_cons_self ..)
    rw [List.cons_append, parseFrom, if_pos hc,
      ih fun x hx => hl x (List.mem_cons_of_mem _ hx), List.length_cons]
    congr 1
    omega

/-- **A written argument is taken off the front**, with the white space
before it; reading goes on behind it. -/
theorem parseFrom_argument {a : Argument} {lead t rest : Text}
    (hl : Text.IsBlank lead) (hk : IsKey a.key) (ht : a.Written t)
    (hr : Text.Spaced rest) (position : Nat) :
    parseFrom position (lead ++ (t ++ rest))
      = (parseFrom (position + lead.length + t.length) rest).map
          (a :: ·) := by
  obtain ⟨c, text, rfl, hc⟩ := ht.exists_cons hk
  have hn : Argument.next? (position + lead.length) c (text ++ rest)
      = .ok (a, rest) := Argument.next?_written ht hk hr rfl _
  have hplace : position + lead.length + 1 + (text ++ rest).length
      - rest.length = position + lead.length + (c :: text).length := by
    rw [List.length_append, List.length_cons]
    omega
  rw [parseFrom_blank hl, List.cons_append, parseFrom, if_neg (by simp [hc])]
  split
  · next e h =>
    rw [hn] at h
    simp at h
  · next b behind h =>
    obtain ⟨rfl, rfl⟩ := Prod.mk.inj (Except.ok.inj (hn.symm.trans h))
    rw [hplace]
    cases parseFrom (position + lead.length + (c :: text).length) rest <;> rfl

/-- **Written arguments are read back**, whatever white space stands
behind them. -/
theorem parseFrom_written {args : Arguments} {t trail : Text}
    (hw : Written args t) (ha : ∀ a ∈ args, IsKey a.key)
    (ht : Text.IsBlank trail) (position : Nat) :
    parseFrom position (t ++ trail) = .ok args := by
  induction hw generalizing position with
  | nil =>
    rw [← List.append_nil ([] ++ trail), List.nil_append, parseFrom_blank ht,
      parseFrom]
  | @cons a args lead t rest hl hne ht' hrest ih =>
    rw [List.append_assoc, List.append_assoc, parseFrom_argument hl
      (ha a (List.mem_cons_self ..)) ht' (hrest.spaced ht),
      ih fun x hx => ha x (List.mem_cons_of_mem _ hx)]
    rfl

/-- Written arguments are the arguments of their text. -/
theorem parse_written {args : Arguments} {t trail : Text}
    (hw : Written args t) (ha : ∀ a ∈ args, IsKey a.key)
    (ht : Text.IsBlank trail) : parse (t ++ trail) = .ok args := by
  unfold parse
  rw [parseFrom_written hw ha ht]

/-- Behind written arguments stands no slash and no white space. -/
theorem Written.getLast? {args : Arguments} {t : Text} (hw : Written args t)
    (ha : ∀ a ∈ args, IsKey a.key) :
    ∀ c ∈ t.getLast?, isBlank c = false ∧ c ≠ '/' := by
  induction hw with
  | nil => simp
  | @cons a args lead t rest hl hne ht hrest ih =>
    have hk : IsKey a.key := ha a (List.mem_cons_self ..)
    obtain ⟨x, text, rfl, hx⟩ := ht.exists_cons hk
    intro c hc
    rw [← List.append_assoc, List.getLast?_append] at hc
    cases hr : rest.getLast? with
    | some y =>
      rw [hr] at hc
      obtain rfl := Option.some.inj hc
      exact ih (fun x hx => ha x (List.mem_cons_of_mem _ hx)) y hr
    | none =>
      have ht' := ht.getLast? hk
      rw [hr, Option.none_or, List.getLast?_append] at hc
      cases hl : (x :: text).getLast? with
      | some y =>
        rw [hl] at hc
        obtain rfl := Option.some.inj hc
        exact ht' y hl
      | none => simp at hl

end Arguments

/-! ## What the inside of a tag does not hold -/

namespace Tag

/-- **A character that ends a tag**: the inside of a written tag holds it
in quotations only. -/
structure IsStop (c : Char) : Prop where
  key : isKeyRest c = false
  blank : isBlank c = false
  quote : isQuote c = false
  equals : c ≠ '='
  slash : c ≠ '/'

/-- A text outside quotations that holds a character in its quotations
only. -/
inductive Passes (stop : Char) : Text → Prop
  | nil : Passes stop []
  | plain {c : Char} {t : Text} :
      isQuote c = false → c ≠ stop → Passes stop t → Passes stop (c :: t)
  | quotation {q : Char} {value t : Text} :
      isQuote q = true → q ∉ value → Passes stop t →
      Passes stop (q :: (value ++ q :: t))

theorem Passes.append {stop : Char} {t u : Text} (ht : Passes stop t)
    (hu : Passes stop u) : Passes stop (t ++ u) := by
  induction ht with
  | nil => exact hu
  | plain hc hs _ ih => exact .plain hc hs ih
  | quotation hq hv _ ih =>
    rw [List.cons_append, List.append_assoc, List.cons_append]
    exact .quotation hq hv ih

theorem passes_of_forall {stop : Char} {t : Text}
    (h : ∀ c ∈ t, isQuote c = false ∧ c ≠ stop) : Passes stop t := by
  induction t with
  | nil => exact .nil
  | cons c t ih =>
    obtain ⟨hq, hs⟩ := h c (List.mem_cons_self ..)
    exact .plain hq hs (ih fun x hx => h x (List.mem_cons_of_mem _ hx))

/-- Inside a quotation, the scanner passes over everything up to its
quote. -/
theorem cutInside_value {closing : Text} {q : Char} {value : Text}
    (hv : q ∉ value) (text : Text) :
    cutInside closing (some q) (value ++ q :: text)
      = (cutInside closing none text).map
          fun (inside, behind) => (value ++ q :: inside, behind) := by
  induction value with
  | nil => simp [cutInside]
  | cons c value ih =>
    simp only [List.mem_cons, not_or] at hv
    rw [List.cons_append, cutInside, if_neg (Ne.symm hv.1), ih hv.2,
      Option.map_map]
    rfl

/-- **The scanner passes over a text** that does not hold the first
character of the closing delimiter outside its quotations. -/
theorem cutInside_append {stop : Char} {rest inside : Text}
    (hp : Passes stop inside) (text : Text) :
    cutInside (stop :: rest) none (inside ++ text)
      = (cutInside (stop :: rest) none text).map
          fun (i, behind) => (inside ++ i, behind) := by
  induction hp with
  | nil => simp
  | @plain c t hc hs _ ih =>
    have hpre : ¬(stop :: rest).isPrefixOf (c :: (t ++ text)) = true := by
      rw [List.isPrefixOf_iff_prefix, List.cons_prefix_cons]
      exact fun h => hs h.1.symm
    rw [List.cons_append, cutInside, if_neg (by simp [hc]), if_neg hpre, ih,
      Option.map_map]
    rfl
  | @quotation q value t hq hv _ ih =>
    rw [List.cons_append, List.append_assoc, List.cons_append, cutInside,
      if_pos hq, cutInside_value hv, ih, Option.map_map, Option.map_map]
    simp [Function.comp_def]

/-- Behind such a text the tag ends. -/
theorem cutInside_passes {closing inside : Text} {stop : Char} {rest : Text}
    (hc : closing = stop :: rest) (hs : IsStop stop)
    (hp : Passes stop inside) (behind : Text) :
    cutInside closing none (inside ++ (closing ++ behind))
      = some (inside, behind) := by
  subst hc
  rw [cutInside_append hp, List.cons_append, cutInside,
    if_neg (by simp [hs.quote]), if_pos (by simp)]
  simp

/-- The characters of words do not end a tag. -/
theorem passes_of_isKeyRest {stop : Char} {t : Text} (hs : IsStop stop)
    (h : ∀ c ∈ t, isKeyRest c = true) : Passes stop t := by
  refine passes_of_forall fun c hc => ⟨isQuote_of_isKeyRest (h c hc), ?_⟩
  rintro rfl
  exact absurd (h c hc) (by simp [hs.key])

/-- White space does not end a tag. -/
theorem passes_of_isBlank {stop : Char} {t : Text} (hs : IsStop stop)
    (h : Text.IsBlank t) : Passes stop t := by
  refine passes_of_forall fun c hc => ⟨isQuote_of_isBlank (h c hc), ?_⟩
  rintro rfl
  exact absurd (h c hc) (by simp [hs.blank])

/-- A written argument does not end a tag. -/
theorem passes_argument {stop : Char} {a : Argument} {t : Text}
    (hs : IsStop stop) (hw : a.Written t) (hk : IsKey a.key) :
    Passes stop t := by
  have hkey := passes_of_isKeyRest hs hk.isKeyRest
  cases hw with
  | flag => exact hkey
  | value hq hv =>
    exact hkey.append (.plain (by decide) hs.equals.symm
      (.quotation hq hv .nil))

/-- Written arguments do not end a tag, whatever delimiters their values
hold. -/
theorem passes_arguments {stop : Char} {args : Arguments} {t : Text}
    (hs : IsStop stop) (hw : Arguments.Written args t)
    (hk : ∀ a ∈ args, IsKey a.key) : Passes stop t := by
  induction hw with
  | nil => exact .nil
  | @cons a args lead t rest hl _ ht _ ih =>
    have hrest := ih fun x hx => hk x (List.mem_cons_of_mem _ hx)
    have ha := passes_argument hs ht (hk a (List.mem_cons_self ..))
    exact (passes_of_isBlank hs hl).append (ha.append hrest)

end Tag

/-! ## Tags -/

/-- **Delimiters that trees can be written with**: the opening one is
not empty, and the closing one starts with a character that ends a
tag. -/
structure Delimiters.Plain (d : Delimiters) : Prop where
  opening : d.opening ≠ []
  closing : ∃ stop rest, d.closing = stop :: rest ∧ Tag.IsStop stop

theorem Delimiters.plain_default : ({} : Delimiters).Plain :=
  ⟨by decide, '%', ['>'], rfl, by decide, by decide, by decide, by decide,
    by decide⟩

namespace Tag

/-- **A tag that stands for an inside**: it is written as the inside
between the delimiters, and read from there whatever follows. -/
structure StandsFor (d : Delimiters) (inside : Text) (t : Tag) : Prop where
  source : t.source = d.opening ++ inside ++ d.closing
  read : ∀ behind,
    Tag.read d (inside ++ (d.closing ++ behind)) = .ok (t, behind)

/-- An inside that has a form, and at whose end the tag ends, has a tag that
stands for it. -/
theorem exists_standsFor {d : Delimiters} {inside name args : Text}
    {form : TagForm} (he : EndsAfter d.closing inside [])
    (hf : Form inside form name args) :
    ∃ t, StandsFor d inside t ∧ t.form = form ∧ t.name = name
      ∧ t.argumentText = args := by
  obtain ⟨t, ht, hform, hname, hargs⟩ := ofInside_of_form d hf
  refine ⟨t, ⟨source_ofInside ht, fun behind => ?_⟩, hform, hname, hargs⟩
  have hcut := cutInside_more (cutInside_eq_some_iff.mpr ⟨rfl, he⟩) behind
  rw [List.append_nil, List.nil_append, List.append_assoc] at hcut
  unfold Tag.read
  rw [hcut]
  dsimp only
  rw [ht]

/-- A tag ends behind an inside that does not hold its end. -/
theorem endsAfter_of_passes {d : Delimiters} {inside : Text}
    (hd : d.Plain) (hp : ∀ {stop}, IsStop stop → Passes stop inside) :
    EndsAfter d.closing inside [] := by
  obtain ⟨stop, rest, hc, hs⟩ := hd.closing
  exact (cutInside_eq_some_iff.mp (cutInside_passes hc hs (hp hs) [])).2

/-- Such an inside that has a form has a tag that stands for it. -/
theorem exists_of_form {d : Delimiters} {inside name args : Text}
    {form : TagForm} (hd : d.Plain)
    (hp : ∀ {stop}, IsStop stop → Passes stop inside)
    (hf : Form inside form name args) :
    ∃ t, StandsFor d inside t ∧ t.form = form ∧ t.name = name
      ∧ t.argumentText = args :=
  exists_standsFor (endsAfter_of_passes hd hp) hf

/-- The inside of a written self-closing tag. -/
def insideSingle (name args : Text) : Text := name ++ (args ++ [' ', '/'])

/-- The inside of a written opening tag. -/
def insideOpened (name args : Text) : Text := name ++ args

/-- The inside of a written closing tag. -/
def insideClosed (name : Text) : Text := '/' :: name

variable {name : Text} {args : Arguments} {a : Text}

theorem form_insideSingle (hn : IsName name) (hw : args.Written a) :
    Form (insideSingle name a) .selfClosing name (a ++ [' ']) := by
  have hb : Text.IsBlank [' '] := by decide
  have hp : Parted (a ++ [' ']) := fun c hc => .inl (hw.spaced hb c hc)
  have h := Form.selfClosing Text.isBlank_nil hn hp Text.isBlank_nil
  simpa [insideSingle] using h

theorem form_insideOpened (hn : IsName name) (hw : args.Written a)
    (hk : ∀ x ∈ args, IsKey x.key) :
    Form (insideOpened name a) .opening name a := by
  have hs := hw.spaced Text.isBlank_nil
  rw [List.append_nil] at hs
  have h := Form.opening Text.isBlank_nil hn (fun c hc => .inl (hs c hc))
    (hw.getLast? hk) Text.isBlank_nil
  simpa [insideOpened] using h

theorem form_insideClosed (hn : IsName name) :
    Form (insideClosed name) .closing name [] := by
  have h := Form.closing Text.isBlank_nil Text.isBlank_nil hn Text.isBlank_nil
  simpa [insideClosed] using h

theorem passes_insideSingle {stop : Char} (hs : IsStop stop)
    (hn : IsName name) (hw : args.Written a)
    (hk : ∀ x ∈ args, IsKey x.key) : Passes stop (insideSingle name a) := by
  have hend : Passes stop [' ', '/'] :=
    (passes_of_isBlank hs (t := [' ']) (by decide)).append
      (.plain (by decide) hs.slash.symm .nil)
  exact (passes_of_isKeyRest hs hn.isKeyRest).append
    ((passes_arguments hs hw hk).append hend)

variable {d : Delimiters}

/-- **A written self-closing tag is read back.** -/
theorem exists_single (hd : d.Plain) (hn : IsName name)
    (hk : ∀ x ∈ args, IsKey x.key) (hw : args.Written a) :
    ∃ t, StandsFor d (insideSingle name a) t ∧ t.form = .selfClosing
      ∧ t.name = name ∧ Arguments.parse t.argumentText = .ok args := by
  obtain ⟨t, ht, hf, hname, ha⟩ := exists_of_form hd
    (fun hs => passes_insideSingle hs hn hw hk) (form_insideSingle hn hw)
  refine ⟨t, ht, hf, hname, ?_⟩
  rw [ha]
  exact Arguments.parse_written hw hk (by decide)

/-- **A written opening tag is read back.** -/
theorem exists_opened (hd : d.Plain) (hn : IsName name)
    (hk : ∀ x ∈ args, IsKey x.key) (hw : args.Written a) :
    ∃ t, StandsFor d (insideOpened name a) t ∧ t.form = .opening
      ∧ t.name = name ∧ Arguments.parse t.argumentText = .ok args := by
  obtain ⟨t, ht, hf, hname, ha⟩ := exists_of_form hd
    (fun hs => (passes_of_isKeyRest hs hn.isKeyRest).append
      (passes_arguments hs hw hk)) (form_insideOpened hn hw hk)
  refine ⟨t, ht, hf, hname, ?_⟩
  rw [ha, ← List.append_nil a]
  exact Arguments.parse_written hw hk Text.isBlank_nil

/-- **A written closing tag is read back.** -/
theorem exists_closed (hd : d.Plain) (hn : IsName name) :
    ∃ t, StandsFor d (insideClosed name) t ∧ t.form = .closing
      ∧ t.name = name := by
  obtain ⟨t, ht, hf, hname, _⟩ := exists_of_form hd
    (fun hs => .plain (by decide) hs.slash.symm
      (passes_of_isKeyRest hs hn.isKeyRest)) (form_insideClosed hn)
  exact ⟨t, ht, hf, hname⟩

end Tag

end Shortcode
