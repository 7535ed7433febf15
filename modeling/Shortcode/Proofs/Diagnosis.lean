import Shortcode.Proofs.Seams
import Shortcode.Proofs.Spelling

/-!
# What is told of a text that cannot be read

A text is read from left to right, and the first thing that is wrong with
it is told: which tag it is, and where in it. `Segment.ComesTo` says how
reading comes to a tag, past the tags in front of it, and
`Segment.Offence` what is wrong there, with one constructor for each cause
and without following the reader: by the text alone, and by what is read
of the part in front. `Segment.explained_of_parse` finds both for every text
that is not read, and the position that is told is the sum of the place
of the tag and of a place in it.

The only cause that is not seen at a tag is a block that is never closed.
It is told at the innermost such block, which is known by an invariant of
the open blocks: each was opened by a tag of its name, and what stands
behind that tag, up to the tag that opened the next one, derives
(`Segment.Opened`).
-/

namespace Shortcode

variable {d : Delimiters} {text before rest : Text}

/-! ## How reading comes to a tag -/

/-- **The next tag that reading comes to**: the text is `before`, an opening
delimiter, and `rest`. In front of the delimiter stand tags, taken one
after the other, each at the first opening delimiter behind the one before
it. -/
inductive Segment.ComesTo (d : Delimiters) : Text → Text → Text → Prop
  | first {before rest : Text} :
      Text.IsFirst d.opening before rest →
      ComesTo d (before ++ d.opening ++ rest) before rest
  | behind {lead inside name args text before rest : Text} {form : TagForm} :
      Text.IsFirst d.opening lead (inside ++ d.closing ++ text) →
      Tag.EndsAfter d.closing inside text →
      Tag.Form inside form name args → ComesTo d text before rest →
      ComesTo d (lead ++ d.opening ++ (inside ++ d.closing ++ text))
        (lead ++ d.opening ++ (inside ++ d.closing ++ before)) rest

theorem Segment.ComesTo.eq (h : ComesTo d text before rest) :
    text = before ++ d.opening ++ rest := by
  induction h with
  | first => rfl
  | behind _ _ _ _ ih =>
    rw [ih]
    simp

namespace Lexeme

open Segment (ComesTo)

/-- A fault that ends the pieces is one of the tag that reading comes to
behind them. -/
theorem exists_of_fault {f : TagFault} (hd : d.opening ≠ [])
    (h : (scan d text).fault = some f) :
    ∃ before rest, ComesTo d text before rest
      ∧ Tag.read d rest = .error f
      ∧ scan d before = ⟨(scan d text).lexemes, none⟩ := by
  fun_induction scan d text with
  | case1 => simp [fault_consLiteral] at h
  | case2 text before rest hc fault hr =>
    rw [fault_consLiteral] at h
    obtain rfl := Option.some.inj h
    obtain ⟨rfl, hfirst⟩ := Text.cut?_eq_some_iff.mp hc
    refine ⟨before, rest, .first hfirst, hr, ?_⟩
    rw [scan_of_cut?_eq_none (Text.cut?_before hd hc), consLiteral_eq,
      consLiteral_eq]
    rfl
  | case3 text lead rest hc t behind hr s ih =>
    rw [fault_consLiteral] at h
    obtain ⟨before, rest', hto, hread, hs⟩ := ih h
    obtain ⟨inside, rfl, hend, ht⟩ := Tag.read_eq_ok_iff.mp hr
    obtain ⟨rfl, hfirst⟩ := Text.cut?_eq_some_iff.mp hc
    refine ⟨_, rest', .behind hfirst hend (Tag.form_of_ofInside ht) hto,
      hread, ?_⟩
    have hbehind : behind = before ++ (d.opening ++ rest') := by
      rw [hto.eq, List.append_assoc]
    have hcut := scan_cut hc hr hbehind hs
    rw [Tag.source_ofInside ht] at hcut
    simp only [List.append_assoc] at hcut ⊢
    rw [hcut, consLiteral_eq, consLiteral_eq]
    rfl

/-- A tag among the pieces is one that reading comes to, behind the pieces
in front of it. -/
theorem exists_of_tag {t : Tag} {pre post : List Lexeme}
    (h : (scan d text).lexemes = pre ++ .tag t :: post) :
    ∃ rest behind, ComesTo d text (pre.flatMap source) rest
      ∧ Tag.read d rest = .ok (t, behind)
      ∧ scan d behind = ⟨post, (scan d text).fault⟩ := by
  refine induction_to_tag
    (motive := fun text pre => ∃ rest behind,
      ComesTo d text (pre.flatMap source) rest
        ∧ Tag.read d rest = .ok (t, behind)
        ∧ scan d behind = ⟨post, (scan d text).fault⟩)
    (fun hc hr hp => ?_) (fun hc hr _ ih => ?_) h
  · obtain ⟨rfl, hfirst⟩ := Text.cut?_eq_some_iff.mp hc
    rw [sources_consLiteral, List.flatMap_nil, List.append_nil,
      fault_scan_of_read hc hr]
    exact ⟨_, _, .first hfirst, hr, by rw [← hp]⟩
  · obtain ⟨rest', behind', hto, hread, hs⟩ := ih
    rw [fault_scan_of_read hc hr]
    obtain ⟨inside, rfl, hend, ht⟩ := Tag.read_eq_ok_iff.mp hr
    obtain ⟨rfl, hfirst⟩ := Text.cut?_eq_some_iff.mp hc
    have hto' := ComesTo.behind hfirst hend (Tag.form_of_ofInside ht) hto
    refine ⟨rest', behind', ?_, hread, hs⟩
    rw [sources_consLiteral]
    simpa [prepend, source, Tag.source_ofInside ht] using hto'

end Lexeme

/-! ## The blocks that pieces leave open -/

/-- A derivation goes on with another one. -/
theorem Derives.append {ts us : List PlacedTag} {ps qs : List Production}
    (h : Derives ts ps) (hu : Derives us qs) :
    Derives (ts ++ us) (ps ++ qs) := by
  induction h with
  | nil => exact hu
  | single hf _ ih => exact .single hf ih
  | block ho hc hn hi _ _ ih =>
    rw [List.cons_append, List.append_assoc, List.cons_append]
    exact .block ho hc hn hi ih

/-- The blocks that are open, the innermost first. -/
def OpenBlock.stack : Option OpenBlock → List (Text × Nat)
  | none => []
  | some b => b.inner ++ [(b.name, b.start)]

theorem OpenBlock.stack_some (b : OpenBlock) :
    ∃ outer, stack (some b) = b.innermost :: outer := by
  show ∃ outer, b.inner ++ [(b.name, b.start)]
    = b.inner.headD (b.name, b.start) :: outer
  cases b.inner with
  | nil => exact ⟨[], rfl⟩
  | cons i inner => exact ⟨inner ++ [(b.name, b.start)], rfl⟩

namespace Segment

/-- **Open blocks are opened**: the innermost one by a tag of its name, where
it starts, behind which the tags derive; and the others in front of that
tag. -/
def Opened : List Lexeme → List (Text × Nat) → Prop
  | _, [] => True
  | ls, (name, n) :: stack =>
    ∃ outer o body, ls = outer ++ .tag o :: body ∧ o.form = .opening
      ∧ o.name = name ∧ n = Lexeme.size outer
      ∧ (∃ ps, Derives (Lexeme.placed 0 body) ps) ∧ Opened outer stack

section

variable {ls : List Lexeme} {stack : List (Text × Nat)}

/-- What derives changes no open block. -/
theorem Opened.extend (h : Opened ls stack) {more : List Lexeme}
    (hm : ∃ ps, Derives (Lexeme.placed 0 more) ps) :
    Opened (ls ++ more) stack := by
  cases stack with
  | nil => trivial
  | cons i stack =>
    obtain ⟨outer, o, body, rfl, ho, hn, hs, ⟨ps, hb⟩, hrest⟩ := h
    obtain ⟨qs, hm⟩ := hm
    obtain ⟨rs, hm⟩ := Lexeme.derives_placed hm (0 + Lexeme.size body)
    refine ⟨outer, o, body ++ more, by simp, ho, hn, hs, ?_, hrest⟩
    rw [Lexeme.placed_append]
    exact ⟨_, hb.append hm⟩

/-- An opening tag opens a block inside the others. -/
theorem Opened.push (h : Opened ls stack) {o : Tag} (ho : o.form = .opening) :
    Opened (ls ++ [.tag o]) ((o.name, Lexeme.size ls) :: stack) :=
  ⟨ls, o, [], rfl, ho, rfl, rfl, ⟨[], .nil⟩, h⟩

/-- A closing tag of its name closes the innermost block. -/
theorem Opened.pop {name : Text} {n : Nat} (h : Opened ls ((name, n) :: stack))
    {c : Tag} (hc : c.form = .closing) (hn : c.name = name) :
    Opened (ls ++ [.tag c]) stack := by
  obtain ⟨outer, o, body, rfl, ho, hname, -, ⟨ps, hb⟩, hrest⟩ := h
  rw [List.append_assoc]
  refine hrest.extend ?_
  obtain ⟨qs, hb⟩ := Lexeme.derives_placed hb (0 + o.source.length)
  rw [List.cons_append, Lexeme.placed, Lexeme.placed_append]
  exact ⟨_, .block ho hc (hname.trans hn.symm) hb .nil⟩

end

/-- **How pieces are gone through**, from the front of a text, and the block
that they leave open. -/
inductive Leaves : List Lexeme → Option OpenBlock → Prop
  | nil : Leaves [] none
  | snoc {ls : List Lexeme} {block block' : Option OpenBlock} {l : Lexeme}
      {segments : List Segment} :
      Leaves ls block →
      step 0 block (Lexeme.size ls) l = .ok (block', segments) →
      Leaves (ls ++ [l]) block'

variable {ls : List Lexeme} {block : Option OpenBlock}

/-- **One piece keeps it so that open blocks are opened**: it is part of the
innermost one, opens one inside it, or closes it. -/
theorem Opened.step {block' : Option OpenBlock} {l : Lexeme}
    {segments : List Segment} (h : Opened ls (OpenBlock.stack block))
    (hs : step 0 block (Lexeme.size ls) l = .ok (block', segments)) :
    Opened (ls ++ [l]) (OpenBlock.stack block') := by
  cases block with
  | none =>
    cases l with
    | literal t =>
      obtain ⟨rfl, rfl⟩ := Prod.mk.inj (Except.ok.inj hs)
      trivial
    | tag t =>
      rw [Segment.step] at hs
      cases hf : t.form with
      | closing => simp [hf] at hs
      | selfClosing =>
        simp only [hf, map_eq_ok_iff] at hs
        obtain ⟨args, -, hb⟩ := hs
        obtain ⟨rfl, rfl⟩ := Prod.mk.inj hb
        trivial
      | opening =>
        simp only [hf, map_eq_ok_iff] at hs
        obtain ⟨args, -, hb⟩ := hs
        obtain ⟨rfl, rfl⟩ := Prod.mk.inj hb
        exact h.push hf
  | some b =>
    cases l with
    | literal t =>
      obtain ⟨rfl, rfl⟩ := Prod.mk.inj (Except.ok.inj hs)
      exact h.extend ⟨[], .nil⟩
    | tag t =>
      rw [Segment.step] at hs
      cases hf : t.form with
      | selfClosing =>
        simp only [hf] at hs
        obtain ⟨rfl, rfl⟩ := Prod.mk.inj (Except.ok.inj hs)
        exact h.extend ⟨_, .single hf .nil⟩
      | opening =>
        simp only [hf] at hs
        obtain ⟨rfl, rfl⟩ := Prod.mk.inj (Except.ok.inj hs)
        exact h.push hf
      | closing =>
        simp only [hf] at hs
        split at hs
        · next hn =>
          unfold OpenBlock.innermost at hn
          replace h : Opened ls (b.inner ++ [(b.name, b.start)]) := h
          cases hi : b.inner with
          | nil =>
            simp only [hi] at hs
            obtain ⟨rfl, rfl⟩ := Prod.mk.inj (Except.ok.inj hs)
            trivial
          | cons i inner =>
            simp only [hi] at hs
            obtain ⟨rfl, rfl⟩ := Prod.mk.inj (Except.ok.inj hs)
            rw [hi] at h hn
            exact Opened.pop h hf hn
        · simp at hs

/-- **The blocks that pieces leave open are opened.** -/
theorem Leaves.opened (h : Leaves ls block) :
    Opened ls (OpenBlock.stack block) := by
  induction h with
  | nil => trivial
  | snoc _ hs ih => exact ih.step hs

/-- Pieces that are gone through are put together with what follows. -/
theorem Leaves.exists_assemble (h : Leaves ls block) :
    ∃ segments, ∀ fault back,
      assemble 0 fault none 0 (ls ++ back)
        = (assemble 0 fault block (Lexeme.size ls) back).map
            (segments ++ ·) := by
  induction h with
  | nil => exact ⟨[], fun fault back => (map_nil_append _).symm⟩
  | @snoc ls block block' l segments _ hs ih =>
    obtain ⟨front, hfront⟩ := ih
    refine ⟨front ++ segments, fun fault back => ?_⟩
    rw [List.append_assoc, List.singleton_append, hfront, assemble_cons, hs,
      Except.bind, map_append_map, Lexeme.size_append, Lexeme.size_cons,
      Lexeme.size_nil, Nat.add_zero]

/-- Pieces that are gone through are gone through up to each of them. -/
theorem Leaves.front {back : List Lexeme} (h : Leaves (ls ++ back) block) :
    ∃ block', Leaves ls block' := by
  generalize he : ls ++ back = all at h
  induction h generalizing back with
  | nil =>
    obtain ⟨rfl, -⟩ := List.append_eq_nil_iff.mp he
    exact ⟨none, .nil⟩
  | @snoc front _ _ l _ hl hs ih =>
    rcases List.eq_nil_or_concat back with rfl | ⟨back, x, rfl⟩
    · rw [List.append_nil] at he
      subst he
      exact ⟨_, .snoc hl hs⟩
    · rw [List.concat_eq_append, ← List.append_assoc] at he
      exact ih (List.append_inj_left' he rfl)

/-- **What is wrong with pieces** is one of them, behind others that are
gone through, or what is left to say at their end. -/
theorem Leaves.cases_of_error {fault : Option TagFault} {back : List Lexeme}
    {e : Error} (h : Leaves ls block)
    (he : assemble 0 fault block (Lexeme.size ls) back = .error e) :
    (∃ block', Leaves (ls ++ back) block'
        ∧ atEnd 0 fault block' (Lexeme.size (ls ++ back)) = .error e)
      ∨ ∃ front block' l more, ls ++ back = front ++ l :: more
          ∧ Leaves front block'
          ∧ step 0 block' (Lexeme.size front) l = .error e := by
  induction back generalizing ls block with
  | nil =>
    rw [assemble] at he
    rw [List.append_nil]
    exact .inl ⟨block, h, he⟩
  | cons l back ih =>
    rcases assemble_cons_eq_error_iff.mp he with hs | ⟨y, hs, he⟩
    · exact .inr ⟨ls, block, l, back, rfl, h, hs⟩
    · have hl : Leaves (ls ++ [l]) y.1 := .snoc h hs
      have hsize : Lexeme.size (ls ++ [l])
          = Lexeme.size ls + l.source.length := by
        simp [Lexeme.size_append]
      rw [← hsize] at he
      have := ih hl he
      rwa [List.append_assoc, List.singleton_append] at this

end Segment

/-! ## What is wrong with a tag -/

/-- The tag whose inside starts a text: it ends behind `inside`. -/
def Tag.Ends (d : Delimiters) (text inside behind : Text) : Prop :=
  text = inside ++ d.closing ++ behind ∧ EndsAfter d.closing inside behind

namespace Segment

/-- **Nothing is wrong** with a text, except that it may leave a block
open. -/
def Sound (d : Delimiters) (text : Text) : Prop :=
  (∃ segments, parse d text = .ok segments)
    ∨ ∃ name m, parse d text = .error ⟨.unterminatedBlock, some name, some m⟩

/-- **What is wrong at a tag**, of which `before` stands in front, and
`rest` behind its opening delimiter: the cause, the name that is told, and
the position, counted from the front of the tag. In front of the tag
nothing is wrong. -/
inductive Offence (d : Delimiters) (before rest : Text) :
    Cause → Option Text → Nat → Prop
  /-- There is no place at which the tag can end. -/
  | unterminatedTag :
      Sound d before →
      (∀ u v, rest = u ++ d.closing ++ v → ¬Tag.CanEnd d.closing u v) →
      Offence d before rest (.unterminatedTag d.closing) none 0
  /-- Behind the slash of a closing tag stands something else than a
  name. -/
  | invalidClosingTag {lead found inside behind : Text} :
      Sound d before → Tag.Ends d rest inside behind →
      Text.IsBlank lead → inside = lead ++ '/' :: found →
      ¬IsName found.trim →
      Offence d before rest (.invalidClosingTag inside) none 0
  /-- The tag starts with neither a slash nor a name. -/
  | missingName {lead found inside behind : Text} :
      Sound d before → Tag.Ends d rest inside behind →
      Text.IsBlank lead → inside = lead ++ found →
      (∀ c ∈ found.head?,
        isBlank c = false ∧ c ≠ '/' ∧ isNameStart c = false) →
      Offence d before rest .missingName none 0
  /-- The name is followed by neither white space nor a slash. -/
  | invalidNameCharacter {lead name more inside behind : Text} {c : Char} :
      Sound d before → Tag.Ends d rest inside behind →
      Text.IsBlank lead → IsName name →
      inside = lead ++ (name ++ c :: more) →
      isNameRest c = false → isBlank c = false → c ≠ '/' →
      Offence d before rest (.invalidNameCharacter c) (some name)
        (d.opening.length + lead.length + name.length)
  /-- The tag opens a block; all blocks opened behind it are closed, and it
  is not. -/
  | unterminatedBlock {name args inside behind : Text}
      {tags : List PlacedTag} {productions : List Production} :
      Sound d before → Tag.Ends d rest inside behind →
      Tag.Form inside .opening name args →
      TagsFrom d 0 behind tags → Derives tags productions →
      Offence d before rest .unterminatedBlock (some name) 0
  /-- The tag closes a block, and none is open. -/
  | strayClosingTag {name args inside behind : Text}
      {segments : List Segment} :
      parse d before = .ok segments → Tag.Ends d rest inside behind →
      Tag.Form inside .closing name args →
      Offence d before rest .strayClosingTag (some name) 0
  /-- The tag closes a block, and the innermost one that is open has
  another name. -/
  | mismatchedClosingTag {name args expected inside behind : Text}
      {m : Int} :
      parse d before = .error ⟨.unterminatedBlock, some expected, some m⟩ →
      Tag.Ends d rest inside behind → Tag.Form inside .closing name args →
      name ≠ expected →
      Offence d before rest (.mismatchedClosingTag expected) (some name) 0
  /-- The tag stands outside every block, and its arguments go wrong. -/
  | argument {lead name args trail inside behind : Text} {form : TagForm}
      {segments : List Segment} {cause : Cause} {k : Nat} :
      parse d before = .ok segments → Tag.Ends d rest inside behind →
      Tag.Form inside form name args → form ≠ .closing →
      Text.IsBlank lead → inside = lead ++ (name ++ (args ++ trail)) →
      Arguments.Faulty args cause k →
      Offence d before rest cause (some name)
        (d.opening.length + lead.length + name.length + k)

end Segment

/-! ## What is told is what is wrong -/

/-- The inside of a tag with a name in front: white space, the name, and
what is parted from it, with the arguments in front. -/
theorem Tag.Form.exists_named {inside name args : Text} {form : TagForm}
    (h : Form inside form name args) (hf : form ≠ .closing) :
    ∃ lead trail, Text.IsBlank lead ∧ IsName name ∧ Parted (args ++ trail)
      ∧ inside = lead ++ (name ++ (args ++ trail)) := by
  cases h with
  | closing => exact absurd rfl hf
  | @selfClosing lead _ _ trail hl hn hp =>
    exact ⟨lead, '/' :: trail, hl, hn, hp.append (parted_slash trail), rfl⟩
  | @opening lead _ _ trail hl hn hp _ ht =>
    exact ⟨lead, trail, hl, hn, hp.append (parted_of_isBlank ht), rfl⟩

namespace Segment

/-- An inside that cannot be read is wrong as the fault says. -/
theorem offence_of_inside {f : TagFault} {inside behind : Text}
    (hs : Sound d before) (hend : Tag.Ends d rest inside behind)
    (hf : Tag.ofInside d inside = .error f) :
    Offence d before rest f.cause f.name f.position := by
  obtain ⟨lead, hl, hi, hhead⟩ := Text.trimLeft_spec inside
  have hlead : inside.length - inside.trimLeft.length = lead.length := by
    have := congrArg List.length hi
    rw [List.length_append] at this
    omega
  have hsplit := splitWord_append isNameRest inside.trimLeft
  unfold Tag.ofInside at hf
  dsimp only at hf
  split at hf
  · next found hr =>
    split at hf
    · simp at hf
    · next hn =>
      obtain rfl := Except.error.inj hf
      rw [hr] at hi
      exact .invalidClosingTag hs hend hl hi fun h => hn (isName_iff.mpr h)
  · next hslash =>
    rcases splitWord_spec isNameRest inside.trimLeft with
      ⟨hempty, hstart⟩ | ⟨hword, hrest⟩
    · rw [if_pos (by rw [splitName, hempty]; rfl)] at hf
      obtain rfl := Except.error.inj hf
      refine .missingName hs hend hl hi fun c hc =>
        ⟨hhead c hc, ?_, hstart c hc⟩
      rintro rfl
      obtain ⟨r, hr⟩ := List.head?_eq_some_iff.mp hc
      exact hslash r hr
    · have hne : (splitName inside.trimLeft).1 ≠ [] := by
        obtain ⟨x, r, he, -⟩ := hword
        rw [splitName, he]
        exact List.cons_ne_nil x r
      rw [if_neg (by simpa using hne)] at hf
      split at hf
      · next c more hr =>
        split at hf
        · simp at hf
        · next hc =>
          obtain rfl := Except.error.inj hf
          rw [splitName] at hr
          rw [hr] at hsplit hrest
          rw [← hsplit] at hi
          simp only [Bool.or_eq_true, beq_iff_eq, not_or] at hc
          rw [hlead]
          exact .invalidNameCharacter hs hend hl hword hi (hrest c rfl)
            (by simpa using hc.1) hc.2
      · simp at hf

/-- A tag that cannot be read is wrong as the fault says. -/
theorem offence_of_fault {f : TagFault} (hs : Sound d before)
    (h : Tag.read d rest = .error f) :
    Offence d before rest f.cause f.name f.position := by
  unfold Tag.read at h
  split at h
  · next hc =>
    obtain rfl := Except.error.inj h
    refine .unterminatedTag hs fun u v hu hcan => ?_
    obtain ⟨inside, behind, hcut, -⟩ :=
      Tag.exists_cutInside hu (Tag.unquoted_iff.mp hcan.1) hcan.2
    rw [hc] at hcut
    simp at hcut
  · next inside behind hc =>
    split at h
    · simp at h
    · next f' hf =>
      obtain rfl := Except.error.inj h
      exact offence_of_inside hs (Tag.cutInside_eq_some_iff.mp hc) hf

/-- **A text that is read up to a tag**, told by what is open there. -/
theorem Leaves.parse_eq {ls : List Lexeme} {block : Option OpenBlock}
    (h : Leaves ls block) (hs : Lexeme.scan d before = ⟨ls, none⟩) :
    (block = none → ∃ segments, parse d before = .ok segments)
      ∧ ∀ b, block = some b → parse d before
          = .error ⟨.unterminatedBlock, some b.innermost.1,
              some (b.innermost.2 : Int)⟩ := by
  obtain ⟨segments, hall⟩ := h.exists_assemble
  have he := hall none []
  rw [List.append_nil, assemble] at he
  have hparse : parse d before
      = (atEnd 0 none block (Lexeme.size ls)).map (segments ++ ·) := by
    unfold parse
    rw [hs]
    exact he
  constructor
  · rintro rfl
    exact ⟨_, hparse⟩
  · rintro b rfl
    rw [hparse, atEnd, Int.zero_add]
    rfl

theorem Leaves.sound {ls : List Lexeme} {block : Option OpenBlock}
    (h : Leaves ls block) (hs : Lexeme.scan d before = ⟨ls, none⟩) :
    Sound d before := by
  obtain ⟨hnone, hsome⟩ := h.parse_eq hs
  cases block with
  | none => exact .inl (hnone rfl)
  | some b => exact .inr ⟨_, _, hsome b rfl⟩

/-- **An error that is explained**: what it tells is wrong with a tag that
reading comes to, at the position it tells. -/
def Explained (d : Delimiters) (text : Text) (e : Error) : Prop :=
  ∃ before rest k, ComesTo d text before rest
    ∧ Offence d before rest e.cause e.name k
    ∧ e.offset = some ((before.length + k : Nat) : Int)

section

variable {ls : List Lexeme} {block : Option OpenBlock} {e : Error}

/-- The fault that ends the pieces is explained. -/
theorem explained_of_fault {f : TagFault} (hd : d.opening ≠ [])
    (hl : Leaves (Lexeme.scan d text).lexemes block)
    (hf : (Lexeme.scan d text).fault = some f)
    (h : atEnd 0 (some f) block (Lexeme.size (Lexeme.scan d text).lexemes)
      = .error e) : Explained d text e := by
  obtain rfl := Except.error.inj h
  obtain ⟨before, rest, hto, hread, hs⟩ := Lexeme.exists_of_fault hd hf
  have hsize : Lexeme.size (Lexeme.scan d text).lexemes = before.length :=
    (congrArg List.length (Lexeme.sources_of_scan_eq hs)).symm
  refine ⟨before, rest, f.position, hto,
    offence_of_fault (hl.sound hs) hread, ?_⟩
  rw [hsize, Int.zero_add]

/-- A block that is still open at the end is explained: it has a tag among
the pieces. -/
theorem explained_of_open {b : OpenBlock} (hd : d.opening ≠ [])
    (hl : Leaves (Lexeme.scan d text).lexemes (some b))
    (hf : (Lexeme.scan d text).fault = none)
    (h : atEnd 0 none (some b) (Lexeme.size (Lexeme.scan d text).lexemes)
      = .error e) : Explained d text e := by
  obtain ⟨outer, hstack⟩ := OpenBlock.stack_some b
  have hopened := hl.opened
  rw [hstack] at hopened
  rw [atEnd] at h
  generalize b.innermost = i at h hopened
  obtain ⟨name, n⟩ := i
  obtain rfl := Except.error.inj h
  obtain ⟨pre, o, body, hls, ho, hname, hn, ⟨ps, hbody⟩, -⟩ := hopened
  obtain ⟨rest, behind, hto, hread, hs⟩ := Lexeme.exists_of_tag hls
  obtain ⟨inside, hi, hends, ht⟩ := Tag.read_eq_ok_iff.mp hread
  have hform := Tag.form_of_ofInside ht
  rw [ho, hname] at hform
  rw [hf] at hs
  rw [hls] at hl
  obtain ⟨block', hpre⟩ := hl.front
  refine ⟨_, rest, 0, hto, .unterminatedBlock
    (hpre.sound (Lexeme.scan_sources hd hls)) ⟨hi, hends⟩ hform
    (tagsFrom_iff.mpr ⟨by rw [hs], rfl⟩) (by rw [hs]; exact hbody), ?_⟩
  dsimp only
  rw [hn, Int.zero_add]
  rfl

/-- A piece that cannot stand where it stands is explained. -/
theorem explained_of_step {l : Lexeme} {more : List Lexeme}
    (hd : d.opening ≠ []) (hl : Leaves ls block)
    (hls : (Lexeme.scan d text).lexemes = ls ++ l :: more)
    (h : step 0 block (Lexeme.size ls) l = .error e) :
    Explained d text e := by
  obtain ⟨t, rfl, hcases⟩ := cases_of_step_error h
  simp only [Int.zero_add] at hcases
  obtain ⟨rest, behind, hto, hread, -⟩ := Lexeme.exists_of_tag hls
  obtain ⟨inside, hi, hends, ht⟩ := Tag.read_eq_ok_iff.mp hread
  have hform := Tag.form_of_ofInside ht
  obtain ⟨hnone, hsome⟩ := hl.parse_eq (Lexeme.scan_sources hd hls)
  rcases hcases with ⟨rfl, hf, rfl⟩ | ⟨rfl, hf, hargs⟩
    | ⟨b, rfl, hf, hne, rfl⟩
  · obtain ⟨segments, hok⟩ := hnone rfl
    rw [hf] at hform
    exact ⟨_, rest, 0, hto, .strayClosingTag hok ⟨hi, hends⟩ hform, rfl⟩
  · obtain ⟨segments, hok⟩ := hnone rfl
    obtain ⟨lead, trail, hlead, hn, hp, rfl⟩ := hform.exists_named hf
    have hat : t.argumentsAt
        = d.opening.length + lead.length + t.name.length := by
      have := (Tag.ofInside_named d hlead hn hp).symm.trans ht
      exact (congrArg Tag.argumentsAt (Except.ok.inj this)).symm
    unfold Arguments.parse at hargs
    split at hargs
    · simp at hargs
    · next fault hfault =>
      obtain rfl := Except.error.inj hargs
      obtain ⟨k, hk, hfaulty⟩ :=
        Arguments.exists_of_parseFrom_eq_error hfault
      refine ⟨_, rest, _, hto, .argument hok ⟨hi, hends⟩ hform hf hlead rfl
        hfaulty, ?_⟩
      have hsize : (ls.flatMap Lexeme.source).length = Lexeme.size ls := rfl
      dsimp only
      rw [hk, hat, Nat.zero_add, hsize]
      congr 1
      push_cast
      omega
  · rw [hf] at hform
    exact ⟨_, rest, 0, hto, .mismatchedClosingTag (hsome b rfl)
      ⟨hi, hends⟩ hform hne, rfl⟩

/-- **Whatever is told of a text that cannot be read is explained.** -/
theorem explained_of_parse (hd : d.opening ≠ [])
    (h : parse d text = .error e) : Explained d text e := by
  have hcases := Leaves.nil.cases_of_error h
  rw [List.nil_append] at hcases
  rcases hcases with ⟨block, hl, hend⟩ | ⟨front, block, l, more, hls, hl, hstep⟩
  · cases hf : (Lexeme.scan d text).fault with
    | some f =>
      rw [hf] at hend
      exact explained_of_fault hd hl hf hend
    | none =>
      rw [hf] at hend
      cases block with
      | none => simp [atEnd] at hend
      | some b => exact explained_of_open hd hl hf hend
  · exact explained_of_step hd hl hls hstep

end

end Segment

/-! ## Where an error points -/

/-- **What stands at a position** by its cause: the character that is named;
or, in front of it, a key and the sign that announces its value, and for a
quotation that is not closed the quote behind them. -/
def Text.Shows (text : Text) (p : Nat) : Cause → Prop
  | .invalidNameCharacter c | .unexpectedCharacter c | .missingSeparator c =>
    ∃ u v, text = u ++ c :: v ∧ p = u.length
  | .unquotedValue key =>
    ∃ u v, text = u ++ (key ++ '=' :: v) ∧ p = u.length + (key.length + 1)
  | .unterminatedValue key =>
    ∃ u q v, text = u ++ (key ++ '=' :: q :: v) ∧ Tag.isQuote q = true
      ∧ p = u.length + (key.length + 1)
  | _ => False

theorem Text.getElem?_behind {u v : Text} {c : Char} {p : Nat}
    (h : text = u ++ c :: v) (hp : p = u.length) : text[p]? = some c := by
  rw [h, hp, List.getElem?_append_right (Nat.le_refl _), Nat.sub_self]
  rfl

theorem Text.suffix_take {u a b : Text} {p : Nat}
    (h : text = u ++ a ++ b) (hp : p = (u ++ a).length) :
    a <:+ text.take p := by
  rw [h, hp, List.take_left]
  exact List.suffix_append ..

/-- What stands in a part of a text stands in the text. -/
theorem Text.Shows.around {t : Text} {k : Nat} {cause : Cause}
    (h : t.Shows k cause) (a b : Text) :
    Shows (a ++ (t ++ b)) (a.length + k) cause := by
  cases cause with
  | invalidNameCharacter c | unexpectedCharacter c | missingSeparator c =>
    obtain ⟨u, v, rfl, rfl⟩ := h
    exact ⟨a ++ u, v ++ b, by simp, by simp⟩
  | unquotedValue key =>
    obtain ⟨u, v, rfl, rfl⟩ := h
    exact ⟨a ++ u, v ++ b, by simp, by simp [Nat.add_assoc]⟩
  | unterminatedValue key =>
    obtain ⟨u, q, v, rfl, hq, rfl⟩ := h
    exact ⟨a ++ u, q, v ++ b, by simp, hq, by simp [Nat.add_assoc]⟩
  | _ => exact h.elim

/-- What goes wrong in an argument text stands in it. -/
theorem Arguments.Faulty.shows {args : Text} {cause : Cause} {k : Nat}
    (h : Faulty args cause k) : args.Shows k cause := by
  obtain @⟨_, front, t, _, k, -, -, hf⟩ := h
  have ht : t.Shows k cause := by
    cases hf with
    | unexpected => exact ⟨[], _, rfl, rfl⟩
    | unseparated => exact ⟨_, _, rfl, rfl⟩
    | @unquoted key => exact ⟨[], _, rfl, (Nat.zero_add _).symm⟩
    | @unterminated key _ q _ hq =>
      exact ⟨[], q, _, rfl, hq, (Nat.zero_add _).symm⟩
  have := ht.around front []
  rwa [List.append_nil] at this

/-- A tag of one of the forms ends with something. -/
theorem Tag.Ends.closing_ne_nil {inside behind name args : Text}
    {form : TagForm} (h : Ends d rest inside behind)
    (hf : Form inside form name args) : d.closing ≠ [] := by
  obtain ⟨t, ht, -⟩ := ofInside_of_form d hf
  exact Tag.closing_ne_nil (read_eq_ok_iff.mpr ⟨inside, h.1, h.2, ht⟩)

namespace Segment

/-- **Where an error points** that tells of the tag behind `before`: to the
front of the tag, or to a place in its inside, at which the text shows
what is told. -/
def Points (d : Delimiters) (text before rest : Text) (p : Nat) :
    Cause → Prop
  | .unterminatedTag _ | .invalidClosingTag _ | .missingName
  | .unterminatedBlock | .strayClosingTag | .mismatchedClosingTag _ =>
    p = before.length ∧ d.opening <+: text.drop p
  | .invalidNameCharacter c | .unexpectedCharacter c | .missingSeparator c =>
    text[p]? = some c
      ∧ ∃ inside behind, Tag.Ends d rest inside behind
        ∧ before.length + d.opening.length ≤ p
        ∧ p < before.length + d.opening.length + inside.length
  | .unquotedValue key =>
    0 < p ∧ text[p - 1]? = some '=' ∧ key ++ ['='] <:+ text.take p
  | .unterminatedValue key =>
    (∃ q, text[p]? = some q ∧ Tag.isQuote q = true)
      ∧ key ++ ['='] <:+ text.take p
  | _ => False

variable {cause : Cause} {name : Option Text} {k : Nat}

/-- A tag starts with its opening delimiter. -/
theorem ComesTo.opening_prefix (h : ComesTo d text before rest) :
    d.opening <+: text.drop before.length := by
  rw [h.eq, List.append_assoc, List.drop_left]
  exact List.prefix_append ..

/-- **What is shown in the inside of a tag** is shown in the text, behind
the opening delimiter. -/
theorem points_of_shows {inside behind : Text} {n : Nat}
    (hto : ComesTo d text before rest) (hends : Tag.Ends d rest inside behind)
    (h : inside.Shows n cause) :
    Points d text before rest (before.length + (d.opening.length + n))
      cause := by
  have hall := h.around (before ++ d.opening) (d.closing ++ behind)
  have htext : before ++ d.opening ++ (inside ++ (d.closing ++ behind))
      = text := by
    rw [hto.eq, hends.1, List.append_assoc inside]
  rw [htext, List.length_append, Nat.add_assoc] at hall
  generalize hp : before.length + (d.opening.length + n) = p at hall
  cases cause with
  | invalidNameCharacter c | unexpectedCharacter c | missingSeparator c =>
    obtain ⟨u, v, he, hu⟩ := hall
    obtain ⟨u', v', he', hu'⟩ := h
    refine ⟨Text.getElem?_behind he hu, inside, behind, hends, by omega, ?_⟩
    have := congrArg List.length he'
    simp only [List.length_append, List.length_cons] at this
    omega
  | unquotedValue key =>
    obtain ⟨u, v, he, hu⟩ := hall
    have hsign : text = u ++ key ++ '=' :: v := by simp [he]
    refine ⟨by omega, Text.getElem?_behind hsign ?_, ?_⟩
    · rw [hu, List.length_append]
      rfl
    · exact Text.suffix_take (b := v) (u := u) (by simp [he]) (by simp [hu])
  | unterminatedValue key =>
    obtain ⟨u, q, v, he, hq, hu⟩ := hall
    have hquote : text = u ++ (key ++ ['=']) ++ q :: v := by simp [he]
    exact ⟨⟨q, Text.getElem?_behind hquote (by simp [hu]), hq⟩,
      Text.suffix_take hquote (by simp [hu])⟩
  | _ => exact h.elim

/-- **What is wrong is where the error points.** -/
theorem Offence.points (h : Offence d before rest cause name k)
    (hto : ComesTo d text before rest) :
    Points d text before rest (before.length + k) cause := by
  have hfront := hto.opening_prefix
  cases h with
  | unterminatedTag | invalidClosingTag | missingName | unterminatedBlock
  | strayClosingTag | mismatchedClosingTag => exact ⟨rfl, hfront⟩
  | @invalidNameCharacter lead name more _ _ c _ hends _ _ hi =>
    rw [Nat.add_assoc d.opening.length]
    have hs : Text.Shows (lead ++ (name ++ c :: more))
        (lead.length + name.length) (.invalidNameCharacter c) :=
      ⟨lead ++ name, more, by simp, by simp⟩
    rw [← hi] at hs
    exact points_of_shows hto hends hs
  | @argument lead name args trail _ _ _ _ _ k _ hends _ _ _ hi hf =>
    have hs := hf.shows.around (lead ++ name) trail
    rw [List.append_assoc, ← hi, List.length_append] at hs
    rw [Nat.add_assoc d.opening.length, Nat.add_assoc d.opening.length]
    exact points_of_shows hto hends hs

/-- What is wrong is in the text. -/
theorem Offence.lt (h : Offence d before rest cause name k)
    (hd : d.opening ≠ []) (hto : ComesTo d text before rest) :
    before.length + k < text.length := by
  have hpos := List.length_pos_iff.mpr hd
  have htext := congrArg List.length hto.eq
  simp only [List.length_append] at htext
  cases h with
  | unterminatedTag | invalidClosingTag | missingName | unterminatedBlock
  | strayClosingTag | mismatchedClosingTag => omega
  | @invalidNameCharacter lead name more _ _ c _ hends _ _ hi =>
    have hrest := congrArg List.length hends.1
    rw [hi] at hrest
    simp only [List.length_append, List.length_cons] at hrest
    omega
  | @argument lead name args trail _ _ _ _ _ k _ hends hform _ _ hi hf =>
    have hle := hf.exists_spelled.1
    have hclosing := List.length_pos_iff.mpr (hends.closing_ne_nil hform)
    have hrest := congrArg List.length hends.1
    rw [hi] at hrest
    simp only [List.length_append] at hrest
    omega

/-- What is told of a text that stands somewhere else is told there. -/
theorem exists_of_parse_eq_error {origin : Int} {e : Error}
    (h : parse d text origin = .error e) :
    ∃ n : Int, e.offset = some (origin + n)
      ∧ parse d text = .error { e with offset := some n } := by
  rw [parse_moved d text 0 origin] at h
  cases hp : parse d text with
  | ok segments =>
    rw [hp] at h
    simp [movedResult] at h
  | error e₀ =>
    rw [hp] at h
    obtain rfl := Except.error.inj h
    obtain ⟨n, hn⟩ := exists_offset_of_assemble hp
    refine ⟨n, ?_, ?_⟩
    · simp [Error.moved, hn, Int.add_comm]
    · rw [← hn]
      rfl

/-- **Positions that are told** are positions of the text. -/
theorem exists_position_of_parse {origin : Int} {e : Error}
    (hd : d.opening ≠ []) (h : parse d text origin = .error e) :
    ∃ p : Nat, p < text.length ∧ e.offset = some (origin + p)
      ∧ parse d text = .error { e with offset := some (p : Int) }
      ∧ ∃ before rest k, ComesTo d text before rest
          ∧ Offence d before rest e.cause e.name k ∧ p = before.length + k := by
  obtain ⟨n, hn, hp⟩ := exists_of_parse_eq_error h
  obtain ⟨before, rest, k, hto, ho, hk⟩ := explained_of_parse hd hp
  obtain rfl := Option.some.inj hk
  exact ⟨before.length + k, ho.lt hd hto, hn, hp, before, rest, k, hto, ho, rfl⟩

/-- **Diagnoses are exact.** Let a text at a position of the document not
be read, with an opening delimiter that is not empty. The error is the one
that is told of the text alone, moved by the position of the text, and its
place is one of the text. It is the place of a tag that reading comes to,
with nothing wrong in front of it: the front of the tag, for a tag or a
block that does not end, a name that is missing, and a closing tag that is
none or closes nothing; the character that is named, inside the tag, for
one that cannot stand there; and for a value without a quote the place
behind the sign that announces it. -/
theorem parse_diagnosis {origin : Int} {e : Error} (hd : d.opening ≠ [])
    (h : parse d text origin = .error e) :
    ∃ p : Nat, p < text.length ∧ e.offset = some (origin + p)
      ∧ parse d text = .error { e with offset := some (p : Int) }
      ∧ ∃ before rest k, ComesTo d text before rest
          ∧ Offence d before rest e.cause e.name k ∧ p = before.length + k
          ∧ Points d text before rest p e.cause := by
  obtain ⟨p, hlt, hoffset, hp, before, rest, k, hto, ho, rfl⟩ :=
    exists_position_of_parse hd h
  exact ⟨_, hlt, hoffset, hp, before, rest, k, hto, ho, rfl, ho.points hto⟩

/-- A value that goes on behind its quotation, in the second tag of a text
that stands somewhere in a document. -/
theorem parse_diagnosis_argument :
    let d : Delimiters := {}
    let text := "<%a/%>b<% c k='v'd/%>".toList
    let e : Error := ⟨.missingSeparator 'd', some ['c'], some 57⟩
    (d.opening ≠ [] ∧ parse d text 40 = .error e)
      ∧ ∃ p : Nat, p < text.length ∧ e.offset = some (40 + (p : Int))
        ∧ parse d text = .error { e with offset := some (p : Int) }
        ∧ ∃ before rest k, ComesTo d text before rest
            ∧ Offence d before rest e.cause e.name k ∧ p = before.length + k
            ∧ Points d text before rest p e.cause := by
  intro d text e
  have hd : d.opening ≠ [] := by decide
  have h : parse d text 40 = .error e := by
    show parse {} "<%a/%>b<% c k='v'd/%>".toList 40 = _
    cbv
  exact ⟨⟨hd, h⟩, parse_diagnosis hd h⟩

end Segment

end Shortcode
