import Shortcode.Proofs.Pieces
import Shortcode.Proofs.Written

/-!
# Writing a tree and reading it back

A document is a tree: literal texts and shortcodes, where the body of a
block is such a tree again. A tree is written down by writing its parts
one behind the other (`Tree.Written`). It is read back by reading the
text, and the body of each block it has (`Tree.Reads`); reading gives the
tree that was written and no other.

What a literal text must not do is start a tag: the first opening
delimiter behind its first character has to be that of the tag that
follows it (`Tree.Fits`). Since delimiters may overlap with themselves
and with the text in front of them, this is asked of the text together
with the delimiter. Nothing is asked of the values of arguments.
-/

namespace Shortcode

/-! ## Trees -/

/-- **The tree of a text**: what stands at its front, and the tree of
what follows. -/
inductive Tree where
  | nil
  | text (t : Text) (rest : Tree)
  | single (name : Text) (arguments : Arguments) (rest : Tree)
  | block (name : Text) (arguments : Arguments) (body rest : Tree)
deriving DecidableEq, Repr, Inhabited

namespace Tree

/-- A literal text stands at the front. -/
def IsText : Tree → Prop
  | .text _ _ => True
  | _ => False

/-- The tree is empty. -/
def isNil : Tree → Bool
  | .nil => true
  | _ => false

/-- What a literal text must not do: with a tag behind it, start a tag
in front of that one; with nothing behind it, start a tag. -/
def LiteralFits (d : Delimiters) (followed : Bool) (t : Text) : Prop :=
  if followed then Text.IsFirst d.opening t []
  else ∀ u v, t ≠ u ++ d.opening ++ v

theorem literalFits_true_iff {d : Delimiters} {t : Text} :
    LiteralFits d true t
      ↔ Text.cut? d.opening (t ++ d.opening) = some (t, []) := by
  rw [Text.cut?_eq_some_iff]
  exact ⟨fun h => ⟨by simp, h⟩, fun h => h.2⟩

theorem literalFits_false_iff {d : Delimiters} {t : Text} :
    LiteralFits d false t ↔ Text.cut? d.opening t = none :=
  Text.cut?_eq_none_iff.symm

instance (d : Delimiters) : (followed : Bool) → (t : Text) →
    Decidable (LiteralFits d followed t)
  | true, _ => decidable_of_iff _ literalFits_true_iff.symm
  | false, _ => decidable_of_iff _ literalFits_false_iff.symm

/-- **A tree that can be written.** Literal texts are not empty and not
side by side, and they fit what follows them: the next part of the tree,
or, at its end, what the flag says stands behind the tree. -/
def Fits (d : Delimiters) (followed : Bool) : Tree → Prop
  | .nil => True
  | .text t rest =>
    t ≠ [] ∧ ¬rest.IsText ∧ LiteralFits d (followed || !rest.isNil) t
      ∧ rest.Fits d followed
  | .single name args rest =>
    IsName name ∧ (∀ a ∈ args, a.Writable) ∧ rest.Fits d followed
  | .block name args body rest =>
    IsName name ∧ (∀ a ∈ args, a.Writable) ∧ body.Fits d true
      ∧ rest.Fits d followed

instance : DecidablePred IsText
  | .text _ _ => isTrue trivial
  | .nil | .single _ _ _ | .block _ _ _ _ => isFalse id

instance decidableFits (d : Delimiters) (followed : Bool) :
    (tree : Tree) → Decidable (tree.Fits d followed)
  | .nil => isTrue trivial
  | .text _ rest =>
    have := decidableFits d followed rest
    inferInstanceAs (Decidable (_ ∧ _ ∧ _ ∧ _))
  | .single _ _ rest =>
    have := decidableFits d followed rest
    inferInstanceAs (Decidable (_ ∧ _ ∧ _))
  | .block _ _ body rest =>
    have := decidableFits d true body
    have := decidableFits d followed rest
    inferInstanceAs (Decidable (_ ∧ _ ∧ _ ∧ _))

/-- **A tree as it is written.** -/
inductive Written (d : Delimiters) : Tree → Text → Prop
  | nil : Written d .nil []
  | text {t s : Text} {rest : Tree} :
      Written d rest s → Written d (.text t rest) (t ++ s)
  | single {name a s : Text} {args : Arguments} {rest : Tree} :
      args.Written a → Written d rest s →
      Written d (.single name args rest)
        (d.opening ++ Tag.insideSingle name a ++ d.closing ++ s)
  | block {name a b s : Text} {args : Arguments} {body rest : Tree} :
      args.Written a → Written d body b → Written d rest s →
      Written d (.block name args body rest)
        (d.opening ++ Tag.insideOpened name a ++ d.closing ++ b
          ++ (d.opening ++ Tag.insideClosed name ++ d.closing) ++ s)

/-- What segments are read to: the body of a block is a text at its
place, and read like one. -/
inductive OfSegments (d : Delimiters) : List Segment → Tree → Prop
  | nil : OfSegments d [] .nil
  | text {t : Text} {n : Nat} {segments : List Segment} {rest : Tree} :
      OfSegments d segments rest →
      OfSegments d (.literal t n :: segments) (.text t rest)
  | single {inv : Invocation} {segments : List Segment} {rest : Tree} :
      inv.block = none → OfSegments d segments rest →
      OfSegments d (.invocation inv :: segments)
        (.single inv.name inv.arguments rest)
  | block {inv : Invocation} {b : Body} {inner segments : List Segment}
      {body rest : Tree} :
      inv.block = some b →
      Segment.parse d b.text (inv.origin + b.start) = .ok inner →
      OfSegments d inner body → OfSegments d segments rest →
      OfSegments d (.invocation inv :: segments)
        (.block inv.name inv.arguments body rest)

/-- **The tree that is read from a text** at a position of the
document: the text is read, and the bodies of its blocks are. -/
def Reads (d : Delimiters) (text : Text) (origin : Int) (tree : Tree) :
    Prop :=
  ∃ segments, Segment.parse d text origin = .ok segments
    ∧ OfSegments d segments tree

/-- Segments are read to one tree. -/
theorem OfSegments.unique {d : Delimiters} {segments : List Segment}
    {t₁ t₂ : Tree} (h₁ : OfSegments d segments t₁)
    (h₂ : OfSegments d segments t₂) : t₁ = t₂ := by
  induction h₁ generalizing t₂ with
  | nil =>
    cases h₂
    rfl
  | text _ ih =>
    cases h₂ with
    | text h => rw [ih h]
  | single hb _ ih =>
    cases h₂ with
    | single _ h => rw [ih h]
    | block hb' => simp [hb] at hb'
  | block hb hp _ _ ihb ih =>
    cases h₂ with
    | single hb' => simp [hb] at hb'
    | block hb' hp' hi h =>
      obtain rfl := Option.some.inj (hb.symm.trans hb')
      obtain rfl := Except.ok.inj (hp.symm.trans hp')
      rw [ihb hi, ih h]

end Tree

/-! ## The pieces of a written tree -/

namespace Tree

/-- What stands behind a tree: a tag, or nothing. -/
def Behind (d : Delimiters) (followed : Bool) (tail : Text) : Prop :=
  if followed then
    ∃ text t behind, tail = d.opening ++ text
      ∧ Tag.read d text = .ok (t, behind)
  else tail = []

/-- A literal text that fits what stands behind it is a piece of its
own. -/
theorem scan_literal {d : Delimiters} {t tail : Text} {followed : Bool}
    (hd : d.opening ≠ []) (ht : t ≠ []) (hf : LiteralFits d followed t)
    (hb : Behind d followed tail) :
    Lexeme.scan d (t ++ tail)
      = Lexeme.prepend [.literal t] (Lexeme.scan d tail) := by
  cases followed with
  | false =>
    obtain rfl : tail = [] := hb
    have hc : Text.cut? d.opening t = none := Text.cut?_eq_none_iff.mpr hf
    rw [List.append_nil, Lexeme.scan_of_cut?_eq_none hc, Lexeme.scan_nil hd,
      Lexeme.consLiteral_of_ne_nil ht]
  | true =>
    obtain ⟨text, tag, behind, rfl, hr⟩ := hb
    have hc : Text.cut? d.opening (t ++ (d.opening ++ text))
        = some (t, text) := by
      refine Text.cut?_eq_some_iff.mpr ⟨by simp, ?_⟩
      exact Text.IsFirst.append hf text
    rw [Lexeme.scan_of_read hc hr, Lexeme.scan_tag hr,
      Lexeme.consLiteral_of_ne_nil ht]

/-- **The pieces of a written tree**: they are what the scanner cuts its
text into, whatever stands behind it; their tags derive; and at the top
level of a text they are put together to segments that are read to the
tree. -/
structure Pieces (d : Delimiters) (followed : Bool) (tree : Tree)
    (text : Text) (ls : List Lexeme) : Prop where
  sources : ls.flatMap Lexeme.source = text
  scan : ∀ tail, Behind d followed tail →
    Lexeme.scan d (text ++ tail) = Lexeme.prepend ls (Lexeme.scan d tail)
  derives : ∀ n, ∃ ps, Derives (Lexeme.placed n ls) ps
  reads : ∀ origin n, ∃ segments,
    Segment.assemble origin none none n ls = .ok segments
      ∧ OfSegments d segments tree

/-- What the pieces are put together to is read from the text. -/
theorem Pieces.reads_text {d : Delimiters} {tree : Tree} {text : Text}
    {ls : List Lexeme} (hd : d.opening ≠ [])
    (h : Pieces d false tree text ls) (origin : Int) :
    Reads d text origin tree := by
  obtain ⟨segments, ha, ho⟩ := h.reads origin 0
  have hs := h.scan [] rfl
  rw [List.append_nil, Lexeme.scan_nil hd] at hs
  refine ⟨segments, ?_, ho⟩
  unfold Segment.parse
  rw [hs]
  unfold Lexeme.prepend
  rw [List.append_nil]
  exact ha

section

variable {d : Delimiters} {followed : Bool} {rest : Tree} {s : Text}
  {ls : List Lexeme}

theorem pieces_nil : Pieces d followed .nil [] [] where
  sources := rfl
  scan _ _ := rfl
  derives _ := ⟨[], .nil⟩
  reads _ _ := ⟨[], rfl, .nil⟩

theorem Pieces.text {t : Text} (hd : d.opening ≠ []) (ht : t ≠ [])
    (hf : LiteralFits d (followed || !rest.isNil) t)
    (hb : ∀ tail, Behind d followed tail →
      Behind d (followed || !rest.isNil) (s ++ tail))
    (h : Pieces d followed rest s ls) :
    Pieces d followed (.text t rest) (t ++ s) (.literal t :: ls) where
  sources := by
    rw [List.flatMap_cons, h.sources]
    rfl
  scan tail htail := by
    rw [List.append_assoc, scan_literal hd ht hf (hb tail htail),
      h.scan tail htail, Lexeme.prepend_prepend]
    rfl
  derives n := h.derives (n + t.length)
  reads origin n := by
    obtain ⟨segments, ha, ho⟩ := h.reads origin (n + t.length)
    refine ⟨.literal t n :: segments, ?_, .text ho⟩
    rw [Segment.assemble, ha]
    rfl

variable {name a b : Text} {args : Arguments} {body : Tree}

/-- A tag in front of a text is a piece of it. -/
theorem scan_standsFor {inside : Text} {t : Tag} (ht : t.StandsFor d inside)
    (text : Text) :
    Lexeme.scan d (t.source ++ text)
      = Lexeme.prepend [.tag t] (Lexeme.scan d text) := by
  have h := Lexeme.scan_tag (ht.read text)
  rw [← h, ht.source]
  simp

theorem Pieces.single (hd : d.Plain) (hn : IsName name)
    (hk : ∀ x ∈ args, IsKey x.key) (ha : args.Written a)
    (h : Pieces d followed rest s ls) :
    ∃ ms, Pieces d followed (.single name args rest)
      (d.opening ++ Tag.insideSingle name a ++ d.closing ++ s) ms := by
  obtain ⟨t, ht, hf, rfl, hargs⟩ := Tag.exists_single hd hn hk ha
  refine ⟨.tag t :: ls, ?_, fun tail htail => ?_, fun n => ?_,
    fun origin n => ?_⟩
  · rw [List.flatMap_cons, h.sources, ← ht.source]
    rfl
  · rw [← ht.source, List.append_assoc, scan_standsFor ht,
      h.scan tail htail, Lexeme.prepend_prepend]
    rfl
  · obtain ⟨ps, hp⟩ := h.derives (n + t.source.length)
    exact ⟨_, .single hf hp⟩
  · obtain ⟨segments, hs, ho⟩ := h.reads origin (n + t.source.length)
    exact ⟨_, (Segment.assemble_selfClosing_iff hf).mpr
      ⟨args, segments, hargs, hs, rfl⟩, .single rfl ho⟩

theorem Pieces.block {lb : List Lexeme} (hd : d.Plain) (hn : IsName name)
    (hk : ∀ x ∈ args, IsKey x.key) (ha : args.Written a)
    (hb : Pieces d true body b lb)
    (hread : ∀ origin, Reads d b origin body)
    (h : Pieces d followed rest s ls) :
    ∃ ms, Pieces d followed (.block name args body rest)
      (d.opening ++ Tag.insideOpened name a ++ d.closing ++ b
        ++ (d.opening ++ Tag.insideClosed name ++ d.closing) ++ s) ms := by
  obtain ⟨o, ho, hof, rfl, hargs⟩ := Tag.exists_opened hd hn hk ha
  obtain ⟨c, hc, hcf, hcn⟩ := Tag.exists_closed hd hn
  refine ⟨.tag o :: (lb ++ .tag c :: ls), ?_, fun tail htail => ?_,
    fun n => ?_, fun origin n => ?_⟩
  · rw [List.flatMap_cons, List.flatMap_append, List.flatMap_cons, hb.sources,
      h.sources, ← ho.source, ← hc.source]
    simp [Lexeme.source]
  · -- behind the body stands the closing tag
    have hbehind : Behind d true (c.source ++ (s ++ tail)) :=
      ⟨_, c, s ++ tail, by rw [hc.source]; simp, hc.read (s ++ tail)⟩
    rw [← ho.source, ← hc.source]
    simp only [List.append_assoc]
    rw [scan_standsFor ho, hb.scan _ hbehind, scan_standsFor hc,
      h.scan tail htail, Lexeme.prepend_prepend, Lexeme.prepend_prepend,
      Lexeme.prepend_prepend]
    simp
  · obtain ⟨qs, hq⟩ := hb.derives (n + o.source.length)
    obtain ⟨ps, hp⟩ := h.derives
      (n + o.source.length + Lexeme.size lb + c.source.length)
    let stop := n + o.source.length + Lexeme.size lb
    refine ⟨.block (o.placed n) (c.placed stop) :: ps, ?_⟩
    rw [Lexeme.placed, Lexeme.placed_append, Lexeme.placed]
    exact .block hof hcf hcn.symm hq hp
  · obtain ⟨segments, hs, hseg⟩ := h.reads origin
      (n + o.source.length + Lexeme.size lb + c.source.length)
    refine ⟨_, (Segment.assemble_opening_iff hof).mpr
      ⟨args, lb, c, ls, segments, hargs, rfl, hcf, hcn, hb.derives _, hs, rfl⟩,
      ?_⟩
    obtain ⟨inner, hp, hi⟩ := hread (origin + (n + o.source.length : Nat))
    refine .block (b := ⟨lb.flatMap Lexeme.source, n + o.source.length⟩)
      rfl ?_ hi hseg
    rw [hb.sources]
    exact hp

/-- Behind a literal text stands a tag, unless its tree ends there. -/
theorem behind_append (hd : d.Plain) (hw : Written d rest s)
    (hf : rest.Fits d followed) (hne : ¬rest.IsText) {tail : Text}
    (hb : Behind d followed tail) :
    Behind d (followed || !rest.isNil) (s ++ tail) := by
  cases hw with
  | nil =>
    rw [isNil, Bool.not_true, Bool.or_false]
    exact hb
  | text => exact absurd trivial hne
  | single ha =>
    obtain ⟨hn, hk, _⟩ := hf
    obtain ⟨t, ht, _⟩ := Tag.exists_single hd hn (fun x hx => (hk x hx).1) ha
    show Behind d (followed || true) _
    rw [Bool.or_true]
    exact ⟨_, t, _, by simp only [List.append_assoc]; rfl, ht.read _⟩
  | block ha =>
    obtain ⟨hn, hk, _⟩ := hf
    obtain ⟨t, ht, _⟩ := Tag.exists_opened hd hn (fun x hx => (hk x hx).1) ha
    show Behind d (followed || true) _
    rw [Bool.or_true]
    exact ⟨_, t, _, by simp only [List.append_assoc]; rfl, ht.read _⟩

/-- A tree that fits in front of a tag fits alone. -/
theorem Fits.alone {tree : Tree} (hd : d.opening ≠ [])
    (h : tree.Fits d true) : tree.Fits d false := by
  induction tree with
  | nil => trivial
  | text t rest ih =>
    obtain ⟨ht, hne, hl, hr⟩ := h
    refine ⟨ht, hne, ?_, ih hr⟩
    rw [Bool.true_or] at hl
    cases rest.isNil with
    | true => exact Text.IsFirst.ne hd hl
    | false => exact hl
  | single name args rest ih => exact ⟨h.1, h.2.1, ih h.2.2⟩
  | block name args body rest _ ih => exact ⟨h.1, h.2.1, h.2.2.1, ih h.2.2.2⟩

end

/-- **Every written tree has its pieces.** -/
theorem exists_pieces {d : Delimiters} {tree : Tree} {text : Text}
    (hd : d.Plain) (hw : Written d tree text) {followed : Bool}
    (hf : tree.Fits d followed) :
    ∃ ls, Pieces d followed tree text ls := by
  induction hw generalizing followed with
  | nil => exact ⟨[], pieces_nil⟩
  | text hr ih =>
    obtain ⟨ht, hne, hl, hrest⟩ := hf
    obtain ⟨ls, h⟩ := ih hrest
    exact ⟨_, h.text hd.opening ht hl
      fun _ htail => behind_append hd hr hrest hne htail⟩
  | single ha _ ih =>
    obtain ⟨hn, hk, hrest⟩ := hf
    obtain ⟨ls, h⟩ := ih hrest
    exact h.single hd hn (fun x hx => (hk x hx).1) ha
  | block ha hb _ ihb ih =>
    obtain ⟨hn, hk, hbody, hrest⟩ := hf
    obtain ⟨ls, h⟩ := ih hrest
    obtain ⟨lb, hlb⟩ := ihb hbody
    -- a body is read as a text of its own, and there nothing follows it
    obtain ⟨lb', hlb'⟩ := ihb (hbody.alone hd.opening)
    exact hlb.block hd hn (fun x hx => (hk x hx).1) ha
      (hlb'.reads_text hd.opening) h

/-! ## Writing -/

end Tree

/-- A way to write an argument: its value stands between the first of
the two quotes that it does not hold. -/
def Argument.write (a : Argument) : Text :=
  match a.value with
  | none => a.key
  | some v =>
    let q := if '"' ∈ v then '\'' else '"'
    a.key ++ '=' :: q :: (v ++ [q])

theorem Argument.written_write {a : Argument} (h : a.Writable) :
    a.Written a.write := by
  obtain ⟨key, _ | v⟩ := a
  · exact .flag
  · unfold write
    dsimp only
    by_cases hv : '"' ∈ v
    · rw [if_pos hv]
      exact .value rfl ((h.2 v rfl).resolve_left (not_not_intro hv))
    · rw [if_neg hv]
      exact .value rfl hv

/-- A way to write arguments, with a space in front of each. -/
def Arguments.write (args : Arguments) : Text :=
  args.flatMap fun a => ' ' :: a.write

theorem Arguments.written_write {args : Arguments}
    (h : ∀ a ∈ args, a.Writable) : args.Written args.write := by
  induction args with
  | nil => exact .nil
  | cons a args ih =>
    have ha := Argument.written_write (h a (List.mem_cons_self ..))
    have hrest := ih fun x hx => h x (List.mem_cons_of_mem _ hx)
    have hb : Text.IsBlank [' '] := by decide
    exact .cons hb (by decide) ha hrest

namespace Tree

/-- A way to write a tree. -/
def write (d : Delimiters) : Tree → Text
  | .nil => []
  | .text t rest => t ++ rest.write d
  | .single name args rest =>
    d.opening ++ Tag.insideSingle name args.write ++ d.closing ++ rest.write d
  | .block name args body rest =>
    d.opening ++ Tag.insideOpened name args.write ++ d.closing ++ body.write d
      ++ (d.opening ++ Tag.insideClosed name ++ d.closing) ++ rest.write d

theorem written_write {d : Delimiters} {followed : Bool} {tree : Tree}
    (h : tree.Fits d followed) : Written d tree (tree.write d) := by
  induction tree generalizing followed with
  | nil => exact .nil
  | text t rest ih => exact .text (ih h.2.2.2)
  | single name args rest ih =>
    exact .single (Arguments.written_write h.2.1) (ih h.2.2)
  | block name args body rest ihb ih =>
    exact .block (Arguments.written_write h.2.1) (ihb h.2.2.1) (ih h.2.2.2)

/-- **What is written is read back.** Every tree that can be written has
a written form, and from each of its written forms, at every position of
the document, that tree is read and no other. -/
theorem reads_iff_of_written {d : Delimiters} {tree : Tree} (hd : d.Plain)
    (hf : tree.Fits d false) :
    Written d tree (tree.write d)
      ∧ ∀ text, Written d tree text →
        ∀ origin other, Reads d text origin other ↔ other = tree := by
  refine ⟨written_write hf, fun text hw origin other => ?_⟩
  obtain ⟨ls, hls⟩ := exists_pieces hd hw hf
  have htree : Reads d text origin tree := hls.reads_text hd.opening origin
  constructor
  · rintro ⟨segments, hp, ho⟩
    obtain ⟨segments', hp', ho'⟩ := htree
    obtain rfl := Except.ok.inj (hp.symm.trans hp')
    exact ho.unique ho'
  · rintro rfl
    exact htree

/-- A literal text that ends like the delimiter behind it, a value that
holds both delimiters and one of the quotes, and a block inside one of
the same name. -/
theorem reads_iff_of_written_nested :
    let d : Delimiters := {}
    let args : Arguments :=
      [⟨"k:1".toList, some "<% \"%>".toList⟩, ⟨"on".toList, none⟩]
    let tree : Tree := .text "a<".toList
      (.block "b".toList args
        (.block "b".toList [] .nil (.text "%> <".toList .nil))
        (.single "c".toList [] (.text "< % >".toList .nil)))
    d.Plain ∧ tree.Fits d false
      ∧ Written d tree (tree.write d)
      ∧ ∀ text, Written d tree text →
        ∀ origin other, Reads d text origin other ↔ other = tree := by
  intro d args tree
  have hd : d.Plain :=
    ⟨by decide, '%', ['>'], rfl, by decide, by decide, by decide, by decide,
      by decide⟩
  have hf : tree.Fits d false := by decide
  exact ⟨hd, hf, reads_iff_of_written hd hf⟩

end Tree

end Shortcode
