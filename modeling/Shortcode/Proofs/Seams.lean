import Shortcode.Proofs.Places

/-!
# Where two texts meet

A text that is put together from two is read as its parts are, if no
opening delimiter stands across the seam: `Segment.parse_append`. The
parts go on counting from the front of the whole, and literal text on
both sides of the seam becomes one segment (`Segment.join`).

Nothing that the scanner carries reaches over the seam. It looks for
delimiters as far as it must, so the end of the first text is seen only
by a search that fails there: for an opening delimiter, or for the end
of a tag. `Lexeme.exists_scan_append` says that everything up to the
last tag is cut as before, whatever follows. What stands behind that
tag, `Lexeme.Tagless`, is a literal text, which the other text makes
longer, or a tag that is faulty inside, and remains so
(`Tag.read_more`), or one that does not end.

Putting the pieces together goes from left to right, one step for each
piece (`Segment.step`). So what stands in front is put together whatever
follows (`Segment.assemble_append`), and what stands behind is put
together as it would be alone, but for the positions
(`Segment.assemble_moved`).
-/

namespace Shortcode

/-! ## Texts that stand apart -/

namespace Text

variable {mark a b before behind : Text}

/-- **Texts that stand apart**, as far as a mark is concerned: where they
are joined, no occurrence of it starts in the first text and ends in the
second. -/
def Apart (mark a b : Text) : Prop :=
  ∀ u v, a ++ b = u ++ mark ++ v →
    a.length ≤ u.length ∨ u.length + mark.length ≤ a.length

/-- Whether texts stand apart is seen at the places in front of the
seam. -/
theorem apart_iff :
    Apart mark a b ↔ ∀ k < a.length, a.length < k + mark.length →
      mark.isPrefixOf ((a ++ b).drop k) = false := by
  constructor
  · intro h k hk hm
    rw [← Bool.not_eq_true, List.isPrefixOf_iff_prefix]
    rintro ⟨v, hv⟩
    have hlen : ((a ++ b).take k).length = k := by
      rw [List.length_take, List.length_append]
      omega
    have he : a ++ b = (a ++ b).take k ++ mark ++ v := by
      rw [List.append_assoc, hv, List.take_append_drop]
    have := h _ _ he
    omega
  · intro h u v he
    by_contra hno
    have hp := h u.length (by omega) (by omega)
    rw [he, List.append_assoc, List.drop_left, ← Bool.not_eq_true] at hp
    exact hp (List.isPrefixOf_iff_prefix.mpr (List.prefix_append ..))

instance : Decidable (Apart mark a b) :=
  decidable_of_iff _ apart_iff.symm

/-- An occurrence of the mark stands in one of the texts. -/
theorem Apart.cases (h : Apart mark a b) {u v : Text}
    (he : a ++ b = u ++ mark ++ v) :
    (∃ w, u = a ++ w ∧ b = w ++ mark ++ v)
      ∨ ∃ w, a = u ++ mark ++ w ∧ v = w ++ b := by
  rcases h u v he with hle | hle
  · rw [List.append_assoc] at he
    rcases List.append_eq_append_iff.mp he with ⟨w, rfl, hb⟩ | ⟨w, rfl, hb⟩
    · exact .inl ⟨w, rfl, by rw [hb, List.append_assoc]⟩
    · rw [List.length_append] at hle
      obtain rfl : w = [] := List.length_eq_zero_iff.mp (by omega)
      exact .inl ⟨[], by simp, by simpa using hb.symm⟩
  · rcases List.append_eq_append_iff.mp he with ⟨w, hu, hb⟩ | ⟨w, ha, hv⟩
    · have hl := congrArg List.length hu
      rw [List.length_append, List.length_append] at hl
      obtain rfl : w = [] := List.length_eq_zero_iff.mp (by omega)
      rw [List.append_nil] at hu
      exact .inr ⟨[], by rw [List.append_nil, hu], by simpa using hb.symm⟩
    · exact .inr ⟨w, ha, hv⟩

/-- What stands apart from a text stands apart from the end of it. -/
theorem Apart.of_append {front : Text} (h : Apart mark (front ++ a) b) :
    Apart mark a b := by
  intro u v he
  have hfront := h (front ++ u) v (by simp [he])
  simp only [List.length_append] at hfront
  omega

/-- A text is cut where it was cut before it went on. -/
theorem cut?_append (h : cut? mark a = some (before, behind)) (more : Text) :
    cut? mark (a ++ more) = some (before, behind ++ more) := by
  obtain ⟨rfl, hf⟩ := cut?_eq_some_iff.mp h
  exact cut?_eq_some_iff.mpr ⟨List.append_assoc .., hf.append more⟩

/-- **A text without the mark** does not change where the text behind it is
cut. -/
theorem Apart.cut?_append_eq (h : Apart mark a b) (ha : cut? mark a = none) :
    cut? mark (a ++ b)
      = (cut? mark b).map fun (before, behind) => (a ++ before, behind) := by
  have hno := cut?_none ha
  cases hb : cut? mark b with
  | none =>
    refine cut?_eq_none_iff.mpr fun u v he => ?_
    rcases h.cases he with ⟨w, -, hw⟩ | ⟨w, hw, -⟩
    · exact cut?_none hb w v hw
    · exact hno u w hw
  | some p =>
    obtain ⟨before, behind⟩ := p
    obtain ⟨rfl, hf⟩ := cut?_eq_some_iff.mp hb
    refine cut?_eq_some_iff.mpr ⟨by simp, fun u v he => ?_⟩
    rcases h.cases (u := u) (v := v) (by simpa using he) with
      ⟨w, rfl, hw⟩ | ⟨w, hw, -⟩
    · have := hf w v hw
      simp only [List.length_append]
      omega
    · exact absurd hw (hno u w)

/-- A text without the mark, with the mark behind it, is cut there. -/
theorem Apart.cut?_append_mark (h : Apart mark a (mark ++ b))
    (ha : cut? mark a = none) : cut? mark (a ++ (mark ++ b)) = some (a, b) := by
  rw [h.cut?_append_eq ha, cut?_front]
  simp

end Text

namespace Tag

variable {d : Delimiters} {text behind : Text}

/-- **Reading a tag does not look ahead**: a tag that is read, or that is
faulty inside, is the same when the text goes on. -/
theorem read_more :
    (∀ tag behind, read d text = .ok (tag, behind) → ∀ more,
        read d (text ++ more) = .ok (tag, behind ++ more))
      ∧ ∀ fault, read d text = .error fault →
          (∀ closing, fault.cause ≠ .unterminatedTag closing) → ∀ more,
          read d (text ++ more) = .error fault := by
  unfold read
  cases hc : cutInside d.closing none text with
  | none =>
    refine ⟨fun tag behind h => by simp at h, fun fault h hf => ?_⟩
    obtain rfl := Except.error.inj h
    exact absurd rfl (hf d.closing)
  | some p =>
    obtain ⟨inside, rest⟩ := p
    have hmore := cutInside_more hc
    cases ht : ofInside d inside with
    | error fault =>
      refine ⟨fun tag behind h => by simp [ht] at h, fun fault' h _ more => ?_⟩
      rw [hmore more]
      simpa [ht] using h
    | ok t =>
      refine ⟨fun tag behind h more => ?_, fun fault h => by simp [ht] at h⟩
      rw [hmore more]
      dsimp only at h ⊢
      rw [ht] at h ⊢
      obtain ⟨rfl, rfl⟩ := by simpa using h
      rfl

end Tag

namespace Lexeme

variable {d : Delimiters} {a b : Text}

/-- **A text in which no tag is read**: there is none, or it is faulty. -/
def Tagless (d : Delimiters) (text : Text) : Prop :=
  Text.cut? d.opening text = none
    ∨ ∃ before behind fault, Text.cut? d.opening text = some (before, behind)
      ∧ Tag.read d behind = .error fault

theorem consLiteral_prepend (text : Text) (ls : List Lexeme) (s : Scan) :
    consLiteral text (prepend ls s)
      = prepend (consLiteral text ⟨ls, none⟩).lexemes s := by
  unfold consLiteral
  split <;> rfl

theorem scan_of_read_error {text before rest : Text} {fault : TagFault}
    (h : Text.cut? d.opening text = some (before, rest))
    (hr : Tag.read d rest = .error fault) :
    scan d text = consLiteral before ⟨[], some fault⟩ := by
  rw [scan]
  split
  · next h' =>
    rw [h] at h'
    simp at h'
  · next b r h' =>
    obtain ⟨rfl, rfl⟩ := Prod.mk.inj (Option.some.inj (h.symm.trans h'))
    split
    · next f hr' =>
      rw [hr] at hr'
      rw [Except.error.inj hr']
    · next t' behind' hr' =>
      rw [hr] at hr'
      simp at hr'

/-- A text in which no tag is read has none, if nothing in it is faulty. -/
theorem Tagless.cut?_eq_none {rest : Text} (h : Tagless d rest)
    (hf : (scan d rest).fault = none) : Text.cut? d.opening rest = none := by
  rcases h with hn | ⟨before, behind, fault, hc, hr⟩
  · exact hn
  · rw [scan_of_read_error hc hr, fault_consLiteral] at hf
    simp at hf

/-- **A text that goes on has the pieces it had**, up to its last tag; what
stands behind that is read together with what follows. -/
theorem exists_scan_append (d : Delimiters) (a : Text) :
    ∃ front rest, a = front.flatMap source ++ rest ∧ Tagless d rest
      ∧ ∀ b, scan d (a ++ b) = prepend front (scan d (rest ++ b)) := by
  fun_induction scan d a with
  | case1 text h => exact ⟨[], text, rfl, .inl h, fun b => rfl⟩
  | case2 text before rest h fault h' =>
    exact ⟨[], text, rfl, .inr ⟨before, rest, fault, h, h'⟩, fun b => rfl⟩
  | case3 text before rest h t behind h' s ih =>
    obtain ⟨front, left, hbehind, hleft, hscan⟩ := ih
    refine ⟨(consLiteral before ⟨.tag t :: front, none⟩).lexemes, left, ?_,
      hleft, fun b => ?_⟩
    · rw [sources_consLiteral, Text.cut?_eq h, List.append_assoc,
        Tag.source_read h', hbehind]
      simp [source]
    · rw [scan_of_read (Text.cut?_append h b)
          (Tag.read_more.1 t behind h' b), hscan b,
        prepend_prepend, consLiteral_prepend]
      rfl

/-- A literal text as a piece, unless it is empty. -/
def literals (text : Text) : List Lexeme :=
  (consLiteral text ⟨[], none⟩).lexemes

theorem consLiteral_eq (text : Text) (s : Scan) :
    consLiteral text s = prepend (literals text) s := by
  unfold literals consLiteral
  split <;> rfl

/-- **A text without an opening delimiter** in front of another one makes
the literal text at the front of that one longer. -/
theorem exists_scan_literals {rest : Text} (h : Text.Apart d.opening rest b)
    (hrest : Text.cut? d.opening rest = none) :
    ∃ lead s, scan d b = prepend (literals lead) s
      ∧ scan d (rest ++ b) = prepend (literals (rest ++ lead)) s := by
  have hcut := h.cut?_append_eq hrest
  cases hb : Text.cut? d.opening b with
  | none =>
    rw [hb] at hcut
    refine ⟨b, ⟨[], none⟩, ?_, ?_⟩
    · rw [scan_of_cut?_eq_none hb, consLiteral_eq]
    · rw [scan_of_cut?_eq_none hcut, consLiteral_eq]
  | some p =>
    obtain ⟨before, behind⟩ := p
    rw [hb] at hcut
    cases hr : Tag.read d behind with
    | error fault =>
      refine ⟨before, ⟨[], some fault⟩, ?_, ?_⟩
      · rw [scan_of_read_error hb hr, consLiteral_eq]
      · rw [scan_of_read_error hcut hr, consLiteral_eq]
    | ok p =>
      obtain ⟨t, more⟩ := p
      refine ⟨before, prepend [.tag t] (scan d more), ?_, ?_⟩
      · rw [scan_of_read hb hr, consLiteral_eq]
      · rw [scan_of_read hcut hr, consLiteral_eq]

end Lexeme

/-! ## Putting the pieces of two texts together -/

namespace Segment

/-- A literal text as a segment, unless it is empty. -/
def literals (text : Text) (n : Nat) : List Segment :=
  if text.isEmpty then [] else [.literal text n]

section

variable (origin : Int) (block : Option OpenBlock) (n : Nat)

/-- **What pieces are put together to** does not depend on what follows
them. -/
theorem assemble_append (front : List Lexeme) :
    (∃ e, ∀ fault back,
        assemble origin fault block n (front ++ back) = .error e)
      ∨ ∃ block' segments, ∀ fault back,
        assemble origin fault block n (front ++ back)
          = (assemble origin fault block' (n + Lexeme.size front) back).map
              (segments ++ ·) := by
  induction front generalizing block n with
  | nil => exact .inr ⟨block, [], fun fault back => (map_nil_append _).symm⟩
  | cons l front ih =>
    cases hl : step origin block n l with
    | error e => exact .inl ⟨e, fun fault back => by
        rw [List.cons_append, assemble_cons, hl]
        rfl⟩
    | ok y =>
      rcases ih y.1 (n + l.source.length) with
        ⟨e, he⟩ | ⟨block', more, hm⟩
      · exact .inl ⟨e, fun fault back => by
          rw [List.cons_append, assemble_cons, hl, Except.bind, he]
          rfl⟩
      · refine .inr ⟨block', y.2 ++ more, fun fault back => ?_⟩
        rw [List.cons_append, assemble_cons, hl, Except.bind, hm,
          map_append_map, Lexeme.size_cons, Nat.add_assoc]

/-- A literal text at the top level. -/
theorem assemble_literals (fault : Option TagFault) (t : Text)
    (back : List Lexeme) :
    assemble origin fault none n (Lexeme.literals t ++ back)
      = (assemble origin fault none (n + t.length) back).map
          (literals t n ++ ·) := by
  unfold Lexeme.literals Lexeme.consLiteral literals
  split
  · next ht =>
    obtain rfl := List.isEmpty_iff.mp ht
    exact (map_nil_append _).symm
  · show assemble origin fault none n (.literal t :: back) = _
    rw [assemble]
    rfl

end

end Segment

/-! ## Texts at other places -/

/-- The error of a text that stands some characters further on. -/
def Error.moved (shift : Int) (e : Error) : Error :=
  { e with offset := e.offset.map (· + shift) }

/-- The invocation in a text that stands some characters further on, in a
text of another origin. -/
def Invocation.moved (origin : Int) (k : Nat) (inv : Invocation) :
    Invocation :=
  { inv with
    block := inv.block.map fun b => { b with start := b.start + k }
    start := inv.start + k
    stop := inv.stop + k
    origin := origin }

/-- An open block in a text that stands some characters further on. -/
def OpenBlock.moved (k : Nat) (b : OpenBlock) : OpenBlock :=
  { b with
    start := b.start + k
    bodyStart := b.bodyStart + k
    inner := b.inner.map fun i => (i.1, i.2 + k) }

theorem OpenBlock.innermost_moved (k : Nat) (b : OpenBlock) :
    (b.moved k).innermost = (b.innermost.1, b.innermost.2 + k) := by
  unfold innermost moved
  cases b.inner <;> rfl

namespace Segment

/-- The segment of a text that stands some characters further on, in a
text of another origin. -/
def moved (origin : Int) (k : Nat) : Segment → Segment
  | .literal t n => .literal t (n + k)
  | .invocation inv => .invocation (inv.moved origin k)

theorem moved_literals (origin : Int) (k : Nat) (t : Text) (n : Nat) :
    (literals t n).map (moved origin k) = literals t (n + k) := by
  unfold literals
  split <;> rfl

/-- What is read of a text, as it is read where the text stands some
characters further on, in a text of another origin. -/
def movedResult (origin origin' : Int) (k : Nat) :
    Except Error (List Segment) → Except Error (List Segment)
  | .ok segments => .ok (segments.map (moved origin' k))
  | .error e => .error (e.moved (origin' - origin + k))

theorem movedResult_map (origin origin' : Int) (k : Nat)
    (front : List Segment) (x : Except Error (List Segment)) :
    movedResult origin origin' k (x.map (front ++ ·))
      = (movedResult origin origin' k x).map
          (front.map (moved origin' k) ++ ·) := by
  cases x with
  | ok segments => exact congrArg Except.ok (List.map_append ..)
  | error e => rfl

end Segment

/-- The arguments of a text do not depend on its place, and an error in
them moves with it. -/
theorem Arguments.parse_moved (text : Text) (name : Option Text)
    (offset shift : Int) :
    parse text name (offset + shift)
      = (parse text name offset).mapError (Error.moved shift) := by
  unfold parse
  cases parseFrom 0 text with
  | ok args => rfl
  | error fault =>
    simp only [Except.mapError, Error.moved, Option.map_some,
      Int.add_right_comm]

namespace Segment

/-- Places that move with a text. -/
theorem place_moved (origin origin' : Int) (k m : Nat) :
    origin' + ((m + k : Nat) : Int)
      = origin + (m : Int) + (origin' - origin + k) := by
  omega

/-- **A piece does the same wherever it stands**: everything that tells a
place moves with it. -/
theorem step_moved (origin origin' : Int) (block : Option OpenBlock)
    (n k : Nat) (l : Lexeme) :
    step origin' (block.map (OpenBlock.moved k)) (n + k) l
      = ((step origin block n l).map fun y =>
          (y.1.map (OpenBlock.moved k), y.2.map (moved origin' k))).mapError
            (Error.moved (origin' - origin + k)) := by
  have hnext : ∀ m, n + k + m = n + m + k := Nat.add_right_comm n k
  cases l with
  | literal t => cases block <;> rfl
  | tag t =>
    cases block with
    | none =>
      rw [Option.map_none, step, step, hnext, hnext,
        place_moved origin origin', place_moved origin origin',
        Arguments.parse_moved]
      cases t.form with
      | closing => rfl
      | selfClosing | opening =>
        dsimp only
        cases Arguments.parse t.argumentText (some t.name)
          (origin + (n + t.argumentsAt : Nat)) <;> rfl
    | some b =>
      rw [Option.map_some, step, step]
      dsimp only
      rw [hnext, place_moved origin origin', OpenBlock.innermost_moved]
      cases t.form with
      | selfClosing | opening => rfl
      | closing =>
        dsimp only
        split
        · cases hi : b.inner with
          | nil | cons =>
            simp only [OpenBlock.moved, hi]
            rfl
        · rfl

/-- **Pieces are put together alike wherever they stand.** -/
theorem assemble_moved (origin origin' : Int) (fault : Option TagFault)
    (block : Option OpenBlock) (n k : Nat) (ls : List Lexeme) :
    assemble origin' fault (block.map (OpenBlock.moved k)) (n + k) ls
      = movedResult origin origin' k (assemble origin fault block n ls) := by
  induction ls generalizing block n with
  | nil =>
    rw [assemble, assemble]
    cases fault with
    | some f =>
      simp only [atEnd, movedResult, Error.moved, Option.map_some,
        Nat.add_right_comm n k, place_moved origin origin']
    | none =>
      cases block with
      | none => rfl
      | some b =>
        simp only [atEnd, movedResult, Error.moved, Option.map_some,
          OpenBlock.innermost_moved, place_moved origin origin']
  | cons l rest ih =>
    rw [assemble_cons, assemble_cons, step_moved origin origin']
    cases step origin block n l with
    | error e => rfl
    | ok y =>
      have hrest := ih y.1 (n + l.source.length)
      rw [Nat.add_right_comm] at hrest
      show (assemble origin' fault (y.1.map (OpenBlock.moved k))
          (n + k + l.source.length) rest).map
            (y.2.map (moved origin' k) ++ ·)
        = movedResult origin origin' k
          ((assemble origin fault y.1 (n + l.source.length) rest).map
            (y.2 ++ ·))
      rw [movedResult_map, hrest]

/-- **A text is read alike wherever it stands**. -/
theorem parse_moved (d : Delimiters) (text : Text) (origin origin' : Int) :
    parse d text origin'
      = movedResult origin origin' 0 (parse d text origin) :=
  assemble_moved origin origin' _ none 0 0 _

/-! ## Segments in a row -/

/-- Segments of two texts in a row, where a literal text at the end of
the first and one at the front of the second are one. -/
def join : List Segment → List Segment → List Segment
  | [], back => back
  | [.literal t n], .literal u _ :: back => .literal (t ++ u) n :: back
  | s :: front, back => s :: join front back

theorem join_literal (front : List Segment) (t u : Text) (n m : Nat)
    (back : List Segment) :
    join (front ++ [.literal t n]) (.literal u m :: back)
      = front ++ .literal (t ++ u) n :: back := by
  induction front with
  | nil => rfl
  | cons s front ih =>
    rw [List.cons_append, join, ih]
    · rfl
    · simp

/-- Segments among which no literal one stands beside another are left as
they are. -/
theorem join_of_apart (front back : List Segment)
    (h : (front ++ back).IsChain fun a b =>
      a.invocation? ≠ none ∨ b.invocation? ≠ none) :
    join front back = front ++ back := by
  fun_induction join front back with
  | case1 => rfl
  | case2 t n u m back =>
    obtain ⟨hne, -⟩ := List.isChain_cons_cons.mp h
    simp [invocation?] at hne
  | case3 s front back _ ih =>
    rw [ih (List.isChain_cons.mp h).2]
    rfl

/-- A literal text that two texts make up is one segment. -/
theorem join_literals {front back : List Segment} {t u : Text} {n m : Nat}
    (hm : m = n + t.length)
    (h : (front ++ (literals (t ++ u) n ++ back)).IsChain fun a b =>
      a.invocation? ≠ none ∨ b.invocation? ≠ none) :
    join (front ++ literals t n) (literals u m ++ back)
      = front ++ (literals (t ++ u) n ++ back) := by
  by_cases ht : t = []
  · subst ht
    obtain rfl : m = n := hm
    simp only [List.nil_append] at h ⊢
    rw [show literals [] m = [] from rfl, List.append_nil]
    exact join_of_apart _ _ h
  · by_cases hu : u = []
    · subst hu
      rw [List.append_nil] at h ⊢
      rw [show literals [] m = [] from rfl, List.nil_append,
        ← List.append_assoc]
      rw [← List.append_assoc] at h
      exact join_of_apart _ _ h
    · have hne : ∀ {t : Text} (n : Nat), t ≠ [] →
          literals t n = [.literal t n] := fun n ht =>
        if_neg (by simpa using ht)
      rw [hne n ht, hne m hu, hne n (by simp [ht])]
      exact join_literal front t u n m back

/-! ## What is read of a text that goes on -/

variable {d : Delimiters} {a b : Text} {origin : Int}

/-- Literal text at the end closes no block. -/
theorem exists_of_assemble_literals (origin : Int) (fault : Option TagFault)
    (b : OpenBlock) (n : Nat) (t : Text) :
    ∃ e, assemble origin fault (some b) n (Lexeme.literals t) = .error e := by
  have hend : ∀ (b : OpenBlock) m, ∃ e,
      atEnd origin fault (some b) m = .error e := by
    intro b m
    cases fault <;> exact ⟨_, rfl⟩
  unfold Lexeme.literals Lexeme.consLiteral
  split
  · rw [assemble]
    exact hend b n
  · show ∃ e, assemble origin fault (some b) n [.literal t] = .error e
    rw [assemble, assemble]
    exact hend _ _

/-- What is wrong with literal text at the end is what stands in front of
it, or the fault behind it. -/
theorem cause_of_assemble_literals {fault : Option TagFault}
    {block : Option OpenBlock} {n : Nat} {t : Text} {e : Error}
    (h : assemble origin fault block n (Lexeme.literals t) = .error e) :
    e.cause = .unterminatedBlock
      ∨ ∃ f, fault = some f ∧ e.cause = f.cause := by
  have hend : ∀ {block : Option OpenBlock} {m : Nat},
      atEnd origin fault block m = .error e →
      e.cause = .unterminatedBlock
        ∨ ∃ f, fault = some f ∧ e.cause = f.cause := by
    intro block m h
    cases fault with
    | some f =>
      obtain rfl := Except.error.inj h
      exact .inr ⟨f, rfl, rfl⟩
    | none =>
      cases block with
      | some b =>
        obtain rfl := Except.error.inj h
        exact .inl rfl
      | none => simp [atEnd] at h
  unfold Lexeme.literals Lexeme.consLiteral at h
  split at h
  · rw [assemble] at h
    exact hend h
  · cases block with
    | none =>
      replace h : assemble origin fault none n [.literal t] = .error e := h
      rw [assemble, map_eq_error_iff, assemble] at h
      exact hend h
    | some b =>
      replace h : assemble origin fault (some b) n [.literal t] = .error e := h
      rw [assemble, assemble] at h
      exact hend h

/-- **What was read of a text is read of it when it goes on**, but for a
literal text at its end. -/
theorem exists_of_parse_eq_ok {front : List Segment}
    (h : parse d a origin = .ok front) :
    ∃ first rest n, front = first ++ literals rest n
      ∧ n + rest.length = a.length ∧ (∃ u, a = u ++ rest)
      ∧ Text.cut? d.opening rest = none
      ∧ ∀ b, parse d (a ++ b) origin
        = (assemble origin (Lexeme.scan d (rest ++ b)).fault none n
            (Lexeme.scan d (rest ++ b)).lexemes).map (first ++ ·) := by
  obtain ⟨pieces, rest, ha, hrest, hscan⟩ := Lexeme.exists_scan_append d a
  have hwhole := hscan []
  rw [List.append_nil, List.append_nil] at hwhole
  unfold parse at h
  dsimp only at h
  have hfault := fault_of_assemble h
  rw [hwhole] at h hfault
  -- nothing is wrong with the rest, so there is no tag in it
  have hnone : Text.cut? d.opening rest = none := hrest.cut?_eq_none hfault
  rw [Lexeme.scan_of_cut?_eq_none hnone, Lexeme.consLiteral_eq] at h
  simp only [Lexeme.prepend, List.append_nil] at h
  rcases assemble_append origin none 0 pieces with
    ⟨e, he⟩ | ⟨block, first, hfirst⟩
  · rw [he] at h
    simp at h
  · rw [hfirst] at h
    cases block with
    | some b =>
      obtain ⟨e, he⟩ := exists_of_assemble_literals origin none b
        (0 + Lexeme.size pieces) rest
      rw [he] at h
      simp [Except.map] at h
    | none =>
      have hlit := assemble_literals origin (0 + Lexeme.size pieces) none
        rest []
      rw [List.append_nil] at hlit
      rw [hlit] at h
      refine ⟨first, rest, 0 + Lexeme.size pieces, ?_, ?_, ⟨_, ha⟩, hnone, ?_⟩
      · simpa [assemble, atEnd, Except.map] using h.symm
      · rw [ha, List.length_append, Nat.zero_add]
        rfl
      · intro b
        unfold parse
        dsimp only
        rw [hscan b]
        exact hfirst _ _

/-- **What is wrong with a text is wrong with it when it goes on**, unless
it is a tag or a block that does not end. -/
theorem parse_append_of_error {e : Error} (h : parse d a origin = .error e)
    (htag : ∀ closing, e.cause ≠ .unterminatedTag closing)
    (hblock : e.cause ≠ .unterminatedBlock) (b : Text) :
    parse d (a ++ b) origin = .error e := by
  obtain ⟨pieces, rest, ha, hrest, hscan⟩ := Lexeme.exists_scan_append d a
  have hwhole := hscan []
  rw [List.append_nil, List.append_nil] at hwhole
  -- what is wrong in front of the last literal text is wrong in any case
  have hfront : ∀ (t : Text) (fault : Option TagFault),
      Lexeme.scan d rest = ⟨Lexeme.literals t, fault⟩ →
      (∀ f, fault = some f → ∃ closing, f.cause = .unterminatedTag closing) →
      parse d (a ++ b) origin = .error e := by
    intro t fault hs hf
    unfold parse at h ⊢
    dsimp only at h ⊢
    rw [hwhole, hs] at h
    rw [hscan b]
    dsimp only [Lexeme.prepend] at h ⊢
    rcases assemble_append origin none 0 pieces with
      ⟨e', he⟩ | ⟨block, first, hfirst⟩
    · rw [he] at h ⊢
      exact h
    · rw [hfirst, map_eq_error_iff] at h
      rcases cause_of_assemble_literals h with hc | ⟨f, hsome, hc⟩
      · exact absurd hc hblock
      · obtain ⟨closing, hclosing⟩ := hf f hsome
        exact absurd (hc.trans hclosing) (htag closing)
  rcases hrest with hnone | ⟨before, behind, fault, hc, hr⟩
  · refine hfront rest none ?_ (by simp)
    rw [Lexeme.scan_of_cut?_eq_none hnone, Lexeme.consLiteral_eq]
    simp [Lexeme.prepend]
  · have hs : Lexeme.scan d rest = ⟨Lexeme.literals before, some fault⟩ := by
      rw [Lexeme.scan_of_read_error hc hr, Lexeme.consLiteral_eq]
      simp [Lexeme.prepend]
    by_cases hf : ∃ closing, fault.cause = .unterminatedTag closing
    · refine hfront before (some fault) hs fun f hsome => ?_
      rwa [← Option.some.inj hsome]
    · -- the fault is inside a tag, and is found again
      have hmore := Tag.read_more.2 fault hr
        (fun closing hcl => hf ⟨closing, hcl⟩) b
      have hsame : Lexeme.scan d (rest ++ b) = Lexeme.scan d rest := by
        rw [Lexeme.scan_of_read_error (Text.cut?_append hc b) hmore,
          Lexeme.scan_of_read_error hc hr]
      unfold parse at h ⊢
      rw [hscan b, hsame, ← hwhole]
      exact h

/-- What is wrong with pieces has a position. -/
theorem exists_offset_of_assemble {fault : Option TagFault}
    {block : Option OpenBlock} {n : Nat} {ls : List Lexeme} {e : Error}
    (h : assemble origin fault block n ls = .error e) :
    ∃ m, e.offset = some m := by
  fun_induction assemble origin fault block n ls with
  | case1 block n =>
    unfold atEnd at h
    split at h
    · obtain rfl := Except.error.inj h
      exact ⟨_, rfl⟩
    · obtain rfl := Except.error.inj h
      exact ⟨_, rfl⟩
    · simp at h
  | case4 | case13 =>
    obtain rfl := Except.error.inj h
    exact ⟨_, rfl⟩
  | case5 _ _ _ _ _ hp | case7 _ _ _ _ _ hp =>
    obtain rfl := Except.error.inj h
    obtain ⟨-, k, -, hk⟩ := Arguments.exists_of_parse_eq_error hp
    exact ⟨_, hk⟩
  | case2 | case6 | case11 =>
    rename_i ih
    exact ih (map_eq_error_iff.mp h)
  | case3 | case8 | case9 | case10 | case12 =>
    rename_i ih
    exact ih h

/-- **Reading is compositional.** Where no opening delimiter stands across
the seam, two texts that can be read are read together as they are read
alone, the second one moved behind the first, and what is wrong with the
second is found where it stands behind the first. What is wrong with the
first, but for a tag or a block that does not end, is wrong with it
whatever follows. -/
theorem parse_append (d : Delimiters) (a b : Text) (origin : Int) :
    (Text.Apart d.opening a b → ∀ front, parse d a = .ok front →
        (∀ back, parse d b = .ok back →
          parse d (a ++ b) origin
            = .ok (join (front.map (moved origin 0))
                (back.map (moved origin a.length))))
        ∧ ∀ e, parse d b = .error e → ∃ n, e.offset = some n
          ∧ parse d (a ++ b) origin
            = .error { e with offset := some (n + (origin + a.length)) })
      ∧ ∀ e, parse d a origin = .error e →
        (∀ closing, e.cause ≠ .unterminatedTag closing) →
        e.cause ≠ .unterminatedBlock →
        parse d (a ++ b) origin = .error e := by
  refine ⟨fun hapart front ha => ?_, fun e ha htag hblock =>
    parse_append_of_error ha htag hblock b⟩
  have hmoved := parse_moved d a 0 origin
  rw [ha] at hmoved
  obtain ⟨first, rest, n, hfront, hn, ⟨u, hu⟩, hcut, hboth⟩ :=
    exists_of_parse_eq_ok hmoved
  obtain ⟨lead, s, hb, hrest⟩ :=
    Lexeme.exists_scan_literals (Text.Apart.of_append (hu ▸ hapart)) hcut
  -- the pieces behind the first tag of `b`, alone and behind `a`
  let x := assemble 0 s.fault none lead.length s.lexemes
  have halone : parse d b = x.map (literals lead 0 ++ ·) := by
    have hl := assemble_literals 0 0 s.fault lead s.lexemes
    rw [Nat.zero_add] at hl
    unfold parse
    rw [hb]
    exact hl
  have hbehind : parse d (a ++ b) origin
      = ((movedResult 0 origin a.length x).map
          (literals (rest ++ lead) n ++ ·)).map (first ++ ·) := by
    have hm := assemble_moved 0 origin s.fault none lead.length a.length
      s.lexemes
    have hpos : n + (rest ++ lead).length = lead.length + a.length := by
      rw [List.length_append]
      omega
    rw [hboth b, hrest]
    refine congrArg (Except.map (first ++ ·)) ?_
    refine (assemble_literals origin n s.fault (rest ++ lead)
      s.lexemes).trans ?_
    rw [hpos]
    exact congrArg (Except.map _) hm
  constructor
  · intro back hback
    rw [halone] at hback
    obtain ⟨tail, hx, rfl⟩ := map_eq_ok_iff.mp hback
    rw [hx] at hbehind
    have hapart' := (assembled_of_parse hbehind).2.2.apart
      (Lexeme.alternate_scan d (a ++ b))
    rw [hbehind, hfront, List.map_append, moved_literals, Nat.zero_add,
      join_literals hn.symm hapart']
    rfl
  · intro e he
    obtain ⟨m, hm⟩ := exists_offset_of_assemble he
    rw [halone, map_eq_error_iff] at he
    refine ⟨m, hm, ?_⟩
    rw [hbehind, he]
    simp only [movedResult, Except.map, Error.moved, hm, Option.map_some,
      Int.sub_zero]

/-- A literal text that goes on behind the seam, an error behind it, and
one in front of it. -/
theorem parse_append_literal_and_errors :
    let d : Delimiters := {}
    let a := "x<%b%>y<%/b%>z".toList
    let bad := "<%b k=v%>".toList
    parse d (a ++ "u<%c/%>".toList) 5
        = .ok [.literal ['x'] 0,
          .invocation ⟨['b'], [], some ⟨['y'], 6⟩, 1, 13, 5⟩,
          .literal ['z', 'u'] 13, .invocation ⟨['c'], [], none, 15, 21, 5⟩]
      ∧ parse d (a ++ bad) 5
        = .error ⟨.unquotedValue ['k'], some ['b'], some 25⟩
      ∧ parse d (bad ++ a) 5
        = .error ⟨.unquotedValue ['k'], some ['b'], some 11⟩ := by
  intro d a bad
  have ha : parse d a = .ok
      [.literal ['x'] 0,
        .invocation ⟨['b'], [], some ⟨['y'], 6⟩, 1, 13, 0⟩,
        .literal ['z'] 13] :=
    parse_eq_ok_of_toOption (by decide +kernel)
  have hu : parse d "u<%c/%>".toList
      = .ok [.literal ['u'] 0, .invocation ⟨['c'], [], none, 1, 7, 0⟩] :=
    parse_eq_ok_of_toOption (by decide +kernel)
  have hbad : parse d bad
      = .error ⟨.unquotedValue ['k'], some ['b'], some 6⟩ := by
    show parse {} "<%b k=v%>".toList = _
    cbv
  have hbad' : parse d bad 5
      = .error ⟨.unquotedValue ['k'], some ['b'], some 11⟩ := by
    show parse {} "<%b k=v%>".toList 5 = _
    cbv
  have hgood := ((parse_append d a "u<%c/%>".toList 5).1 (by decide +kernel)
    _ ha).1 _ hu
  obtain ⟨n, hn, hsecond⟩ :=
    ((parse_append d a bad 5).1 (by decide +kernel) _ ha).2 _ hbad
  have hfirst := (parse_append d bad a 5).2 _ hbad' (by simp) (by simp)
  refine ⟨hgood.trans (congrArg Except.ok (by decide +kernel)), ?_, hfirst⟩
  obtain rfl := Option.some.inj hn
  rw [hsecond, show (6 : Int) + (5 + (a.length : Int)) = 25 by decide +kernel]

end Segment
end Shortcode
