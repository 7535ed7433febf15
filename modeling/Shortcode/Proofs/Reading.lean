import Shortcode.Proofs.Grammar

/-!
# Reading a text is deriving it

The pieces of a text are put together from left to right, with the block
that is open kept beside them. What one piece does to it is
`Segment.step`, and what can be wrong with one `Segment.cases_of_step_error`.

The state of the open block says the same as a derivation:
the tags that close an open block are those that the blocks inside it
still demand (`Unwinds`), and then its own closing tag
(`Segment.assemble_open_eq` and `Segment.exists_of_assemble_open`). From
this the whole of a text follows by induction over what stands at its
top level (`Segment.assemble_eq_ok_iff`).

What is read is said of the text alone, with positions and slices of it:
`Production.Reads` tells the invocation that a production is, and
`Segment.around` the literal text between invocations.
-/

namespace Shortcode

namespace Text

/-- The part of a text between two positions. -/
def slice (t : Text) (start stop : Nat) : Text :=
  (t.take stop).drop start

theorem slice_append {t u part v : Text} {start stop : Nat}
    (ht : t = u ++ (part ++ v)) (hs : start = u.length)
    (hp : stop = start + part.length) : t.slice start stop = part := by
  subst ht hs hp
  unfold slice
  rw [← List.append_assoc, ← List.length_append, List.take_left,
    List.drop_left]

end Text

/-- **The invocation that a production is**, in a text at a position of
the document: its name and span are those of its tags, its arguments are
those of the tag that opens it, and the body of a block is the text
between its tags. -/
inductive Production.Reads (text : Text) (origin : Int) :
    Production → Invocation → Prop
  | single {t : PlacedTag} {args : Arguments} :
      Arguments.parse t.argumentText = .ok args →
      Reads text origin (.single t)
        ⟨t.name, args, none, t.start, t.stop, origin⟩
  | block {o c : PlacedTag} {args : Arguments} :
      Arguments.parse o.argumentText = .ok args →
      Reads text origin (.block o c)
        ⟨o.name, args, some ⟨text.slice o.stop c.start, o.stop⟩,
          o.start, c.stop, origin⟩

/-- Where the arguments stand matters to errors only. -/
theorem Arguments.parse_eq_ok_iff {text : Text} {name : Option Text}
    {offset : Int} {args : Arguments} :
    parse text name offset = .ok args ↔ parse text = .ok args := by
  unfold parse
  cases parseFrom 0 text with
  | ok a => rfl
  | error f => simp

namespace Lexeme

/-! ## Pieces and their tags -/

/-- Literal pieces are not empty, and none stands beside another. -/
def Alternate : List Lexeme → Prop
  | [] => True
  | .literal t :: rest =>
    t ≠ [] ∧ (∀ l ∈ rest.head?, ∃ tag, l = .tag tag) ∧ Alternate rest
  | .tag _ :: rest => Alternate rest

theorem alternate_consLiteral {t : Text} {s : Scan}
    (hs : ∀ l ∈ s.lexemes.head?, ∃ tag, l = .tag tag)
    (h : Alternate s.lexemes) : Alternate (consLiteral t s).lexemes := by
  unfold consLiteral
  split
  · exact h
  · next ht => exact ⟨by simpa using ht, hs, h⟩

/-- The pieces of a text alternate. -/
theorem alternate_scan (d : Delimiters) (text : Text) :
    Alternate (scan d text).lexemes := by
  fun_induction scan d text with
  | case1 => exact alternate_consLiteral (by simp) trivial
  | case2 => exact alternate_consLiteral (by simp) trivial
  | case3 text before rest h t behind h' s ih =>
    refine alternate_consLiteral ?_ ih
    intro l hl
    exact ⟨t, (Option.some.inj hl).symm⟩

theorem alternate_of_append {ls rest : List Lexeme} {t : Tag}
    (h : Alternate (ls ++ .tag t :: rest)) : Alternate rest := by
  induction ls with
  | nil => exact h
  | cons l ls ih =>
    cases l with
    | literal t => exact ih h.2.2
    | tag t => exact ih h

theorem placed_append (n : Nat) (ls rest : List Lexeme) :
    placed n (ls ++ rest) = placed n ls ++ placed (n + size ls) rest := by
  induction ls generalizing n with
  | nil => rfl
  | cons l ls ih =>
    cases l with
    | literal t =>
      rw [List.cons_append, placed, placed, ih, size_cons, ← Nat.add_assoc]
      rfl
    | tag t =>
      rw [List.cons_append, placed, placed, ih, size_cons, ← Nat.add_assoc]
      rfl

/-- The tags among pieces come in the order of their positions. -/
theorem pairwise_placed (n : Nat) (ls : List Lexeme) :
    ((placed n ls).map PlacedTag.start).Pairwise (· ≤ ·)
      ∧ ∀ m ∈ (placed n ls).map PlacedTag.start, n ≤ m := by
  induction ls generalizing n with
  | nil => exact ⟨.nil, by simp [placed]⟩
  | cons l ls ih =>
    cases l with
    | literal t =>
      obtain ⟨hp, hm⟩ := ih (n + t.length)
      exact ⟨hp, fun m h => Nat.le_trans (Nat.le_add_right _ _) (hm m h)⟩
    | tag t =>
      obtain ⟨hp, hm⟩ := ih (n + t.source.length)
      have hle : ∀ m ∈ (placed (n + t.source.length) ls).map PlacedTag.start,
          n ≤ m := fun m h => Nat.le_trans (Nat.le_add_right _ _) (hm m h)
      rw [placed, List.map_cons]
      refine ⟨.cons hle hp, fun m h => ?_⟩
      rcases List.mem_cons.mp h with rfl | h
      · exact Nat.le_refl _
      · exact hle m h

/-- A tag among others stands among the pieces. -/
theorem exists_of_placed_eq {n : Nat} {ls : List Lexeme}
    {inner ts : List PlacedTag} {c : PlacedTag}
    (h : placed n ls = inner ++ c :: ts) :
    ∃ body t rest, ls = body ++ .tag t :: rest ∧ placed n body = inner
      ∧ c = t.placed (n + size body)
      ∧ placed (n + size body + t.source.length) rest = ts := by
  induction ls generalizing n inner with
  | nil => simp [placed] at h
  | cons l ls ih =>
    cases l with
    | literal t =>
      obtain ⟨body, t', rest, rfl, hi, hc, hr⟩ := ih h
      refine ⟨.literal t :: body, t', rest, rfl, hi, ?_, ?_⟩
      · rw [hc, size_cons, source, Nat.add_assoc]
      · rw [size_cons, source, ← Nat.add_assoc]
        exact hr
    | tag t =>
      cases inner with
      | nil =>
        obtain ⟨rfl, rfl⟩ := List.cons.inj h
        exact ⟨[], t, ls, rfl, rfl, rfl, rfl⟩
      | cons t' inner =>
        obtain ⟨rfl, hi⟩ := List.cons.inj h
        obtain ⟨body, t', rest, rfl, rfl, hc, hr⟩ := ih hi
        refine ⟨.tag t :: body, t', rest, rfl, rfl, ?_, ?_⟩
        · rw [hc, size_cons, source, Nat.add_assoc]
        · rw [size_cons, source, ← Nat.add_assoc]
          exact hr

end Lexeme

namespace Segment

/-! ## One piece after another -/

/-- A mapped result is one that was there before. -/
theorem map_eq_ok_iff {α β ε : Type} {f : α → β} {x : Except ε α} {b : β} :
    x.map f = .ok b ↔ ∃ a, x = .ok a ∧ f a = b := by
  cases x <;> simp [Except.map]

/-- A mapped error is one that was there before. -/
theorem map_eq_error_iff {α β ε : Type} {f : α → β} {x : Except ε α}
    {e : ε} : x.map f = .error e ↔ x = .error e := by
  cases x <;> simp [Except.map]

theorem map_nil_append {ε : Type} (x : Except ε (List Segment)) :
    x.map ([] ++ ·) = x := by
  cases x <;> rfl

theorem map_append_map {ε : Type} (front more : List Segment)
    (x : Except ε (List Segment)) :
    (x.map (more ++ ·)).map (front ++ ·) = x.map ((front ++ more) ++ ·) := by
  cases x with
  | error e => rfl
  | ok segments => exact congrArg Except.ok (List.append_assoc ..).symm

/-- **What one piece does**, at a position: it opens, closes or goes on with
a block, and completes segments; or it cannot stand there. -/
def step (origin : Int) : Option OpenBlock → Nat → Lexeme →
    Except Error (Option OpenBlock × List Segment)
  | none, n, .literal t => .ok (none, [.literal t n])
  | some b, _, .literal t => .ok (some (b.extend t), [])
  | none, n, .tag t =>
    let args := Arguments.parse t.argumentText (some t.name)
      (origin + (n + t.argumentsAt : Nat))
    match t.form with
    | .closing => .error ⟨.strayClosingTag, some t.name, some (origin + n)⟩
    | .selfClosing => args.map fun args =>
      (none, [.invocation
        ⟨t.name, args, none, n, n + t.source.length, origin⟩])
    | .opening => args.map fun args =>
      (some ⟨t.name, args, n, n + t.source.length, [], []⟩, [])
  | some b, n, .tag t =>
    match t.form with
    | .selfClosing => .ok (some (b.extend t.source), [])
    | .opening =>
      let b := { b with inner := (t.name, n) :: b.inner }
      .ok (some (b.extend t.source), [])
    | .closing =>
      if t.name = b.innermost.1 then
        match b.inner with
        | [] =>
          .ok (none, [.invocation (b.close origin (n + t.source.length))])
        | _ :: inner =>
          let b := { b with inner := inner }
          .ok (some (b.extend t.source), [])
      else
        .error ⟨.mismatchedClosingTag b.innermost.1, some t.name,
          some (origin + n)⟩

/-- Putting pieces together goes from left to right. -/
theorem assemble_cons (origin : Int) (fault : Option TagFault)
    (block : Option OpenBlock) (n : Nat) (l : Lexeme) (back : List Lexeme) :
    assemble origin fault block n (l :: back)
      = (step origin block n l).bind fun y =>
        (assemble origin fault y.1 (n + l.source.length) back).map
          (y.2 ++ ·) := by
  cases l with
  | literal t =>
    cases block with
    | none =>
      rw [assemble]
      rfl
    | some b =>
      rw [assemble]
      exact (map_nil_append _).symm
  | tag t =>
    cases block with
    | none =>
      rw [assemble, step]
      cases t.form with
      | closing => rfl
      | selfClosing =>
        cases Arguments.parse t.argumentText (some t.name)
          (origin + (n + t.argumentsAt : Nat)) <;> rfl
      | opening =>
        cases Arguments.parse t.argumentText (some t.name)
            (origin + (n + t.argumentsAt : Nat)) with
        | error e => rfl
        | ok args => exact (map_nil_append _).symm
    | some b =>
      rw [assemble, step]
      dsimp only
      cases t.form with
      | selfClosing | opening => exact (map_nil_append _).symm
      | closing =>
        dsimp only
        split
        · cases b.inner with
          | nil => rfl
          | cons i inner => exact (map_nil_append _).symm
        · rfl

section

variable {origin : Int} {fault : Option TagFault} {block : Option OpenBlock}
  {n : Nat} {l : Lexeme} {back : List Lexeme} {e : Error}

/-- Pieces cannot be put together if the first one cannot stand where it
does, or those behind it cannot. -/
theorem assemble_cons_eq_error_iff :
    assemble origin fault block n (l :: back) = .error e
      ↔ step origin block n l = .error e
        ∨ ∃ y, step origin block n l = .ok y
          ∧ assemble origin fault y.1 (n + l.source.length) back
            = .error e := by
  rw [assemble_cons]
  cases step origin block n l with
  | error e' => simp [Except.bind]
  | ok y => simp [Except.bind, map_eq_error_iff]

/-- What is wrong with a piece: it is a closing tag outside every block, a
tag outside every block with arguments that are wrong, or a closing tag
that names another block than the innermost one. -/
theorem cases_of_step_error (h : step origin block n l = .error e) :
    ∃ t, l = .tag t
      ∧ ((block = none ∧ t.form = .closing
            ∧ e = ⟨.strayClosingTag, some t.name, some (origin + n)⟩)
          ∨ (block = none ∧ t.form ≠ .closing
            ∧ Arguments.parse t.argumentText (some t.name)
                (origin + (n + t.argumentsAt : Nat)) = .error e)
          ∨ ∃ b, block = some b ∧ t.form = .closing
            ∧ t.name ≠ b.innermost.1
            ∧ e = ⟨.mismatchedClosingTag b.innermost.1, some t.name,
                some (origin + n)⟩) := by
  cases l with
  | literal t => cases block <;> simp [step] at h
  | tag t =>
    refine ⟨t, rfl, ?_⟩
    cases block with
    | none =>
      rw [step] at h
      cases hf : t.form with
      | closing =>
        simp only [hf] at h
        exact .inl ⟨rfl, rfl, (Except.error.inj h).symm⟩
      | selfClosing | opening =>
        simp only [hf, map_eq_error_iff] at h
        exact .inr (.inl ⟨rfl, by simp, h⟩)
    | some b =>
      rw [step] at h
      cases hf : t.form with
      | selfClosing | opening => simp [hf] at h
      | closing =>
        simp only [hf] at h
        split at h
        · cases hi : b.inner <;> simp [hi] at h
        · next hn =>
          exact .inr (.inr ⟨b, rfl, rfl, hn, (Except.error.inj h).symm⟩)

end

/-! ## Inside a block -/

/-- **The body of an open block** ends at a closing tag of its name,
behind tags that close what the body opens and derive. The text that was
read of it makes up the block's body. -/
theorem assemble_open_eq {b : OpenBlock} {origin : Int}
    {fault : Option TagFault} {n : Nat} {body rest : List Lexeme} {c : Tag}
    (hu : Unwinds (b.inner.map Prod.fst) (Lexeme.placed n body))
    (hc : c.form = .closing) (hn : c.name = b.name) :
    assemble origin fault (some b) n (body ++ .tag c :: rest)
      = (assemble origin fault none
            (n + Lexeme.size body + c.source.length) rest).map
          (.invocation ((b.extend (body.flatMap Lexeme.source)).close origin
            (n + Lexeme.size body + c.source.length)) :: ·) := by
  induction body generalizing b n with
  | nil =>
    have hb : b.inner = [] := by simpa using unwinds_nil.mp hu
    have hi : c.name = b.innermost.1 := by
      unfold OpenBlock.innermost
      rw [hb, hn]
      rfl
    rw [List.nil_append, assemble]
    simp only [hc, if_pos hi, hb]
    simp [OpenBlock.extend, OpenBlock.close]
  | cons l body ih =>
    cases l with
    | literal t =>
      rw [List.cons_append, assemble, ih (b := b.extend t) hu hn]
      simp [OpenBlock.extend, OpenBlock.close, Lexeme.source,
          Nat.add_assoc]
    | tag t =>
      rw [Lexeme.placed] at hu
      cases hf : t.form with
      | selfClosing =>
        have hu' := (unwinds_selfClosing hf).mp hu
        rw [List.cons_append, assemble]
        simp only [hf]
        rw [ih (b := b.extend t.source) hu' hn]
        simp [OpenBlock.extend, OpenBlock.close, Lexeme.source,
          Nat.add_assoc]
      | opening =>
        have hu' := (unwinds_opening hf).mp hu
        rw [List.cons_append, assemble]
        simp only [hf]
        let b' : OpenBlock := { b with inner := (t.name, n) :: b.inner }
        rw [ih (b := b'.extend t.source) hu' hn]
        simp [b', OpenBlock.extend, OpenBlock.close, Lexeme.source,
          Nat.add_assoc]
      | closing =>
        obtain ⟨stack, hs, hu'⟩ := (unwinds_closing hf).mp hu
        obtain ⟨⟨name, start⟩, inner, hi, rfl, rfl⟩ := List.map_eq_cons_iff.mp hs
        have hin : t.name = b.innermost.1 := by
          unfold OpenBlock.innermost
          rw [hi]
          rfl
        rw [List.cons_append, assemble]
        simp only [hf, if_pos hin, hi]
        let b' : OpenBlock := { b with inner := inner }
        rw [ih (b := b'.extend t.source) hu' hn]
        simp [b', OpenBlock.extend, OpenBlock.close, Lexeme.source,
          Nat.add_assoc]

/-- **An open block that is read is closed**: its closing tag is among
the pieces, and the tags in front of it close what the body opens and
derive. -/
theorem exists_of_assemble_open {b : OpenBlock} {origin : Int}
    {fault : Option TagFault} {n : Nat} {ls : List Lexeme}
    {segments : List Segment}
    (h : assemble origin fault (some b) n ls = .ok segments) :
    ∃ body c rest, ls = body ++ .tag c :: rest ∧ c.form = .closing
      ∧ c.name = b.name
      ∧ Unwinds (b.inner.map Prod.fst) (Lexeme.placed n body) := by
  induction ls generalizing b n with
  | nil => cases fault <;> simp [assemble, atEnd] at h
  | cons l ls ih =>
    cases l with
    | literal t =>
      rw [assemble] at h
      obtain ⟨body, c, rest, rfl, hc, hn, hu⟩ := ih h
      exact ⟨.literal t :: body, c, rest, rfl, hc, hn, hu⟩
    | tag t =>
      rw [assemble] at h
      cases hf : t.form with
      | selfClosing =>
        simp only [hf] at h
        obtain ⟨body, c, rest, rfl, hc, hn, hu⟩ := ih h
        exact ⟨.tag t :: body, c, rest, rfl, hc, hn,
          (unwinds_selfClosing hf).mpr hu⟩
      | opening =>
        simp only [hf] at h
        obtain ⟨body, c, rest, rfl, hc, hn, hu⟩ := ih h
        exact ⟨.tag t :: body, c, rest, rfl, hc, hn,
          (unwinds_opening hf).mpr hu⟩
      | closing =>
        simp only [hf] at h
        split at h
        · next hin =>
          split at h
          · next hi =>
            -- the block's own closing tag
            refine ⟨[], t, ls, rfl, hf, ?_, ?_⟩
            · simpa [OpenBlock.innermost, hi] using hin
            · rw [hi]
              exact unwinds_nil.mpr rfl
          · next p inner hi =>
            obtain ⟨body, c, rest, rfl, hc, hn, hu⟩ := ih h
            have hp : t.name = p.1 := by
              simpa [OpenBlock.innermost, hi] using hin
            refine ⟨.tag t :: body, c, rest, rfl, hc, hn, ?_⟩
            rw [hi]
            refine (unwinds_closing hf).mpr ⟨inner.map Prod.fst, ?_, hu⟩
            rw [List.map_cons, ← hp]
            rfl
        · simp at h

/-! ## The literal text between invocations -/

/-- The literal text between two positions, if there is any. -/
def gap (text : Text) (start stop : Nat) : List Segment :=
  if start < stop then [.literal (text.slice start stop) start] else []

/-- **The segments of a text around its invocations**, from a position
on: literal text fills what the invocations leave. -/
def around (text : Text) : Nat → List Invocation → List Segment
  | n, [] => gap text n text.length
  | n, inv :: invs =>
    gap text n inv.start ++ .invocation inv :: around text inv.stop invs

/-- Where the first invocation starts, or the text ends. -/
def nextStart (text : Text) : List Invocation → Nat
  | [] => text.length
  | inv :: _ => inv.start

@[simp] theorem gap_self (text : Text) (n : Nat) : gap text n n = [] := by
  simp [gap]

theorem gap_eq {text pre t post : Text} {n : Nat}
    (ht : text = pre ++ (t ++ post)) (hn : n = pre.length) (hne : t ≠ []) :
    gap text n (n + t.length) = [.literal t n] := by
  have hl : 0 < t.length := List.length_pos_iff.mpr hne
  unfold gap
  rw [if_pos (by omega), Text.slice_append ht hn rfl]

/-- A literal piece is the first segment if the next invocation starts
behind it. -/
theorem around_literal {text pre t post : Text} {n : Nat}
    {invs : List Invocation} (ht : text = pre ++ (t ++ post))
    (hn : n = pre.length) (hne : t ≠ [])
    (hs : nextStart text invs = n + t.length) :
    around text n invs = .literal t n :: around text (n + t.length) invs := by
  cases invs with
  | nil =>
    rw [nextStart] at hs
    rw [around, around, hs, gap_self, gap_eq ht hn hne]
  | cons inv invs =>
    rw [nextStart] at hs
    rw [around, around, hs, gap_self, gap_eq ht hn hne]
    rfl

/-- An invocation that starts at once is the first segment. -/
theorem around_invocation {text : Text} {n : Nat} {inv : Invocation}
    {invs : List Invocation} (hs : inv.start = n) :
    around text n (inv :: invs)
      = .invocation inv :: around text inv.stop invs := by
  rw [around, hs, gap_self]
  rfl

/-- The invocations among the segments around invocations are these. -/
theorem invocations_around (text : Text) (n : Nat)
    (invs : List Invocation) : invocations (around text n invs) = invs := by
  have hgap : ∀ i j, (gap text i j).filterMap invocation? = [] := by
    intro i j
    unfold gap
    split <;> rfl
  unfold invocations
  induction invs generalizing n with
  | nil => exact hgap _ _
  | cons inv invs ih =>
    rw [around, List.filterMap_append, hgap]
    exact congrArg (inv :: ·) (ih inv.stop)

/-! ## The whole of a text -/

/-- Pieces that a fault ends are not read. -/
theorem fault_of_assemble {origin : Int} {fault : Option TagFault}
    {block : Option OpenBlock} {n : Nat} {ls : List Lexeme}
    {segments : List Segment}
    (h : assemble origin fault block n ls = .ok segments) : fault = none := by
  induction ls generalizing block n segments with
  | nil =>
    cases fault with
    | none => rfl
    | some f => simp [assemble, atEnd] at h
  | cons l ls ih =>
    rw [assemble_cons] at h
    cases hs : step origin block n l with
    | error e => simp [hs, Except.bind] at h
    | ok y =>
      rw [hs, Except.bind] at h
      obtain ⟨tail, ht, -⟩ := map_eq_ok_iff.mp h
      exact ih ht

section

variable {text u : Text} {origin : Int} {n : Nat} {ls : List Lexeme}
  {segments : List Segment}

/-- What a self-closing tag at the top level is put together to. -/
theorem assemble_selfClosing_iff {t : Tag} (hf : t.form = .selfClosing) :
    assemble origin none none n (.tag t :: ls) = .ok segments
      ↔ ∃ args tail, Arguments.parse t.argumentText = .ok args
        ∧ assemble origin none none (n + t.source.length) ls = .ok tail
        ∧ .invocation ⟨t.name, args, none, n, n + t.source.length, origin⟩
            :: tail = segments := by
  rw [assemble, hf]
  dsimp only
  constructor
  · intro h
    split at h
    · simp at h
    · next args hp =>
      obtain ⟨tail, ht, rfl⟩ := map_eq_ok_iff.mp h
      exact ⟨args, tail, Arguments.parse_eq_ok_iff.mp hp, ht, rfl⟩
  · rintro ⟨args, tail, hp, ht, rfl⟩
    rw [Arguments.parse_eq_ok_iff.mpr hp]
    dsimp only
    rw [ht]
    rfl

/-- What an opening tag at the top level is put together to: its body
reaches up to the closing tag that belongs to it. -/
theorem assemble_opening_iff {t : Tag} (hf : t.form = .opening) :
    assemble origin none none n (.tag t :: ls) = .ok segments
      ↔ ∃ args body c rest tail, Arguments.parse t.argumentText = .ok args
        ∧ ls = body ++ .tag c :: rest
        ∧ c.form = .closing ∧ c.name = t.name
        ∧ (∃ qs, Derives (Lexeme.placed (n + t.source.length) body) qs)
        ∧ assemble origin none none (n + t.source.length + Lexeme.size body
            + c.source.length) rest = .ok tail
        ∧ .invocation ⟨t.name, args,
            some ⟨body.flatMap Lexeme.source, n + t.source.length⟩, n,
            n + t.source.length + Lexeme.size body + c.source.length,
            origin⟩ :: tail = segments := by
  rw [assemble, hf]
  dsimp only
  constructor
  · intro h
    split at h
    · simp at h
    · next args hp =>
      obtain ⟨body, c, rest, rfl, hc, hn, hu⟩ := exists_of_assemble_open h
      rw [assemble_open_eq hu hc hn] at h
      obtain ⟨tail, ht, rfl⟩ := map_eq_ok_iff.mp h
      exact ⟨args, body, c, rest, tail, Arguments.parse_eq_ok_iff.mp hp,
        rfl, hc, hn, hu, ht, rfl⟩
  · rintro ⟨args, body, c, rest, tail, hp, rfl, hc, hn, hu, ht, rfl⟩
    let b : OpenBlock :=
      ⟨t.name, args, n, n + t.source.length, [], []⟩
    rw [Arguments.parse_eq_ok_iff.mpr hp]
    dsimp only
    rw [assemble_open_eq (b := b) hu hc hn, ht]
    rfl

/-- What pieces are read to, told by the derivation of their tags. -/
def Derived (text : Text) (origin : Int) (n : Nat) (ls : List Lexeme)
    (segments : List Segment) : Prop :=
  ∃ ps invs, Derives (Lexeme.placed n ls) ps
    ∧ List.Forall₂ (Production.Reads text origin) ps invs
    ∧ segments = around text n invs

theorem derived_nil (hn : n = text.length) :
    Derived text origin n [] segments ↔ segments = [] := by
  have he : around text n [] = [] := by rw [around, hn, gap_self]
  constructor
  · rintro ⟨ps, invs, hd, hr, rfl⟩
    cases hd
    cases hr
    exact he
  · rintro rfl
    exact ⟨[], [], .nil, .nil, he.symm⟩

/-- The first invocation starts where the first tag does, and where
there is no tag the text ends. -/
theorem nextStart_of_reads {ts : List PlacedTag} {ps : List Production}
    {invs : List Invocation} (hn : ts = [] → n = text.length)
    (ht : ∀ t ∈ ts.head?, t.start = n) (hd : Derives ts ps)
    (hr : List.Forall₂ (Production.Reads text origin) ps invs) :
    nextStart text invs = n := by
  cases hd with
  | nil =>
    cases hr
    exact (hn rfl).symm
  | single =>
    cases hr with
    | cons h _ =>
      cases h
      exact ht _ rfl
  | block =>
    cases hr with
    | cons h _ =>
      cases h
      exact ht _ rfl

theorem derived_literal {t : Text}
    (ht : text = u ++ (t ++ ls.flatMap Lexeme.source))
    (hn : n = u.length) (hne : t ≠ [])
    (hl : ∀ l ∈ ls.head?, ∃ tag, l = .tag tag) :
    Derived text origin n (.literal t :: ls) segments
      ↔ ∃ tail, Derived text origin (n + t.length) ls tail
        ∧ .literal t n :: tail = segments := by
  have hs : ∀ {ps invs}, Derives (Lexeme.placed (n + t.length) ls) ps →
      List.Forall₂ (Production.Reads text origin) ps invs →
      around text n invs = .literal t n :: around text (n + t.length) invs := by
    intro ps invs hd hr
    refine around_literal ht hn hne (nextStart_of_reads ?_ ?_ hd hr)
    · cases ls with
      | nil =>
        intro _
        rw [ht, hn]
        simp
      | cons l ls =>
        obtain ⟨tag, rfl⟩ := hl l rfl
        simp [Lexeme.placed]
    · cases ls with
      | nil => simp [Lexeme.placed]
      | cons l ls =>
        obtain ⟨tag, rfl⟩ := hl l rfl
        intro x hx
        obtain rfl := Option.some.inj hx
        rfl
  constructor
  · rintro ⟨ps, invs, hd, hr, rfl⟩
    exact ⟨_, ⟨ps, invs, hd, hr, rfl⟩, (hs hd hr).symm⟩
  · rintro ⟨_, ⟨ps, invs, hd, hr, rfl⟩, rfl⟩
    exact ⟨ps, invs, hd, hr, (hs hd hr).symm⟩

theorem derived_selfClosing {t : Tag} (hf : t.form = .selfClosing) :
    Derived text origin n (.tag t :: ls) segments
      ↔ ∃ args tail, Arguments.parse t.argumentText = .ok args
        ∧ Derived text origin (n + t.source.length) ls tail
        ∧ .invocation ⟨t.name, args, none, n, n + t.source.length, origin⟩
            :: tail = segments := by
  constructor
  · rintro ⟨ps, invs, hd, hr, rfl⟩
    obtain ⟨qs, hds, rfl⟩ := (derives_selfClosing hf).mp hd
    cases hr with
    | cons h hr =>
      cases h with
      | single ha =>
        exact ⟨_, _, ha, ⟨qs, _, hds, hr, rfl⟩, (around_invocation rfl).symm⟩
  · rintro ⟨args, _, ha, ⟨qs, invs, hd, hr, rfl⟩, rfl⟩
    exact ⟨.single (t.placed n) :: qs, _, .single hf hd,
      .cons (.single ha) hr, (around_invocation rfl).symm⟩

theorem derived_opening {t : Tag}
    (ht : text = u ++ (t.source ++ ls.flatMap Lexeme.source))
    (hn : n = u.length) (hf : t.form = .opening) :
    Derived text origin n (.tag t :: ls) segments
      ↔ ∃ args body c rest tail, Arguments.parse t.argumentText = .ok args
        ∧ ls = body ++ .tag c :: rest
        ∧ c.form = .closing ∧ c.name = t.name
        ∧ (∃ qs, Derives (Lexeme.placed (n + t.source.length) body) qs)
        ∧ Derived text origin (n + t.source.length + Lexeme.size body
            + c.source.length) rest tail
        ∧ .invocation ⟨t.name, args,
            some ⟨body.flatMap Lexeme.source, n + t.source.length⟩, n,
            n + t.source.length + Lexeme.size body + c.source.length,
            origin⟩ :: tail = segments := by
  -- the body of the block is the text between its tags
  have hbody : ∀ {body c rest}, ls = body ++ .tag c :: rest →
      text.slice (n + t.source.length)
          (n + t.source.length + Lexeme.size body)
        = body.flatMap Lexeme.source := by
    rintro body c rest rfl
    refine Text.slice_append (u := u ++ t.source)
      (v := (.tag c :: rest : List Lexeme).flatMap Lexeme.source) ?_ ?_ rfl
    · rw [ht, List.flatMap_append, List.append_assoc]
    · rw [hn, List.length_append]
  constructor
  · rintro ⟨ps, invs, hd, hr, rfl⟩
    obtain ⟨inner, c, rest, qs, he, hc, hcn, hi, hd, rfl⟩ :=
      (derives_opening hf).mp hd
    obtain ⟨body, c, rest, hl, rfl, rfl, rfl⟩ := Lexeme.exists_of_placed_eq he
    cases hr with
    | cons h hr =>
      cases h with
      | block ha =>
        refine ⟨_, body, c, rest, _, ha, hl, hc, hcn, hi,
          ⟨qs, _, hd, hr, rfl⟩, ?_⟩
        rw [← hbody hl]
        exact (around_invocation rfl).symm
  · rintro ⟨args, body, c, rest, _, ha, hl, hc, hcn, ⟨rs, hi⟩,
      ⟨qs, invs, hd, hr, rfl⟩, rfl⟩
    let stop := n + t.source.length + Lexeme.size body
    refine ⟨.block (t.placed n) (c.placed stop) :: qs, _, ?_,
      .cons (.block ha) hr, ?_⟩
    · rw [Lexeme.placed, hl, Lexeme.placed_append]
      exact .block hf hc hcn.symm hi hd
    · rw [← hbody hl]
      exact (around_invocation rfl).symm

/-- **Pieces are read by their derivation**: what is put together from
them is what their tags derive to, each production read from the text,
with the literal text around them. -/
theorem assemble_eq_ok_iff
    (ht : text = u ++ ls.flatMap Lexeme.source) (hn : n = u.length)
    (ha : Lexeme.Alternate ls) :
    assemble origin none none n ls = .ok segments
      ↔ Derived text origin n ls segments := by
  -- a block is one step at the top level, so the induction is on the
  -- number of pieces
  induction hk : ls.length using Nat.strong_induction_on
    generalizing ls n u segments with
  | _ k ih =>
    subst hk
    match ls with
    | [] =>
      rw [derived_nil (by rw [hn, ht]; simp), assemble, atEnd]
      exact ⟨fun h => (Except.ok.inj h).symm, fun h => by rw [h]⟩
    | .literal t :: rest =>
      obtain ⟨hne, hhead, ha⟩ := ha
      have ht' : text = u ++ (t ++ rest.flatMap Lexeme.source) := ht
      rw [derived_literal ht' hn hne hhead, assemble, map_eq_ok_iff]
      refine exists_congr fun tail => and_congr_left fun _ => ?_
      refine ih rest.length (by simp) (u := u ++ t) ?_ ?_ ha rfl
      · rw [ht', List.append_assoc]
      · rw [hn, List.length_append]
    | .tag t :: rest =>
      have ht' : text = u ++ (t.source ++ rest.flatMap Lexeme.source) := ht
      cases hf : t.form with
      | closing =>
        rw [assemble]
        simp only [hf, reduceCtorEq, false_iff]
        rintro ⟨ps, invs, hd, _⟩
        exact not_derives_closing hf hd
      | selfClosing =>
        rw [derived_selfClosing hf, assemble_selfClosing_iff hf]
        refine exists_congr fun args => exists_congr fun tail => ?_
        refine and_congr_right fun _ => and_congr_left fun _ => ?_
        refine ih rest.length (by simp) (u := u ++ t.source) ?_ ?_ ha rfl
        · rw [ht', List.append_assoc]
        · rw [hn, List.length_append]
      | opening =>
        rw [derived_opening ht' hn hf, assemble_opening_iff hf]
        refine exists_congr fun args => exists_congr fun body =>
          exists_congr fun c => exists_congr fun rest' =>
          exists_congr fun tail => and_congr_right fun _ =>
          and_congr_right fun hl => and_congr_right fun _ =>
          and_congr_right fun _ => and_congr_right fun _ =>
          and_congr_left fun _ => ?_
        subst hl
        refine ih rest'.length ?_ (u := u ++ t.source
          ++ body.flatMap Lexeme.source ++ c.source) ?_ ?_
          (Lexeme.alternate_of_append ha) rfl
        · simp only [List.length_cons, List.length_append]
          omega
        · rw [ht']
          simp [Lexeme.source]
        · rw [hn]
          simp [Lexeme.size, Nat.add_assoc]

end

/-- A text is read exactly when no fault ends its pieces, and then by
their derivation. -/
theorem parse_eq_ok_iff_derived {d : Delimiters} {text : Text}
    {origin : Int} {segments : List Segment} :
    parse d text origin = .ok segments
      ↔ (Lexeme.scan d text).fault = none
        ∧ Derived text origin 0 (Lexeme.scan d text).lexemes segments := by
  obtain ⟨left, hl, hf⟩ := Lexeme.sources_scan d text
  have hread : (Lexeme.scan d text).fault = none →
      (assemble origin none none 0 (Lexeme.scan d text).lexemes
          = .ok segments
        ↔ Derived text origin 0 (Lexeme.scan d text).lexemes segments) := by
    intro hnone
    refine assemble_eq_ok_iff (u := []) ?_ rfl (Lexeme.alternate_scan d text)
    rw [hf hnone, List.append_nil] at hl
    exact hl
  unfold parse
  dsimp only
  constructor
  · intro h
    have hnone := fault_of_assemble h
    rw [hnone] at h
    exact ⟨hnone, (hread hnone).mp h⟩
  · rintro ⟨hnone, hd⟩
    rw [hnone]
    exact (hread hnone).mpr hd

/-- **Reading a text.** A text is read exactly when it is a sequence of
tags, each of its form, with literal text between them; when the tags
derive in the bracket grammar; and when the arguments of those that
stand at its top level are arguments. What is read are then the
productions of the top level, in order, with the literal text around
them. -/
theorem parse_eq_ok_iff_derives {d : Delimiters} {text : Text}
    {origin : Int} {segments : List Segment} :
    parse d text origin = .ok segments
      ↔ ∃ tags productions, TagsFrom d 0 text tags
        ∧ Derives tags productions
        ∧ List.Forall₂ (Production.Reads text origin) productions
            (invocations segments)
        ∧ segments = around text 0 (invocations segments) := by
  rw [parse_eq_ok_iff_derived]
  constructor
  · rintro ⟨hnone, ps, invs, hd, hr, rfl⟩
    rw [invocations_around]
    exact ⟨_, ps, tagsFrom_iff.mpr ⟨hnone, rfl⟩, hd, hr, rfl⟩
  · rintro ⟨tags, ps, ht, hd, hr, hs⟩
    obtain ⟨hnone, rfl⟩ := tagsFrom_iff.mp ht
    exact ⟨hnone, ps, _, hd, hr, hs⟩

/-! ## The order of invocations -/

theorem map_start_of_reads {text : Text} {origin : Int}
    {ps : List Production} {invs : List Invocation}
    (h : List.Forall₂ (Production.Reads text origin) ps invs) :
    invs.map Invocation.start = ps.map Production.start := by
  induction h with
  | nil => rfl
  | cons hr _ ih =>
    rw [List.map_cons, List.map_cons, ih]
    cases hr with
    | single => rfl
    | block => rfl

/-- **Invocations come in the order of their positions.** -/
theorem pairwise_start {d : Delimiters} {text : Text} {origin : Int}
    {segments : List Segment} (h : parse d text origin = .ok segments) :
    (invocations segments).Pairwise fun a b => a.start ≤ b.start := by
  obtain ⟨_, ps, invs, hd, hr, rfl⟩ := parse_eq_ok_iff_derived.mp h
  rw [invocations_around, ← List.pairwise_map (f := Invocation.start)
    (R := (· ≤ ·)), map_start_of_reads hr]
  exact (Lexeme.pairwise_placed 0 _).1.sublist hd.sublist

end Segment

end Shortcode
