import Shortcode.Proofs.Pieces

/-!
# Segments tile a text

Reading takes nothing from a text and adds nothing to it: the spans of
the segments follow each other from its front to its end without a gap,
literal segments are the text in their spans, and invocations are
written in theirs, from the delimiter that opens them to the one that
closes them (`Segment.Tiling`). Delimiters may be any texts here.

All of this is said of the text, not of the pieces it is cut into; the
proof goes through the pieces, since each segment takes up some of them.
-/

namespace Shortcode.Segment

/-! ## Tilings -/

/-- **Spans in a row**: the first starts at `n`, each next one starts
where the one before it ends, none is empty, and the last ends at
`m`. -/
def Tiles : Nat → List (Nat × Nat) → Nat → Prop
  | n, [], m => n = m
  | n, (start, stop) :: rest, m =>
    start = n ∧ start < stop ∧ Tiles stop rest m

/-- Spans in a row end no earlier than they start. -/
theorem Tiles.le {n m : Nat} {spans : List (Nat × Nat)}
    (h : Tiles n spans m) : n ≤ m := by
  induction spans generalizing n with
  | nil => exact Nat.le_of_eq h
  | cons span rest ih =>
    obtain ⟨rfl, hlt, hrest⟩ := h
    exact Nat.le_trans (Nat.le_of_lt hlt) (ih hrest)

/-- What a segment of a text is written as: a literal segment as its
text, an invocation as what stands in its span. -/
def written (text : Text) : Segment → Text
  | .literal t _ => t
  | .invocation inv => text.slice inv.start inv.stop

/-- **Segments that tile a text.** -/
structure Tiling (d : Delimiters) (text : Text) (segments : List Segment) :
    Prop where
  /-- The spans cover the text, from its front to its end. -/
  spans : Tiles 0 (segments.map span) text.length
  /-- Only the empty text has no segments. -/
  empty : segments = [] ↔ text = []
  /-- Put together, the segments are the text. -/
  joined : segments.flatMap (written text) = text
  /-- A literal segment is not empty, and is the text in its span. -/
  literal : ∀ t n, .literal t n ∈ segments →
    t ≠ [] ∧ text.slice n (n + t.length) = t
  /-- No literal segment stands beside another. -/
  apart : segments.IsChain fun a b =>
    a.invocation? ≠ none ∨ b.invocation? ≠ none
  /-- An invocation is written from an opening to a closing delimiter. -/
  delimited : ∀ inv, .invocation inv ∈ segments →
    d.opening <+: text.slice inv.start inv.stop
      ∧ d.closing <:+ text.slice inv.start inv.stop
  /-- The body of a block stands inside it, and is the text there. -/
  body : ∀ inv b, .invocation inv ∈ segments → inv.block = some b →
    inv.start < b.start ∧ b.start + b.text.length < inv.stop
      ∧ text.slice b.start (b.start + b.text.length) = b.text

/-! ## What segments are written as -/

/-- What is told of a single segment: where it stands in a text, and how
it is written there. -/
def Stands (d : Delimiters) (text : Text) : Segment → Prop
  | .literal t n => t ≠ [] ∧ text.slice n (n + t.length) = t
  | .invocation inv =>
    d.opening <+: text.slice inv.start inv.stop
      ∧ d.closing <:+ text.slice inv.start inv.stop
      ∧ ∀ b, inv.block = some b →
        inv.start < b.start ∧ b.start + b.text.length < inv.stop
          ∧ text.slice b.start (b.start + b.text.length) = b.text

/-- **Segments that take up pieces** of a text, from a position on: they
tile what is left of the text, they are written as the pieces are, and
each of them stands in the text. -/
structure Covers (d : Delimiters) (text : Text) (n : Nat)
    (ls : List Lexeme) (segments : List Segment) : Prop where
  tiles : Tiles n (segments.map span) text.length
  joined : segments.flatMap (written text) = ls.flatMap Lexeme.source
  stands : ∀ s ∈ segments, s.Stands d text

variable {d : Delimiters} {text u : Text} {origin : Int} {n : Nat}
  {ls : List Lexeme} {segments : List Segment}

/-- One more segment takes up the pieces in front of the others. -/
theorem Covers.cons {s : Segment} (part : List Lexeme) {m : Nat}
    (hspan : s.span = (n, m)) (hm : m = n + Lexeme.size part)
    (hpos : 0 < Lexeme.size part)
    (hw : s.written text = part.flatMap Lexeme.source)
    (hs : s.Stands d text) (h : Covers d text m ls segments) :
    Covers d text n (part ++ ls) (s :: segments) where
  tiles := by
    rw [List.map_cons, hspan]
    exact ⟨rfl, by omega, h.tiles⟩
  joined := by
    rw [List.flatMap_cons, List.flatMap_append, hw, h.joined]
  stands := List.forall_mem_cons.mpr ⟨hs, h.stands⟩

/-- A slice that starts with a tag and ends with a tag stands between
delimiters. -/
theorem delimited_of_bounded {o c : Tag} {v w : Text} {m : Nat}
    (ho : o.Bounded d) (hc : c.Bounded d)
    (hfront : text.slice n m = o.source ++ v)
    (hback : text.slice n m = w ++ c.source) :
    d.opening <+: text.slice n m ∧ d.closing <:+ text.slice n m := by
  obtain ⟨inside, -, ho⟩ := ho
  obtain ⟨inside', -, hc⟩ := hc
  constructor
  · rw [hfront, ho, List.append_assoc, List.append_assoc]
    exact List.prefix_append ..
  · rw [hback, hc, ← List.append_assoc]
    exact List.suffix_append ..

/-- The pieces of a block are the text in its span, with the body's
pieces where the body stands. -/
theorem stands_block {o c : Tag} {body : List Lexeme} {m stop : Nat}
    (name : Text) (args : Arguments) (origin : Int)
    (ht : text = u ++ (o.source ++ (body.flatMap Lexeme.source
      ++ (c.source ++ ls.flatMap Lexeme.source))))
    (hn : n = u.length) (hm : m = n + o.source.length)
    (hstop : stop = m + Lexeme.size body + c.source.length)
    (ho : o.Bounded d) (hc : c.Bounded d) :
    text.slice n stop
        = o.source ++ (body.flatMap Lexeme.source ++ c.source)
      ∧ Stands d text (.invocation ⟨name, args,
          some ⟨body.flatMap Lexeme.source, m⟩, n, stop, origin⟩) := by
  have hslice : text.slice n stop
      = o.source ++ (body.flatMap Lexeme.source ++ c.source) := by
    refine Text.slice_append (v := ls.flatMap Lexeme.source) ?_ hn ?_
    · rw [ht]
      simp
    · rw [hstop, hm, Lexeme.size]
      simp only [List.length_append]
      omega
  have hbody : text.slice m (m + (body.flatMap Lexeme.source).length)
      = body.flatMap Lexeme.source := by
    refine Text.slice_append (u := u ++ o.source)
      (v := c.source ++ ls.flatMap Lexeme.source) ?_ ?_ rfl
    · rw [ht, List.append_assoc]
    · rw [hm, hn, List.length_append]
  obtain ⟨hopen, hclose⟩ := delimited_of_bounded ho hc hslice
    (hslice.trans (List.append_assoc ..).symm)
  refine ⟨hslice, hopen, hclose, fun b hb => ?_⟩
  obtain rfl := Option.some.inj hb
  have := ho.length_pos
  have := hc.length_pos
  refine ⟨?_, ?_, hbody⟩
  · show n < m
    omega
  · show m + Lexeme.size body < stop
    omega

/-- **Assembled segments take up their pieces.** -/
theorem Assembled.covers (h : Assembled origin n ls segments)
    (ht : text = u ++ ls.flatMap Lexeme.source) (hn : n = u.length)
    (hp : ∀ l ∈ ls, l.Proper d) : Covers d text n ls segments := by
  induction h generalizing u with
  | nil =>
    refine ⟨?_, rfl, List.forall_mem_nil _⟩
    rw [hn, ht, List.flatMap_nil, List.append_nil]
    rfl
  | @literal n t ls segments _ ih =>
    obtain ⟨hl, hls⟩ := List.forall_mem_cons.mp hp
    have hrest := ih (u := u ++ t)
      (by rw [ht, List.append_assoc]; rfl)
      (by rw [hn, List.length_append]) hls
    refine Covers.cons [.literal t] rfl (by simp [Lexeme.source])
      (by simpa using hl.length_pos) (by simp [written, Lexeme.source])
      ?_ hrest
    exact ⟨hl, Text.slice_append ht hn rfl⟩
  | @single n t args ls segments _ ih =>
    obtain ⟨hl, hls⟩ := List.forall_mem_cons.mp hp
    have hrest := ih (u := u ++ t.source)
      (by rw [ht, List.append_assoc]; rfl)
      (by rw [hn, List.length_append]) hls
    have hslice : text.slice n (n + t.source.length) = t.source :=
      Text.slice_append ht hn rfl
    obtain ⟨hopen, hclose⟩ := delimited_of_bounded (w := []) hl hl
      (hslice.trans (List.append_nil _).symm) hslice
    exact Covers.cons [.tag t] rfl (by simp [Lexeme.source])
      (by simpa using hl.length_pos)
      (by simpa [Lexeme.source, written] using hslice)
      ⟨hopen, hclose, by simp⟩ hrest
  | @block n m o c args body ls segments hm _ _ ih =>
    obtain ⟨ho, hp⟩ := List.forall_mem_cons.mp hp
    obtain ⟨-, hp⟩ := List.forall_mem_append.mp hp
    obtain ⟨hc, hls⟩ := List.forall_mem_cons.mp hp
    have ht' : text = u ++ (o.source ++ (body.flatMap Lexeme.source
        ++ (c.source ++ ls.flatMap Lexeme.source))) := by
      rw [ht, List.flatMap_cons, List.flatMap_append, List.flatMap_cons]
      rfl
    have hrest := ih (u := u ++ (o.source
        ++ (body.flatMap Lexeme.source ++ c.source)))
      (by rw [ht']; simp)
      (by rw [hm, hn, Lexeme.size]; simp only [List.length_append]; omega)
      hls
    obtain ⟨hslice, hs⟩ := stands_block o.name args origin ht' hn hm rfl ho hc
    have hpart : (.tag o :: (body ++ .tag c :: ls) : List Lexeme)
        = (.tag o :: (body ++ [.tag c])) ++ ls := by simp
    rw [hpart]
    refine Covers.cons _ rfl ?_ ?_ ?_ hs hrest
    · rw [hm, Lexeme.size_cons]
      simp [Lexeme.size, Lexeme.source]
      omega
    · rw [Lexeme.size_cons]
      exact Nat.add_pos_left ho.length_pos _
    · rw [written, hslice]
      simp [Lexeme.source]

/-- Literal segments are apart where literal pieces are. -/
theorem Assembled.apart (h : Assembled origin n ls segments)
    (ha : Lexeme.Alternate ls) :
    segments.IsChain fun a b =>
      a.invocation? ≠ none ∨ b.invocation? ≠ none := by
  induction h with
  | nil => exact .nil
  | @literal n t ls segments hrest ih =>
    obtain ⟨-, hhead, ha⟩ := ha
    refine List.isChain_cons.mpr ⟨fun s hs => .inr ?_, ih ha⟩
    -- what follows the literal piece is a tag
    cases hrest with
    | nil => simp at hs
    | literal =>
      obtain ⟨tag, ht⟩ := hhead _ rfl
      simp at ht
    | single | block =>
      obtain rfl := Option.some.inj hs
      simp [invocation?]
  | single _ ih =>
    exact List.isChain_cons.mpr ⟨fun s _ => .inl (by simp [invocation?]), ih ha⟩
  | block _ _ _ ih =>
    exact List.isChain_cons.mpr ⟨fun s _ => .inl (by simp [invocation?]),
      ih (Lexeme.alternate_of_append ha)⟩

/-! ## The segments of a text -/

/-- The segments of a text take up its pieces. -/
theorem covers_of_parse (h : parse d text origin = .ok segments) :
    Covers d text 0 (Lexeme.scan d text).lexemes segments := by
  obtain ⟨-, ht, ha⟩ := assembled_of_parse h
  exact ha.covers (u := []) ht rfl fun _ => Lexeme.proper_of_mem_scan

theorem mem_of_mem_invocations {inv : Invocation}
    (h : inv ∈ invocations segments) : .invocation inv ∈ segments := by
  obtain ⟨s, hs, hsi⟩ := List.mem_filterMap.mp h
  cases s with
  | literal => simp [invocation?] at hsi
  | invocation => exact Option.some.inj hsi ▸ hs

/-- **The segments of a text tile it**, whatever its delimiters are. -/
theorem tiling_of_parse (h : parse d text origin = .ok segments) :
    Tiling d text segments := by
  obtain ⟨-, ht, ha⟩ := assembled_of_parse h
  have hc : Covers d text 0 _ segments :=
    ha.covers (u := []) ht rfl fun _ => Lexeme.proper_of_mem_scan
  have hjoined : segments.flatMap (written text) = text :=
    hc.joined.trans ht.symm
  refine ⟨hc.tiles, ?_, hjoined, fun t n hs => hc.stands _ hs,
    ha.apart (Lexeme.alternate_scan d text),
    fun inv hs => ?_, fun inv b hs => ?_⟩
  · constructor
    · rintro rfl
      exact hjoined.symm
    · rintro rfl
      cases segments with
      | nil => rfl
      | cons s rest =>
        -- no segment is empty
        obtain ⟨-, hlt, hrest⟩ := hc.tiles
        exact absurd hrest.le (Nat.not_le.mpr (Nat.zero_lt_of_lt hlt))
  · obtain ⟨hopen, hclose, -⟩ := hc.stands _ hs
    exact ⟨hopen, hclose⟩
  · obtain ⟨-, -, hb⟩ := hc.stands _ hs
    exact hb b

/-- A block inside one of the same name and a value that holds the
delimiter, where tags open and close with the same mark. -/
theorem tiling_of_parse_equal_delimiters :
    let d : Delimiters := ⟨['|'], ['|']⟩
    let text := "a|b k='|'|c|b|d|/b||/b|e|f/|".toList
    let segments : List Segment :=
      [.literal ['a'] 0,
        .invocation ⟨['b'], [⟨['k'], some ['|']⟩],
          some ⟨"c|b|d|/b|".toList, 10⟩, 1, 23, 7⟩,
        .literal ['e'] 23,
        .invocation ⟨['f'], [], none, 24, 28, 7⟩]
    parse d text 7 = .ok segments ∧ Tiling d text segments := by
  intro d text segments
  have h : parse d text 7 = .ok segments :=
    parse_eq_ok_of_toOption (by decide +kernel)
  exact ⟨h, tiling_of_parse h⟩

end Shortcode.Segment
