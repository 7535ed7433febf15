import Shortcode.Proofs.Bodies
import Shortcode.Proofs.Tiling

/-!
# Places in a document

A text that is read out of a document is a part of it: the document
itself, or the body of a block found in such a part. Its invocations carry
positions in the part, and the position of the part in the document, and
this is where they stand in the document too (`Segment.Part.inPlace`).

What is wrong with a part is told by its position in the document. If it
is an argument that is wrong, that is a position in the tag the argument
belongs to, behind its name and in front of its end
(`Segment.Part.ofReading`).
-/

namespace Shortcode

/-! ## Faults in argument texts -/

namespace Argument

variable {position : Nat} {fault : ArgumentFault} {a : Argument}

theorem position_of_separated {rest : Text}
    (h : separated position a rest = .error fault) :
    fault.position = position ∧ rest ≠ [] := by
  unfold separated at h
  split at h
  · simp at h
  · split at h
    · simp at h
    · obtain rfl := Except.error.inj h
      exact ⟨rfl, List.cons_ne_nil _ _⟩

theorem position_of_quotedValue {key rest : Text} {q : Char}
    (h : quotedValue position key q rest = .error fault) :
    position ≤ fault.position
      ∧ fault.position ≤ position + 1 + rest.length := by
  unfold quotedValue at h
  split at h
  · obtain rfl := Except.error.inj h
    dsimp only
    omega
  · next value behind hc =>
    obtain ⟨hp, -⟩ := position_of_separated h
    have hlen := congrArg List.length (Text.cut?_eq hc)
    simp only [List.length_append, List.length_cons, List.length_nil] at hlen
    omega

/-- The position of a fault is one of the text, or its end. -/
theorem position_of_next? {c : Char} {text : Text}
    (h : next? position c text = .error fault) :
    position ≤ fault.position
      ∧ fault.position ≤ position + (c :: text).length := by
  rw [next?_eq] at h
  split at h
  · have hlen := congrArg List.length
      (List.takeWhile_append_dropWhile (p := isKeyRest) (l := text))
    rw [List.length_append] at hlen
    dsimp only at h
    split at h
    · next he =>
      have := position_of_quotedValue h
      rw [he] at hlen
      simp only [List.length_cons] at *
      omega
    · next he =>
      have := position_of_quotedValue h
      rw [he] at hlen
      simp only [List.length_cons] at *
      omega
    · next he =>
      obtain rfl := Except.error.inj h
      rw [he] at hlen
      simp only [List.length_cons] at *
      omega
    · have := position_of_separated h
      simp only [List.length_cons] at *
      omega
  · obtain rfl := Except.error.inj h
    simp

end Argument

/-- **What is wrong with arguments** is told by a position of the argument
text, or its end. -/
theorem Arguments.exists_of_parse_eq_error {text : Text}
    {name : Option Text} {offset : Int} {e : Error}
    (h : parse text name offset = .error e) :
    e.name = name ∧ ∃ k, k ≤ text.length ∧ e.offset = some (offset + k) := by
  have hfrom : ∀ {position : Nat} {text : Text} {fault : ArgumentFault},
      parseFrom position text = .error fault →
      fault.position ≤ position + text.length := by
    intro position text fault h
    fun_induction parseFrom position text with
    | case1 => simp at h
    | case2 _ _ _ _ ih =>
      have := ih h
      simp only [List.length_cons]
      omega
    | case3 _ _ _ _ _ hn =>
      obtain rfl := Except.error.inj h
      exact (Argument.position_of_next? hn).2
    | case4 _ _ _ _ _ _ hn _ hr ih =>
      obtain rfl := Except.error.inj h
      have := ih hr
      have := Argument.length_rest_le hn
      simp only [List.length_cons]
      omega
    | case5 => simp at h
  unfold parse at h
  split at h
  · simp at h
  · next fault hf =>
    obtain rfl := Except.error.inj h
    exact ⟨rfl, fault.position, by simpa using hfrom hf, rfl⟩

/-! ## Arguments in tags -/

namespace Tag

/-- **The arguments stand in the tag**, behind its name and in front of its
end; a closing tag has none. -/
def HoldsArguments (t : Tag) : Prop :=
  t.form ≠ .closing → 0 < t.argumentsAt
    ∧ t.argumentsAt + t.argumentText.length < t.source.length

theorem length_splitSlash (text : Text) :
    (splitSlash text).2.length ≤ text.length := by
  obtain ⟨trail, -, ht, -⟩ := Text.trimRight_spec text
  have hlen := congrArg List.length ht
  rw [List.length_append] at hlen
  unfold splitSlash
  split
  · next rest he =>
    have := congrArg List.length he
    simp only [List.length_reverse, List.length_cons] at *
    omega
  · dsimp only
    omega

variable {d : Delimiters} {tag : Tag}

theorem holdsArguments_of_ofInside {inside : Text} (hd : d.closing ≠ [])
    (h : ofInside d inside = .ok tag) : tag.HoldsArguments := by
  have hd := List.length_pos_iff.mpr hd
  have hsource := congrArg List.length (source_ofInside h)
  obtain ⟨lead, -, ht, -⟩ := Text.trimLeft_spec inside
  have hlen := congrArg List.length ht
  have hname := length_splitWord isNameRest inside.trimLeft
  simp only [List.length_append] at hsource hlen
  rw [HoldsArguments, hsource]
  unfold ofInside at h
  dsimp only at h
  split at h
  · -- a closing tag
    split at h
    · obtain rfl := Except.ok.inj h
      simp
    · simp at h
  · split at h
    · simp at h
    · next hne =>
      have hpos : 0 < (splitName inside.trimLeft).1.length :=
        List.length_pos_iff.mpr (by simpa using hne)
      unfold splitName at *
      split at h
      · split at h
        · obtain rfl := Except.ok.inj h
          have := length_splitSlash (splitWord isNameRest inside.trimLeft).2
          dsimp only
          omega
        · simp at h
      · obtain rfl := Except.ok.inj h
        dsimp only [List.length_nil]
        omega

theorem holdsArguments_of_read {text behind : Text}
    (h : read d text = .ok (tag, behind)) : tag.HoldsArguments := by
  obtain ⟨inside, -, -, ht⟩ := read_eq_ok_iff.mp h
  exact holdsArguments_of_ofInside (closing_ne_nil h) ht

/-- What is wrong with a tag is not an argument. -/
theorem kind_of_ofInside {inside : Text} {fault : TagFault}
    (h : ofInside d inside = .error fault) :
    fault.cause.kind = .malformedInvocation := by
  unfold ofInside at h
  dsimp only at h
  split at h
  · split at h
    · simp at h
    · obtain rfl := Except.error.inj h
      rfl
  · split at h
    · obtain rfl := Except.error.inj h
      rfl
    · split at h
      · split at h
        · simp at h
        · obtain rfl := Except.error.inj h
          rfl
      · simp at h

theorem kind_of_read {text : Text} {fault : TagFault}
    (h : read d text = .error fault) :
    fault.cause.kind = .malformedInvocation := by
  unfold read at h
  split at h
  · obtain rfl := Except.error.inj h
    rfl
  · split at h
    · simp at h
    · next hf =>
      obtain rfl := Except.error.inj h
      exact kind_of_ofInside hf

end Tag

namespace Lexeme

variable {d : Delimiters} {text : Text}

/-- The tags of a text hold their arguments. -/
theorem holdsArguments_of_mem_scan {t : Tag}
    (h : .tag t ∈ (scan d text).lexemes) : t.HoldsArguments := by
  fun_induction scan d text with
  | case1 | case2 => simp [tag_mem_consLiteral] at h
  | case3 text before rest hc t' behind hr s ih =>
    rcases List.mem_cons.mp (tag_mem_consLiteral.mp h) with ht | ht
    · obtain rfl := Lexeme.tag.inj ht
      exact Tag.holdsArguments_of_read hr
    · exact ih ht

theorem kind_of_fault {fault : TagFault}
    (h : (scan d text).fault = some fault) :
    fault.cause.kind = .malformedInvocation := by
  fun_induction scan d text with
  | case1 => simp [fault_consLiteral] at h
  | case2 text before rest hc f hr =>
    rw [fault_consLiteral] at h
    obtain rfl := Option.some.inj h
    exact Tag.kind_of_read hr
  | case3 text before rest hc t behind hr s ih =>
    exact ih (by simpa [fault_consLiteral] using h)

end Lexeme

/-! ## What is wrong with a text -/

/-- **The error points into a tag** of a document: it has the tag's name,
and a position between the tag's front and its end. -/
def Error.PointsInto (e : Error) (t : PlacedTag) : Prop :=
  e.name = some t.name
    ∧ ∃ k : Nat, e.offset = some (k : Int) ∧ t.start < k ∧ k < t.stop

/-- **What can be wrong with a text** that has some tags in a document: a
tag, the way the tags match, or an argument in a tag that has arguments. -/
def Error.OfReading (tags : List PlacedTag) (e : Error) : Prop :=
  e.kind = .malformedInvocation ∨ e.kind = .mismatchedInvocation
    ∨ e.kind = .malformedArgument
      ∧ ∃ t ∈ tags, t.form ≠ .closing ∧ e.PointsInto t

theorem Error.OfReading.mono {tags tags' : List PlacedTag} {e : Error}
    (h : e.OfReading tags) (hs : ∀ t ∈ tags, t ∈ tags') :
    e.OfReading tags' := by
  rcases h with h | h | ⟨h, t, ht, hp⟩
  · exact .inl h
  · exact .inr (.inl h)
  · exact .inr (.inr ⟨h, t, hs t ht, hp⟩)

namespace Segment

/-- What is wrong with the arguments of a tag points into it. -/
theorem ofReading_of_arguments {t : Tag} (ht : t.HoldsArguments)
    (hf : t.form ≠ .closing) {offset : Int} {m : Nat} {e : Error}
    (ho : offset = ((m + t.argumentsAt : Nat) : Int))
    (h : Arguments.parse t.argumentText (some t.name) offset = .error e) :
    e.OfReading [t.placed m] := by
  obtain ⟨hname, k, hk, hoffset⟩ := Arguments.exists_of_parse_eq_error h
  obtain ⟨hpos, hlt⟩ := ht hf
  refine .inr (.inr ⟨Arguments.kind_of_parse h, _,
    List.mem_singleton_self _, hf, hname, m + t.argumentsAt + k, ?_, ?_, ?_⟩)
  · rw [hoffset, ho]
    simp
  · show m < m + t.argumentsAt + k
    omega
  · show m + t.argumentsAt + k < m + t.source.length
    omega

/-- What can be wrong with the first of some pieces. -/
theorem ofReading_of_step {origin : Int} {block : Option OpenBlock}
    {n m : Nat} {l : Lexeme} {rest : List Lexeme} {e : Error}
    (h : step origin block n l = .error e)
    (hargs : ∀ t, l = .tag t → t.HoldsArguments)
    (hm : (m : Int) = origin + n) :
    e.OfReading (Lexeme.placed m (l :: rest)) := by
  obtain ⟨t, rfl, hcases⟩ := cases_of_step_error h
  rcases hcases with ⟨-, -, rfl⟩ | ⟨-, hf, hp⟩ | ⟨b, -, -, -, rfl⟩
  · exact .inr (.inl rfl)
  · have hplace : origin + (n + t.argumentsAt : Nat)
        = ((m + t.argumentsAt : Nat) : Int) := by
      push_cast
      omega
    exact (ofReading_of_arguments (hargs t rfl) hf hplace hp).mono
      fun _ ht => List.mem_singleton.mp ht ▸ List.mem_cons_self
  · exact .inr (.inl rfl)

/-- **What can be wrong with pieces**, told where they stand in the
document. The block that is open does not matter. -/
theorem ofReading_of_assemble {origin : Int} {fault : Option TagFault}
    {block : Option OpenBlock} {n m : Nat} {ls : List Lexeme} {e : Error}
    (h : assemble origin fault block n ls = .error e)
    (hfault : ∀ f, fault = some f → f.cause.kind = .malformedInvocation)
    (hargs : ∀ t, .tag t ∈ ls → t.HoldsArguments)
    (hm : (m : Int) = origin + n) :
    e.OfReading (Lexeme.placed m ls) := by
  induction ls generalizing block n m with
  | nil =>
    rw [assemble] at h
    cases fault with
    | some f =>
      obtain rfl := Except.error.inj h
      exact .inl (hfault f rfl)
    | none =>
      cases block with
      | some b =>
        obtain rfl := Except.error.inj h
        exact .inl rfl
      | none => simp [atEnd] at h
  | cons l rest ih =>
    rcases assemble_cons_eq_error_iff.mp h with h | ⟨y, -, h⟩
    · exact ofReading_of_step h (fun t ht => hargs t (ht ▸ List.mem_cons_self))
        hm
    · have hnext : ((m + l.source.length : Nat) : Int)
          = origin + (n + l.source.length : Nat) := by
        push_cast
        omega
      refine (ih h (fun t ht => hargs t (List.mem_cons_of_mem _ ht))
        hnext).mono fun _ ht => ?_
      cases l with
      | literal t => exact ht
      | tag t => exact List.mem_cons_of_mem _ ht

end Segment

/-! ## Parts of a document -/

/-- A slice of a part is a slice of the whole. -/
theorem Text.slice_slice {t part : Text} {k start stop : Nat}
    (h : t.slice k (k + part.length) = part) (hs : stop ≤ part.length) :
    t.slice (k + start) (k + stop) = part.slice start stop := by
  unfold slice at *
  rw [← h, List.take_drop, List.drop_drop, List.take_take,
    Nat.min_eq_left (Nat.add_le_add_left hs k)]

namespace Segment

/-- **A part of a document that is read**, and where it starts: the
document, or the body of a block that reading finds in it. -/
inductive Part (d : Delimiters) (content : Text) : Nat → Text → Prop
  | whole : Part d content 0 content
  | body {inv : Invocation} {b : Body} {k : Nat} :
      Found d content 0 inv → inv.block = some b →
      inv.bodyOffset = some (k : Int) → Part d content k b.text

variable {d : Delimiters} {content part : Text} {k : Nat}
  {segments : List Segment} {inv : Invocation} {b : Body}

/-- The body of a block that is found has pieces of its own in the
document. -/
theorem Found.occupies_at (h : Found d content 0 inv)
    (hb : inv.block = some b) (hk : inv.bodyOffset = some (k : Int)) :
    Occupies d content k b.text := by
  obtain ⟨n, hn, hocc⟩ := h.occupies hb
  rw [hn, Int.zero_add] at hk
  obtain rfl := Int.ofNat.inj (Option.some.inj hk)
  exact hocc

/-- A part is what the document has in its place. -/
theorem Part.slice_eq (h : Part d content k part) :
    content.slice k (k + part.length) = part := by
  cases h with
  | whole => simp [Text.slice]
  | body hf hb hk => exact (hf.occupies_at hb hk).slice_eq

/-- Reading finds the invocations of a part. -/
theorem Part.found (h : Part d content k part)
    (hp : parse d part k = .ok segments) (hi : inv ∈ invocations segments) :
    Found d content 0 inv := by
  cases h with
  | whole => exact .top hp hi
  | body hf hb hk => exact .inside hf hb hk hp hi

theorem Assembled.origin_eq {origin : Int} {n : Nat} {ls : List Lexeme}
    (h : Assembled origin n ls segments) :
    ∀ inv ∈ invocations segments, inv.origin = origin := by
  induction h with
  | nil => simp [invocations]
  | literal _ ih => exact ih
  | single _ ih => exact List.forall_mem_cons.mpr ⟨rfl, ih⟩
  | block _ _ _ ih => exact List.forall_mem_cons.mpr ⟨rfl, ih⟩

theorem origin_of_parse {text : Text} {origin : Int}
    (hp : parse d text origin = .ok segments)
    (hi : inv ∈ invocations segments) : inv.origin = origin :=
  (assembled_of_parse hp).2.2.origin_eq inv hi

/-- **The bodies of a part's blocks** are parts, and this is where the
blocks say they start. -/
theorem Part.part_body (h : Part d content k part)
    (hp : parse d part k = .ok segments) (hi : inv ∈ invocations segments)
    (hb : inv.block = some b) :
    inv.originOf b.text = ((k + b.start : Nat) : Int)
      ∧ Part d content (k + b.start) b.text := by
  have ho := origin_of_parse hp hi
  refine ⟨?_, .body (h.found hp hi) hb ?_⟩
  · simp [Invocation.originOf, hb, ho]
  · simp [Invocation.bodyOffset, hb, ho]

/-- **What is wrong with a part** is told where it stands in the
document. -/
theorem Part.ofReading (h : Part d content k part) {e : Error}
    (hp : parse d part k = .error e) :
    e.OfReading (Lexeme.placed 0 (Lexeme.scan d content).lexemes) := by
  unfold parse at hp
  cases h with
  | whole =>
    exact ofReading_of_assemble hp (fun _ => Lexeme.kind_of_fault)
      (fun _ => Lexeme.holdsArguments_of_mem_scan) rfl
  | body hf hb hk =>
    obtain ⟨pre, body, post, hscan, rfl, hpart, -⟩ := hf.occupies_at hb hk
    have hargs : ∀ t, .tag t ∈ body → t.HoldsArguments := fun t ht => by
      have hmem : .tag t ∈ (Lexeme.scan d content).lexemes := by
        simp [hscan, ht]
      exact Lexeme.holdsArguments_of_mem_scan hmem
    rw [hpart] at hp
    -- the tags of the body are some of those of the document
    refine (ofReading_of_assemble (m := Lexeme.size pre) hp (by simp) hargs
      (by simp)).mono fun t ht => ?_
    rw [hscan, Lexeme.placed_append, Lexeme.placed_append, Nat.zero_add]
    exact List.mem_append_right _ (List.mem_append_left _ ht)

end Segment

/-! ## Invocations in place -/

/-- **An invocation in place**: what the document has at its position is
what it was read from, with the opening delimiter in front, and what the
document has at the position of its body is its body. -/
structure Invocation.InPlace (d : Delimiters) (content : Text)
    (inv : Invocation) : Prop where
  source : ∃ (n k : Nat) (part : Text) (segments : List Segment),
    Segment.Part d content k part ∧ Segment.parse d part k = .ok segments
      ∧ inv ∈ Segment.invocations segments
      ∧ inv.offset = n
      ∧ content.slice n (n + (inv.stop - inv.start))
          = part.slice inv.start inv.stop
      ∧ d.opening <+: content.slice n (n + (inv.stop - inv.start))
  body : ∀ b, inv.block = some b → ∃ n : Nat, inv.bodyOffset = some (n : Int)
    ∧ content.slice n (n + b.text.length) = b.text

namespace Segment

/-- Spans in a row stay between the ends of the row. -/
theorem Tiles.bounds {n m : Nat} {spans : List (Nat × Nat)}
    (h : Tiles n spans m) : ∀ span ∈ spans, span.1 < span.2 ∧ span.2 ≤ m := by
  induction spans generalizing n with
  | nil => simp
  | cons span rest ih =>
    obtain ⟨-, hlt, hrest⟩ := h
    exact List.forall_mem_cons.mpr ⟨⟨hlt, hrest.le⟩, ih hrest⟩

/-- **The invocations of a part are in place.** -/
theorem Part.inPlace {d : Delimiters} {content part : Text} {k : Nat}
    {segments : List Segment} {inv : Invocation}
    (h : Part d content k part) (hp : parse d part k = .ok segments)
    (hi : inv ∈ invocations segments) : inv.InPlace d content := by
  have hc := covers_of_parse hp
  have hmem := mem_of_mem_invocations hi
  have hbounds : inv.start < inv.stop ∧ inv.stop ≤ part.length :=
    hc.tiles.bounds _ (List.mem_map_of_mem hmem)
  obtain ⟨hlt, hle⟩ := hbounds
  obtain ⟨hopen, -, hbody⟩ := hc.stands _ hmem
  have ho := origin_of_parse hp hi
  have hslice : content.slice (k + inv.start)
      (k + inv.start + (inv.stop - inv.start))
      = part.slice inv.start inv.stop := by
    rw [← Text.slice_slice h.slice_eq hle, Nat.add_assoc,
      Nat.add_sub_cancel' (Nat.le_of_lt hlt)]
  refine ⟨⟨k + inv.start, k, part, segments, h, hp, hi, ?_, hslice,
    hslice ▸ hopen⟩, fun b hb => ⟨k + b.start, ?_, ?_⟩⟩
  · simp [Invocation.offset, ho]
  · simp [Invocation.bodyOffset, hb, ho]
  · obtain ⟨-, hstop, hpart⟩ := hbody b hb
    rw [Nat.add_assoc, Text.slice_slice h.slice_eq
      (Nat.le_trans (Nat.le_of_lt hstop) hle), hpart]

end Segment

end Shortcode
