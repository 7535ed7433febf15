import Shortcode.Proofs.Seams
import Shortcode.Proofs.Spelling

/-!
# Reading always moves on

Reading a text is a loop over its tags, and reading the arguments of a tag is
a loop over what stands in the argument text. The library writes both as
recursions. Here they are loops again, with a state that is handed from round
to round (`Segment.Reader`, `Arguments.Reader`) and with a number of rounds
that may not be exceeded (`within`): a loop that needs more of them comes to
nothing.

That they never do does not follow from the delimiters. An empty opening
delimiter is found everywhere, also at the end, and an empty closing delimiter
at the first place outside quotations. It follows from the name: a tag that
is read has an inside, so a round that reads one leaves less of the text than
it found (`Segment.Reader.round_advances`). As many rounds as the text has
characters are therefore enough, and what they come to is what the recursion
gives (`Segment.parse_progresses`).

With an empty opening delimiter the loop has no other way out than an error,
since it never runs out of tags to look for.
-/

namespace Shortcode

/-! ## Loops -/

/-- **A loop that may go on a number of times.** A round ends the loop with a
result, or goes on from another state. If it has to go on once more than it
may, the loop has no result. -/
def within {σ α : Type} (round : σ → α ⊕ σ) : Nat → σ → Option α
  | 0, s => (round s).getLeft?
  | n + 1, s =>
    match round s with
    | .inl a => some a
    | .inr s => within round n s

/-- **A loop comes to an end** within as many rounds as a measure says that
each round lowers, and to the answer that no round changes. -/
theorem within_eq_some {σ α : Type} {round : σ → α ⊕ σ} {answer : σ → α}
    (measure : σ → Nat)
    (hend : ∀ s a, round s = .inl a → a = answer s)
    (hnext : ∀ s s', round s = .inr s' →
      measure s' < measure s ∧ answer s' = answer s)
    {n : Nat} {s : σ} (hn : measure s ≤ n) :
    within round n s = some (answer s) := by
  induction n generalizing s with
  | zero =>
    rw [within]
    cases hr : round s with
    | inl a =>
      rw [hend s a hr]
      rfl
    | inr s' =>
      have := (hnext s s' hr).1
      omega
  | succ n ih =>
    rw [within]
    cases hr : round s with
    | inl a => rw [hend s a hr]
    | inr s' =>
      obtain ⟨hlt, ha⟩ := hnext s s' hr
      dsimp only
      rw [ih (by omega), ha]

/-! ## The tags of a text -/

namespace Segment

/-- **How far a text has been read**: up to a position, with the rest of it
ahead, a block that may be open, and the segments that are complete. -/
structure Reader where
  position : Nat := 0
  rest : Text
  block : Option OpenBlock := none
  segments : List Segment := []

namespace Reader

/-- Go past literal text. -/
def pass (r : Reader) (t : Text) : Reader :=
  if t.isEmpty then r
  else
    match r.block with
    | none =>
      { r with
        position := r.position + t.length
        segments := r.segments ++ [.literal t r.position] }
    | some b =>
      { r with
        position := r.position + t.length
        block := some (b.extend t) }

/-- What reading ends with. -/
def finish (origin : Int) (fault : Option TagFault) (r : Reader) :
    Except Error (List Segment) :=
  (atEnd origin fault r.block r.position).map (r.segments ++ ·)

/-- **One round**: look for the next opening delimiter, and read the tag that
starts there. -/
def round (d : Delimiters) (origin : Int) (r : Reader) :
    Except Error (List Segment) ⊕ Reader :=
  match Text.cut? d.opening r.rest with
  | none => .inl ((r.pass r.rest).finish origin none)
  | some (before, rest) =>
    let r := r.pass before
    match Tag.read d rest with
    | .error fault => .inl (r.finish origin (some fault))
    | .ok (t, behind) =>
      match step origin r.block r.position (.tag t) with
      | .error e => .inl (.error e)
      | .ok (block, segments) =>
        .inr ⟨r.position + t.source.length, behind, block,
          r.segments ++ segments⟩

/-- **The states that reading a text comes to**, from its front on. -/
inductive Reached (d : Delimiters) (origin : Int) (text : Text) :
    Reader → Prop
  | start : Reached d origin text { rest := text }
  | next {r r' : Reader} :
      Reached d origin text r → r.round d origin = .inr r' →
      Reached d origin text r'

variable {d : Delimiters} {origin : Int} {text : Text} {r r' : Reader}

theorem position_pass (r : Reader) (t : Text) :
    (r.pass t).position = r.position + t.length := by
  unfold pass
  split
  · next h => rw [List.isEmpty_iff.mp h]; rfl
  · split <;> rfl

/-- What is put together behind literal text. -/
theorem assemble_pass (r : Reader) (t : Text) (fault : Option TagFault)
    (back : List Lexeme) :
    (assemble origin fault r.block r.position
        (Lexeme.literals t ++ back)).map (r.segments ++ ·)
      = (assemble origin fault (r.pass t).block (r.pass t).position back).map
          ((r.pass t).segments ++ ·) := by
  unfold pass Lexeme.literals Lexeme.consLiteral
  split
  · rfl
  · rw [List.singleton_append]
    cases hb : r.block with
    | none =>
      rw [assemble]
      exact map_append_map r.segments [.literal t r.position] _
    | some b =>
      rw [assemble]

/-- What reading comes to from a state on. -/
def answer (d : Delimiters) (origin : Int) (r : Reader) :
    Except Error (List Segment) :=
  (assemble origin (Lexeme.scan d r.rest).fault r.block r.position
    (Lexeme.scan d r.rest).lexemes).map (r.segments ++ ·)

section

variable {before rest behind : Text} {t : Tag}

/-- Where no tag starts any more, the rest is literal text. -/
theorem answer_of_cut?_eq_none (hc : Text.cut? d.opening r.rest = none) :
    r.answer d origin = (r.pass r.rest).finish origin none := by
  unfold answer finish
  rw [Lexeme.scan_of_cut?_eq_none hc, Lexeme.consLiteral_eq]
  exact assemble_pass r r.rest none []

/-- Where a tag starts that cannot be read, its fault is the answer. -/
theorem answer_of_read_error {fault : TagFault}
    (hc : Text.cut? d.opening r.rest = some (before, rest))
    (hr : Tag.read d rest = .error fault) :
    r.answer d origin = (r.pass before).finish origin (some fault) := by
  unfold answer finish
  rw [Lexeme.scan_of_read_error hc hr, Lexeme.consLiteral_eq]
  exact assemble_pass r before (some fault) []

/-- Where a tag is read, the answer is made from it and from what follows. -/
theorem answer_of_read (hc : Text.cut? d.opening r.rest = some (before, rest))
    (hr : Tag.read d rest = .ok (t, behind)) :
    r.answer d origin
      = ((step origin (r.pass before).block (r.pass before).position
            (.tag t)).bind fun y =>
          (assemble origin (Lexeme.scan d behind).fault y.1
            ((r.pass before).position + t.source.length)
            (Lexeme.scan d behind).lexemes).map (y.2 ++ ·)).map
              ((r.pass before).segments ++ ·) := by
  unfold answer
  rw [Lexeme.scan_of_read hc hr, Lexeme.consLiteral_eq]
  dsimp only [Lexeme.prepend]
  rw [assemble_pass, List.singleton_append, assemble_cons]
  rfl

/-- A round that ends the loop ends it with the answer. -/
theorem eq_answer_of_round {x : Except Error (List Segment)}
    (h : r.round d origin = .inl x) : x = r.answer d origin := by
  unfold round at h
  split at h
  · next hc =>
    rw [answer_of_cut?_eq_none hc]
    exact (Sum.inl.inj h).symm
  · next before rest hc =>
    dsimp only at h
    split at h
    · next fault hr =>
      rw [answer_of_read_error hc hr]
      exact (Sum.inl.inj h).symm
    · next t behind hr =>
      rw [answer_of_read hc hr]
      split at h
      · next e hs =>
        rw [hs]
        exact (Sum.inl.inj h).symm
      · simp at h

/-- **What a round does that goes on**: it reads the next tag, which stands
behind literal text and in front of what is left, and does not change the
answer. -/
theorem exists_of_round (h : r.round d origin = .inr r') :
    ∃ before rest t, Text.cut? d.opening r.rest = some (before, rest)
      ∧ Tag.read d rest = .ok (t, r'.rest)
      ∧ r'.position = r.position + before.length + t.source.length
      ∧ r'.answer d origin = r.answer d origin := by
  unfold round at h
  split at h
  · simp at h
  · next before rest hc =>
    dsimp only at h
    split at h
    · simp at h
    · next t behind hr =>
      split at h
      · simp at h
      · next block segments hs =>
        obtain rfl := Sum.inr.inj h
        refine ⟨before, rest, t, hc, hr, by rw [position_pass], ?_⟩
        rw [answer_of_read hc hr, hs, Except.bind, map_append_map]
        rfl

end

/-- **A round that goes on moves on**: it leaves the rest of the text behind
a tag that is not empty. -/
theorem round_advances (h : r.round d origin = .inr r') :
    ∃ (before : Text) (t : Tag), r.rest = before ++ (t.source ++ r'.rest)
      ∧ 0 < t.source.length
      ∧ r'.position = r.position + before.length + t.source.length := by
  obtain ⟨before, rest, t, hc, hr, hposition, -⟩ := exists_of_round h
  refine ⟨before, t, ?_, (Tag.bounded_of_read hr).length_pos, hposition⟩
  rw [Text.cut?_eq hc, List.append_assoc, Tag.source_read hr]

/-- What is behind the position of a state is the rest of the text. -/
theorem Reached.exists_eq (h : Reached d origin text r) :
    ∃ front, text = front ++ r.rest ∧ front.length = r.position := by
  induction h with
  | start => exact ⟨[], rfl, rfl⟩
  | @next r r' _ hr ih =>
    obtain ⟨front, htext, hlength⟩ := ih
    obtain ⟨before, t, hrest, -, hposition⟩ := round_advances hr
    refine ⟨front ++ (before ++ t.source), ?_, ?_⟩
    · rw [htext, hrest]
      simp
    · simp only [List.length_append]
      omega

/-- **Tags are read one behind the other**: the next one starts where the one
before it has ended or later, and ends behind its own front and in the
text. -/
theorem Reached.advances (h : Reached d origin text r)
    (hr : r.round d origin = .inr r') :
    ∃ start t, r.position ≤ start ∧ start < r'.position
      ∧ r'.position ≤ text.length
      ∧ text.slice start r'.position = t.source
      ∧ Tag.read d (text.drop (start + d.opening.length))
          = .ok (t, text.drop r'.position) := by
  obtain ⟨front, htext, hlength⟩ := h.exists_eq
  obtain ⟨before, rest, t, hc, hread, hposition, -⟩ := exists_of_round hr
  have hrest := Text.cut?_eq hc
  have hsource := Tag.source_read hread
  have hpos := (Tag.bounded_of_read hread).length_pos
  have hwhole : text = front ++ before ++ (t.source ++ r'.rest) := by
    rw [htext, hrest, ← hsource]
    simp
  have hopened : text = front ++ before ++ d.opening ++ rest := by
    rw [htext, hrest]
    simp
  have hstart : r.position + before.length = (front ++ before).length := by
    rw [List.length_append, hlength]
  have hstop : r'.position = (front ++ before ++ t.source).length := by
    rw [List.length_append, ← hstart, hposition]
  refine ⟨r.position + before.length, t, Nat.le_add_right _ _, by omega, ?_,
    Text.slice_append hwhole hstart hposition, ?_⟩
  · have := congrArg List.length hwhole
    simp only [List.length_append] at this hstop
    omega
  · have hdrop : text.drop (r.position + before.length + d.opening.length)
        = rest := by
      rw [hstart, ← List.length_append, hopened, List.drop_left]
    have hdrop' : text.drop r'.position = r'.rest := by
      rw [hstop, hwhole, ← List.append_assoc, List.drop_left]
    rw [hdrop, hdrop', hread]

/-- **The loop over the tags ends** within as many rounds as there are
characters to read. -/
theorem within_round (d : Delimiters) (origin : Int) (r : Reader) :
    within (round d origin) r.rest.length r = some (r.answer d origin) := by
  refine within_eq_some (fun r => r.rest.length)
    (fun r x h => eq_answer_of_round h) (fun r r' h => ⟨?_, ?_⟩)
    (Nat.le_refl _)
  · obtain ⟨before, t, hrest, hpos, -⟩ := round_advances h
    have := congrArg List.length hrest
    simp only [List.length_append] at this
    omega
  · obtain ⟨-, -, -, -, -, -, ha⟩ := exists_of_round h
    exact ha

end Reader

/-- **With an empty opening delimiter nothing is read**: it is found at the
end of the text too, and no tag starts there. -/
theorem exists_parse_eq_error {d : Delimiters} (hd : d.opening = [])
    (text : Text) (origin : Int) : ∃ e, parse d text origin = .error e := by
  cases hp : parse d text origin with
  | error e => exact ⟨e, rfl⟩
  | ok segments =>
    exact absurd hd (Lexeme.opening_ne_nil (assembled_of_parse hp).1)

end Segment

/-! ## The arguments of a tag -/

namespace Arguments

/-- **How far an argument text has been read**: up to a position, with the
rest of it ahead and the arguments that were read. -/
structure Reader where
  position : Nat := 0
  rest : Text
  items : Arguments := []

namespace Reader

/-- **One round**: go past white space, or read an argument. -/
def round (r : Reader) : Except ArgumentFault Arguments ⊕ Reader :=
  match r.rest with
  | [] => .inl (.ok r.items)
  | c :: rest =>
    if isBlank c then
      .inr ⟨r.position + 1 + (rest.takeWhile isBlank).length,
        rest.dropWhile isBlank, r.items⟩
    else
      match Argument.next? r.position c rest with
      | .error fault => .inl (.error fault)
      | .ok (a, behind) =>
        .inr ⟨r.position + 1 + rest.length - behind.length, behind,
          r.items ++ [a]⟩

/-- What reading comes to from a state on. -/
def answer (r : Reader) : Except ArgumentFault Arguments :=
  (parseFrom r.position r.rest).map (r.items ++ ·)

variable {r r' : Reader}

theorem eq_answer_of_round {x : Except ArgumentFault Arguments}
    (h : r.round = .inl x) : x = r.answer := by
  unfold round at h
  unfold answer
  split at h
  · next hr =>
    obtain rfl := Sum.inl.inj h
    rw [hr, parseFrom]
    simp [Except.map]
  · next c rest hr =>
    split at h
    · simp at h
    · next hc =>
      split at h
      · next fault hn =>
        obtain rfl := Sum.inl.inj h
        rw [hr, parseFrom, if_neg hc]
        split
        · next hn' =>
          obtain rfl := Except.error.inj (hn.symm.trans hn')
          rfl
        · next hn' =>
          rw [hn] at hn'
          simp at hn'
      · simp at h

/-- **A round that goes on moves on**: it leaves the rest of the text behind
something that is not empty, at the position behind it, and does not change
the answer. -/
theorem round_advances (h : r.round = .inr r') :
    (∃ t, t ≠ [] ∧ r.rest = t ++ r'.rest
        ∧ r'.position = r.position + t.length)
      ∧ r'.answer = r.answer := by
  unfold round at h
  split at h
  · simp at h
  · next c rest hr =>
    split at h
    · next hc =>
      obtain rfl := Sum.inr.inj h
      have hrest : c :: rest = (c :: rest.takeWhile isBlank)
          ++ rest.dropWhile isBlank := by
        rw [List.cons_append, List.takeWhile_append_dropWhile]
      have hblank : Text.IsBlank (c :: rest.takeWhile isBlank) := by
        intro x hx
        rcases List.mem_cons.mp hx with rfl | hx
        · exact hc
        · exact List.mem_takeWhile_imp hx
      have hposition : r.position + 1 + (rest.takeWhile isBlank).length
          = r.position + (c :: rest.takeWhile isBlank).length := by
        rw [List.length_cons]
        omega
      refine ⟨⟨_, List.cons_ne_nil _ _, hr.trans hrest, hposition⟩, ?_⟩
      unfold answer
      rw [hr, hrest, parseFrom_blank hblank, ← hposition]
    · next hc =>
      split at h
      · simp at h
      · next a behind hn =>
        obtain rfl := Sum.inr.inj h
        have hc : isBlank c = false := by simpa using hc
        rcases Argument.next?_cases hc rest r.position with
          ⟨b, t, behind', hn', ht, hk, hw, hs⟩ | ⟨cause, k, hn', -⟩
        · obtain ⟨rfl, rfl⟩ := Prod.mk.inj (Except.ok.inj (hn.symm.trans hn'))
          obtain ⟨x, more, htext, -⟩ := hw.exists_cons hk
          have hposition : r.position + 1 + rest.length - behind.length
              = r.position + t.length := by
            have := congrArg List.length ht
            simp only [List.length_append, List.length_cons] at this
            omega
          have hparse := parseFrom_argument Text.isBlank_nil hk hw hs
            r.position
          rw [List.nil_append, List.length_nil, Nat.add_zero] at hparse
          refine ⟨⟨t, by simp [htext], hr.trans ht, hposition⟩, ?_⟩
          unfold answer
          rw [hr, ht, hparse, hposition]
          cases parseFrom (r.position + t.length) behind with
          | error => rfl
          | ok args => simp [Except.map]
        · rw [hn] at hn'
          simp at hn'

/-- **The loop over arguments ends** within as many rounds as there are
characters to read. -/
theorem within_round (r : Reader) :
    within round r.rest.length r = some r.answer := by
  refine within_eq_some (fun r => r.rest.length)
    (fun r x h => eq_answer_of_round h) (fun r r' h => ?_) (Nat.le_refl _)
  obtain ⟨⟨t, hne, hrest, -⟩, ha⟩ := round_advances h
  have := List.length_pos_iff.mpr hne
  have := congrArg List.length hrest
  rw [List.length_append] at this
  exact ⟨by omega, ha⟩

end Reader

end Arguments

/-! ## Both loops -/

namespace Segment

/-- **Reading always moves on**, whatever the text and the delimiters are,
and if they are empty, equal or hold quotes. Each tag that is read starts
where the one before it has ended or later, and ends behind its own front and
in the text. So a loop that may read as many tags as the text has characters
comes to its end, and to the same as reading. In an argument text each round
leaves the rest of it behind something that is not empty, and as many rounds
as it has characters are enough. With an empty opening delimiter, reading
comes to an error. -/
theorem parse_progresses (d : Delimiters) (text : Text) (origin : Int) :
    (∀ r r', Reader.Reached d origin text r → r.round d origin = .inr r' →
        ∃ start t, r.position ≤ start ∧ start < r'.position
          ∧ r'.position ≤ text.length
          ∧ text.slice start r'.position = t.source
          ∧ Tag.read d (text.drop (start + d.opening.length))
              = .ok (t, text.drop r'.position))
      ∧ within (Reader.round d origin) text.length { rest := text }
          = some (parse d text origin)
      ∧ (∀ r r' : Arguments.Reader, r.round = .inr r' →
          r.position < r'.position
            ∧ r'.position + r'.rest.length = r.position + r.rest.length
            ∧ r'.rest <:+ r.rest)
      ∧ (∀ args : Text,
          within Arguments.Reader.round args.length { rest := args }
            = some (Arguments.parseFrom 0 args))
      ∧ (d.opening = [] → ∃ e, parse d text origin = .error e) := by
  refine ⟨fun r r' h hr => h.advances hr, ?_, fun r r' h => ?_, fun args => ?_,
    fun hd => exists_parse_eq_error hd text origin⟩
  · have hloop := Reader.within_round d origin { rest := text }
    rwa [show Reader.answer d origin { rest := text } = parse d text origin
      from map_nil_append _] at hloop
  · obtain ⟨⟨t, hne, hrest, hposition⟩, -⟩ := Arguments.Reader.round_advances h
    have := List.length_pos_iff.mpr hne
    refine ⟨by omega, ?_, hrest ▸ List.suffix_append t _⟩
    rw [hrest, List.length_append]
    omega
  · have hloop := Arguments.Reader.within_round { rest := args }
    unfold Arguments.Reader.answer at hloop
    rw [hloop]
    cases Arguments.parseFrom 0 args <;> rfl

/-- With an empty opening delimiter tags are read at once, one behind the
other, until the text ends. -/
theorem parse_progresses_everywhere :
    let d : Delimiters := ⟨[], [';']⟩
    let text := "a b;c/;".toList
    let r : Reader := { rest := text }
    let r' : Reader :=
      ⟨4, "c/;".toList, some ⟨['a'], [⟨['b'], none⟩], 0, 4, [], []⟩, []⟩
    let q : Arguments.Reader := { rest := [' ', 'b'] }
    let q' : Arguments.Reader := ⟨1, ['b'], []⟩
    ((Reader.Reached d 0 text r ∧ r.round d 0 = .inr r')
        ∧ ∃ start t, r.position ≤ start ∧ start < r'.position
          ∧ r'.position ≤ text.length
          ∧ Text.slice text start r'.position = t.source
          ∧ Tag.read d (text.drop (start + d.opening.length))
              = .ok (t, text.drop r'.position))
      ∧ (q.round = .inr q' ∧ q.position < q'.position)
      ∧ (d.opening = [] ∧ ∃ e, parse d text 0 = .error e) := by
  intro d text r r' q q'
  have hr : r.round d 0 = .inr r' := by
    unfold d r r' text
    cbv
  have hq : q.round = .inr q' := by
    unfold q q'
    cbv
  obtain ⟨htags, -, hargs, -, hempty⟩ := parse_progresses d text 0
  exact ⟨⟨⟨.start, hr⟩, htags r r' .start hr⟩, ⟨hq, (hargs q q' hq).1⟩,
    rfl, hempty rfl⟩

end Segment

end Shortcode
