import Shortcode.Proofs.Provenance
import Shortcode.Proofs.Seams
import Shortcode.Proofs.Success

/-!
# Expanding what was expanded

An expansion is made of pieces: the literal texts of the document, and what
the handlers returned in the places of the invocations. If the handlers
return plain text without an opening delimiter, then no piece has one.
Expanding the result again should not change it, then, since there seems to
be nothing left to expand.

But the pieces are joined, and nobody looks at the seams. A literal text may
end with the first half of an opening delimiter, and a handler may return
the other half: with the usual delimiters, `<<%x/%>` becomes `<%y/%>` if the
handler of `x` returns `%y/%>` (`Session.exists_expand_unstable`). So what
holds is that a result is stable whose pieces stand apart
(`Text.Seamless`), and the pieces of a delimiter of one character always do
(`Session.expand_stable`).
-/

namespace Shortcode

/-! ## Texts that are joined -/

namespace Text

variable {mark : Text}

/-- **Pieces without a seam**, as far as a mark is concerned: at each place
between two of them, what stands in front of it and what stands behind it
stand apart. -/
def Seamless (mark : Text) (pieces : List Text) : Prop :=
  ∀ front back, pieces = front ++ back →
    Apart mark front.flatten back.flatten

theorem seamless_iff {pieces : List Text} :
    Seamless mark pieces ↔ ∀ k < pieces.length,
      Apart mark (pieces.take k).flatten (pieces.drop k).flatten := by
  constructor
  · exact fun h k _ => h _ _ (List.take_append_drop k pieces).symm
  · intro h front back he
    cases back with
    | nil =>
      intro u v hu
      have hlen := congrArg List.length hu
      simp only [List.flatten_nil, List.append_nil, List.length_append] at hlen
      omega
    | cons b back =>
      have hk := h front.length (by simp [he])
      rwa [he, List.take_left, List.drop_left] at hk

instance {pieces : List Text} : Decidable (Seamless mark pieces) :=
  decidable_of_iff _ seamless_iff.symm

theorem Seamless.tail {piece : Text} {pieces : List Text}
    (h : Seamless mark (piece :: pieces)) : Seamless mark pieces := by
  intro front back he
  have hapart := h (piece :: front) back (by rw [he, List.cons_append])
  exact Apart.of_append hapart

/-- A mark of one character stands in one of the texts or in the other. -/
theorem apart_of_length_le_one (h : mark.length ≤ 1) (a b : Text) :
    Apart mark a b := by
  intro u v _
  omega

/-- **The mark does not come about by joining** pieces that stand apart. -/
theorem has_flatten (hm : mark ≠ []) {pieces : List Text}
    (h : Seamless mark pieces) (hp : ∀ p ∈ pieces, has mark p = false) :
    has mark pieces.flatten = false := by
  induction pieces with
  | nil => exact has_nil hm
  | cons p pieces ih =>
    obtain ⟨hhead, hrest⟩ := List.forall_mem_cons.mp hp
    have hapart := h [p] pieces rfl
    rw [List.flatten_singleton] at hapart
    rw [List.flatten_cons, has_eq_false_iff,
      hapart.cut?_append_eq (has_eq_false_iff.mp hhead),
      has_eq_false_iff.mp (ih h.tail hrest)]
    rfl

end Text

/-! ## Literal texts -/

namespace Lexeme

variable {d : Delimiters} {text : Text}

/-- **Literal pieces have no opening delimiter.** -/
theorem has_of_literal_mem {t : Text}
    (h : .literal t ∈ (scan d text).lexemes) :
    Text.has d.opening t = false := by
  -- an empty delimiter stands in front of everything, so no literal text does
  have hbefore {text before rest : Text} {ls : List Lexeme}
      {fault : Option TagFault}
      (hc : Text.cut? d.opening text = some (before, rest))
      (hmem : .literal t ∈ (consLiteral before ⟨ls, fault⟩).lexemes) :
      Text.has d.opening t = false ∨ .literal t ∈ ls := by
    unfold consLiteral at hmem
    split at hmem
    · exact .inr hmem
    · next hne =>
      rcases List.mem_cons.mp hmem with he | hmem
      · obtain rfl := Lexeme.literal.inj he
        refine .inl (Text.has_eq_false_iff.mpr (Text.cut?_before ?_ hc))
        intro hd
        have hle := Text.length_before_le hc (u := []) (v := text)
          (by simp [hd])
        exact hne (List.isEmpty_iff.mpr (List.length_eq_zero_iff.mp
          (Nat.le_zero.mp hle)))
      · exact .inr hmem
  fun_induction scan d text with
  | case1 text hc =>
    unfold consLiteral at h
    split at h
    · simp at h
    · obtain rfl := Lexeme.literal.inj (List.mem_singleton.mp h)
      exact Text.has_eq_false_iff.mpr hc
  | case2 text before rest hc fault hr =>
    exact (hbefore hc h).resolve_right List.not_mem_nil
  | case3 text before rest hc tag behind hr s ih =>
    rcases hbefore hc h with h | h
    · exact h
    · exact ih (List.mem_of_ne_of_mem (by simp) h)

end Lexeme

namespace Segment

variable {d : Delimiters} {text : Text} {origin : Int}
  {segments : List Segment}

theorem Assembled.literal_mem {n : Nat} {ls : List Lexeme}
    (h : Assembled origin n ls segments) {t : Text} {m : Nat}
    (ht : .literal t m ∈ segments) : .literal t ∈ ls := by
  induction h with
  | nil => simp at ht
  | literal _ ih =>
    rcases List.mem_cons.mp ht with he | ht
    · obtain ⟨rfl, -⟩ := Segment.literal.inj he
      exact List.mem_cons_self
    · exact List.mem_cons_of_mem _ (ih ht)
  | single _ ih =>
    exact List.mem_cons_of_mem _ (ih (List.mem_of_ne_of_mem (by simp) ht))
  | block _ _ _ ih =>
    refine List.mem_cons_of_mem _ (List.mem_append_right _ ?_)
    exact List.mem_cons_of_mem _ (ih (List.mem_of_ne_of_mem (by simp) ht))

/-- **Literal segments have no opening delimiter.** -/
theorem has_of_literal_mem (h : parse d text origin = .ok segments)
    {t : Text} {n : Nat} (ht : .literal t n ∈ segments) :
    Text.has d.opening t = false :=
  Lexeme.has_of_literal_mem ((assembled_of_parse h).2.2.literal_mem ht)

/-- A text without an opening delimiter is read as it is. -/
theorem parse_plain (h : Text.has d.opening text = false) :
    parse d text origin = .ok (literals text 0) := by
  have hread := assemble_literals origin 0 none text []
  rw [List.append_nil] at hread
  unfold parse
  rw [Lexeme.scan_of_cut?_eq_none (Text.has_eq_false_iff.mp h),
    Lexeme.consLiteral_eq]
  dsimp only [Lexeme.prepend]
  rw [List.append_nil, hread]
  exact congrArg Except.ok (List.append_nil _)

end Segment

/-! ## What an expansion is made of -/

/-- A run that goes on with another one returns what that one returns. -/
theorem Run.returned_of_andThen {α β : Type} {r : Run α}
    {cancels : Option Moment} {next : α → Moment → Option Moment → Run β}
    {b : β} (h : (r.andThen cancels next).outcome = .returned b) :
    ∃ a, r.outcome = .returned a
      ∧ (next a r.finish (Moment.earliest? cancels r.cancels)).outcome
        = .returned b := by
  unfold andThen at h
  split at h
  · next a ha => exact ⟨a, ha, h⟩
  · simp [withOutcome] at h
  · simp [withOutcome] at h

namespace Session

variable {s : Session} {content r : Text} {now : Moment}
  {cancels : Option Moment}

/-- **Handlers that return plain text** without an opening delimiter,
wherever they are called. -/
def ReturnsPlain (s : Session) : Prop :=
  ∀ (q : Request) (inv : Invocation) (h : Handler) (start : Moment)
    (known : Option Moment) (output : Output) (fs : List Fragment),
    s.registry.resolve? inv.name = some h →
    ((h.program ⟨inv, q.depth, s.settings, s.metadata⟩).run s.cancellable
      (escaping (q.expander s inv)) start known).outcome = .returned output →
    output.fragments = .ok fs →
    ∀ f ∈ fs, f.rescan = false
      ∧ ∀ t ∈ f.text, Text.has s.settings.delimiters.opening t = false

/-- **The pieces of an expansion**: the literal texts of a document, and in
the place of each invocation the texts that its handler returned. -/
inductive MadeOf (s : Session) (now : Moment) (cancels : Option Moment) :
    Text → List Text → Prop
  | empty : MadeOf s now cancels [] []
  | read {content : Text} {segments : List Segment}
      {produced : List (List Fragment)} {pieces : List Text} :
      Segment.parse s.settings.delimiters content = .ok segments →
      ((Request.whole s content now cancels).group s segments).outcome
        = .returned produced →
      parts segments produced = pieces.map (fun t => .ready (some t)) →
      MadeOf s now cancels content pieces

theorem splice_ready (expander : Invocation → Expander)
    (ts : List (Option Text)) (now : Moment) (cancels : Option Moment) :
    splice expander (ts.map .ready) now cancels = .now now (.returned ts) := by
  induction ts with
  | nil => rfl
  | cons t ts ih =>
    rw [List.map_cons, splice, ih]
    rfl

/-- Texts can be put together if they are all there. -/
theorem exists_of_concat_eq_ok {ts : List (Option Text)}
    (h : concat ts = .ok r) :
    ∃ us : List Text, ts = us.map some ∧ r = us.flatten := by
  induction ts generalizing r with
  | nil => exact ⟨[], rfl, (Except.ok.inj h).symm⟩
  | cons t ts ih =>
    have hcons := concat_cons t ts
    rw [h] at hcons
    cases t with
    | none => simp [Except.toOption] at hcons
    | some u =>
      cases hc : concat ts with
      | error f => simp [hc, Except.toOption] at hcons
      | ok v =>
        obtain rfl : r = u ++ v := by simpa [hc, Except.toOption] using hcons
        obtain ⟨us, rfl, rfl⟩ := ih hc
        exact ⟨u :: us, rfl, rfl⟩

/-- A part that is ready and has no opening delimiter. -/
def IsPlain (s : Session) (p : Part) : Prop :=
  ∃ t : Option Text, p = .ready t
    ∧ ∀ u ∈ t, Text.has s.settings.delimiters.opening u = false

/-- What plain handlers produce for the invocations in a text is plain. -/
theorem isPlain_of_mem_parts (hs : s.ReturnsPlain) {q : Request}
    {segments : List Segment} {produced : List (List Fragment)}
    (hp : Segment.parse s.settings.delimiters content q.origin = .ok segments)
    (h : (q.group s segments).outcome = .returned produced) :
    ∀ p ∈ parts segments produced, s.IsPlain p := by
  have hproduced : List.Forall₂
      (fun inv fs => ∀ f ∈ fs, s.IsPlain (partOf inv f))
      (Segment.invocations segments) produced := by
    refine (Request.returned_of_group h).imp ?_
    rintro inv fs ⟨start, known, -, ho⟩ f hf
    unfold Request.memberRun at ho
    rcases s.member_eq_or q.depth _ q.now inv start known with
      he | ⟨cleared, he⟩
    · rw [he] at ho
      simp [Run.now] at ho
    · rw [he] at ho
      obtain ⟨hd, output, hname, hrun, hfs⟩ := exists_of_invoke_returned ho
      obtain ⟨hrescan, htext⟩ :=
        hs q inv hd _ known output fs hname hrun hfs f hf
      exact ⟨f.text, by simp [partOf, hrescan], htext⟩
  have hliteral : ∀ t n, .literal t n ∈ segments →
      s.IsPlain (.ready (some t)) := by
    intro t n ht
    refine ⟨some t, rfl, ?_⟩
    rintro u ⟨⟩
    exact Segment.has_of_literal_mem hp ht
  clear hp h
  induction segments generalizing produced with
  | nil => simp [parts]
  | cons segment segments ih =>
    have htail := fun t n ht => hliteral t n (List.mem_cons_of_mem _ ht)
    cases segment with
    | literal t n =>
      exact List.forall_mem_cons.mpr
        ⟨hliteral t n List.mem_cons_self, ih hproduced htail⟩
    | invocation inv =>
      cases hproduced with
      | cons hfs hrest =>
        refine List.forall_mem_append.mpr ⟨?_, ih hrest htail⟩
        exact List.forall_mem_map.mpr hfs

/-- Parts that are plain and can be put together are pieces. -/
theorem exists_pieces {ps : List Part} (h : ∀ p ∈ ps, s.IsPlain p)
    {expander : Invocation → Expander}
    (hr : ((splice expander ps now cancels).mapResult concat).outcome
      = .returned r) :
    ∃ pieces : List Text, ps = pieces.map (fun t => .ready (some t))
      ∧ r = pieces.flatten
      ∧ ∀ p ∈ pieces,
          Text.has s.settings.delimiters.opening p = false := by
  obtain ⟨ts, rfl, hts⟩ : ∃ ts : List (Option Text), ps = ts.map .ready
      ∧ ∀ t ∈ ts, ∀ u ∈ t,
          Text.has s.settings.delimiters.opening u = false := by
    clear hr
    induction ps with
    | nil => exact ⟨[], rfl, by simp⟩
    | cons p ps ih =>
      obtain ⟨⟨t, rfl, ht⟩, hps⟩ := List.forall_mem_cons.mp h
      obtain ⟨ts, rfl, hts⟩ := ih hps
      exact ⟨t :: ts, rfl, List.forall_mem_cons.mpr ⟨ht, hts⟩⟩
  rw [splice_ready] at hr
  have hconcat : concat ts = .ok r := by
    obtain ⟨us, ho, hconcat⟩ := Outcome.bind_eq_returned_iff.mp
      (show (Outcome.returned ts).bind concat = .returned r from hr)
    rwa [Outcome.returned.inj ho]
  obtain ⟨us, rfl, rfl⟩ := exists_of_concat_eq_ok hconcat
  refine ⟨us, by rw [List.map_map]; rfl, rfl, fun p hp => ?_⟩
  exact hts (some p) (List.mem_map_of_mem hp) p rfl

/-- **An expansion with plain handlers** is made of pieces, and none of them
has an opening delimiter. -/
theorem exists_madeOf (hs : s.ReturnsPlain)
    (h : (s.expand content now cancels).outcome = .returned r) :
    ∃ pieces, s.MadeOf now cancels content pieces ∧ r = pieces.flatten
      ∧ ∀ p ∈ pieces,
          Text.has s.settings.delimiters.opening p = false := by
  unfold expand at h
  split at h
  · next hempty =>
    obtain rfl := List.isEmpty_iff.mp hempty
    obtain rfl := Outcome.returned.inj h
    exact ⟨[], .empty, rfl, by simp⟩
  · next hne =>
    rw [expandFrom] at h
    split at h
    · simp [Run.now] at h
    · split at h
      · next hplain =>
        have hplain : Text.has s.settings.delimiters.opening content
            = false := by
          simpa using hplain
        have hp : Segment.parse s.settings.delimiters content 0 = _ :=
          Segment.parse_plain hplain
        rw [Segment.literals, if_neg hne] at hp
        obtain rfl := Outcome.returned.inj h
        exact ⟨[content], .read hp (show _ = Outcome.returned [] from rfl) rfl,
          by simp, by simpa using hplain⟩
      · split at h
        · simp [Run.now] at h
        · next segments hp =>
          obtain ⟨produced, hgroup, hr⟩ := Run.returned_of_andThen h
          have hparts := isPlain_of_mem_parts hs
            (q := .whole s content now cancels) hp hgroup
          obtain ⟨pieces, he, hflat, hpieces⟩ := exists_pieces hparts hr
          exact ⟨pieces, .read hp hgroup he, hflat, hpieces⟩

/-- A text without an opening delimiter stays as it is. -/
theorem expand_plain (h : Text.has s.settings.delimiters.opening r = false)
    (hnow : Moment.reached cancels now = false) :
    s.expand r now cancels = .now now (.returned r) := by
  unfold expand
  split
  · rfl
  · rw [expandFrom, hnow, h]
    rfl

/-- **The result of an expansion with plain handlers is stable** if its
pieces stand apart. It is made of the literal texts of the document and of
what the handlers returned, and no piece has an opening delimiter; so one
can only come about where pieces meet, and a delimiter of one character
cannot. -/
theorem expand_stable (hs : s.ReturnsPlain)
    (h : (s.expand content now cancels).outcome = .returned r) :
    ∃ pieces, s.MadeOf now cancels content pieces ∧ r = pieces.flatten
      ∧ (∀ p ∈ pieces, Text.has s.settings.delimiters.opening p = false)
      ∧ (s.settings.delimiters.opening.length ≤ 1 →
          Text.Seamless s.settings.delimiters.opening pieces)
      ∧ (Text.Seamless s.settings.delimiters.opening pieces →
          ∀ now' cancels', Moment.reached cancels' now' = false →
            s.expand r now' cancels' = .now now' (.returned r)) := by
  obtain ⟨pieces, hmade, rfl, hp⟩ := exists_madeOf hs h
  refine ⟨pieces, hmade, rfl, hp, fun hlen front back _ =>
    Text.apart_of_length_le_one hlen _ _, fun hseam now' cancels' hnow => ?_⟩
  cases hcases : pieces with
  | nil => rfl
  | cons p rest =>
    have hm : s.settings.delimiters.opening ≠ [] := by
      intro hm
      have hhas := hp p (by simp [hcases])
      rw [hm, Text.has_eq_false_iff] at hhas
      exact Text.cut?_none hhas [] p rfl
    rw [← hcases]
    exact expand_plain (Text.has_flatten hm hseam hp) hnow

/-- A session in which `x` returns a text that ends a tag, and begins with
the second half of an opening delimiter. -/
def halved : Session where
  registry :=
    { bindings := [("x".toList, ⟨"half".toList, false, fun _ =>
        .finish (.text "%y/%>".toList)⟩)]
      frozen := true }
  settings := {}

theorem returnsPlain_halved : halved.ReturnsPlain := by
  intro q inv h start known output fs hh hrun hfs f hf
  obtain ⟨b, hb, rfl⟩ := Registry.exists_of_resolve? hh
  obtain rfl := List.mem_singleton.mp hb
  obtain rfl := Outcome.returned.inj hrun
  obtain rfl := Except.ok.inj hfs
  obtain rfl := List.mem_singleton.mp hf
  refine ⟨rfl, ?_⟩
  rintro t ⟨⟩
  decide

/-- Behind another character the second half of a delimiter is harmless. -/
theorem expand_stable_halved :
    let r := "a%y/%>".toList
    let pieces := [['a'], "%y/%>".toList]
    (halved.ReturnsPlain
        ∧ (halved.expand "a<%x/%>".toList ⟨0, 0⟩ none).outcome = .returned r)
      ∧ halved.MadeOf ⟨0, 0⟩ none "a<%x/%>".toList pieces
      ∧ Text.Seamless halved.settings.delimiters.opening pieces
      ∧ halved.expand r ⟨1, 0⟩ none = .now ⟨1, 0⟩ (.returned r) := by
  intro r pieces
  have hr : (halved.expand "a<%x/%>".toList ⟨0, 0⟩ none).outcome
      = .returned r := Outcome.result?_eq_some_iff.mp (by decide +kernel)
  obtain ⟨found, hmade, -, -, -, hstable⟩ :=
    expand_stable returnsPlain_halved hr
  have hfound : found = pieces := by
    cases hmade with
    | @read content segments produced _ hp hgroup hparts =>
      have hsegments : segments = [.literal ['a'] 0,
          .invocation ⟨"x".toList, [], none, 1, 7, 0⟩] :=
        Except.ok.inj (hp.symm.trans
          (Segment.parse_eq_ok_of_toOption (by decide +kernel)))
      subst hsegments
      have hproduced : produced = [[⟨some "%y/%>".toList, false⟩]] :=
        Option.some.inj ((Outcome.result?_eq_some_iff.mpr hgroup).symm.trans
          (by decide +kernel))
      subst hproduced
      have hinj : Function.Injective fun t : Text => Part.ready (some t) :=
        fun _ _ h => Option.some.inj (Part.ready.inj h)
      exact List.map_injective_iff.mpr hinj hparts.symm
  subst hfound
  have hseam : Text.Seamless halved.settings.delimiters.opening pieces := by
    decide
  exact ⟨⟨returnsPlain_halved, hr⟩, hmade, hseam, hstable hseam ⟨1, 0⟩ none rfl⟩

/-- **Results of plain handlers need not be stable**: behind the first half
of an opening delimiter the second half makes it whole, and what follows is
read as a shortcode that nobody knows. -/
theorem exists_expand_unstable :
    halved.ReturnsPlain
      ∧ (halved.expand "<<%x/%>".toList ⟨0, 0⟩ none).outcome
          = .returned "<%y/%>".toList
      ∧ ((halved.expand "<%y/%>".toList ⟨0, 0⟩ none).outcome.failure?.bind
          Failure.kind?) = some .unknownShortcode :=
  ⟨returnsPlain_halved, Outcome.result?_eq_some_iff.mp (by decide +kernel),
    by decide +kernel⟩

end Session

end Shortcode
