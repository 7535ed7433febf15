import Shortcode.Proofs.Escaping
import Shortcode.Proofs.Quoting
import Shortcode.Proofs.Twins
import Shortcode.Proofs.Values

/-!
# Titles and blurbs

A callout has a title and the heading of a post a blurb. Either is put out
escaped and not expanded, so it stands in the output where the page wants it
and nothing of it is markup. And nothing else depends on it: with another
title of the same length, everything happens at the same moments, every
handler is called for the same, and the output is the same but for the title
(`Session.expand_inert`). This is so also if the titles look like shortcodes.

On its way a title is passed on by the reader, which leaves it in the
arguments of one invocation (`Segment.parse_framed_cases`), by the handler of
that invocation, which puts it into a fragment that is not expanded again
(`Session.twins_invoke`), by the group of the handlers
(`Session.twins_invokeAll`), and by what puts the text together, where it
stands between the expansion of the body and other parts
(`Session.twins_splice`).
-/

namespace Shortcode

/-! ## What stands around a body -/

/-- The last occurrence of a key decides. -/
theorem Arguments.get_append {before after : Arguments} {key : Text}
    {value : Option Text} (h : ∀ a ∈ after, a.key ≠ key) :
    get (before ++ ⟨key, value⟩ :: after) key = value := by
  have hlast : (before ++ ⟨key, value⟩ :: after).reverse.find?
      (fun a => a.key = key) = some ⟨key, value⟩ :=
    find?_reverse_eq_some_iff.mpr ⟨rfl, before, after, rfl, h⟩
  unfold get
  rw [hlast]

namespace Standard

/-- A callout with a title around a text. -/
def titledCallout (icon : String) (inner title : Text) : Text :=
  ("<blockquote class=\"info-block\">\n<div>\n<div style=\"" ++ iconStyle ++
    "\">\n" ++ icon ++ "\n</div>\n<div>\n").toList ++
    ("<div class=\"callout-title\">".toList ++ title ++ "</div>\n".toList) ++
    "<p>".toList ++ inner ++ "</p>\n</div>\n</div>\n</blockquote>".toList

theorem around_eq_titledCallout (icon : String) {title : Option Text} {t : Text}
    (h : title = some t) (ht : t ≠ []) (inner : Text) :
    calloutOpening icon title ++ inner ++ calloutClosing
      = titledCallout icon inner t.escape := by
  have hline : titleLine title = "<div class=\"callout-title\">".toList
      ++ t.escape ++ "</div>\n".toList := by
    obtain ⟨c, t, rfl⟩ := List.exists_cons_of_ne_nil ht
    rw [h, titleLine]
    simp
  unfold calloutOpening calloutClosing titledCallout
  rw [hline]

/-- The heading of a post, with a blurb. -/
def blurbedDrop (inner blurb : Text) : Text :=
  ("<blockquote class=\"daily-drop\">\n<div>\n<div style=\"" ++ iconStyle ++
    "\">\n" ++ bulbIcon ++
    "\n</div>\n<div class=\"drop-header\">\nDaily Drop ").toList ++ inner ++
    ("\n</div>\n<div>\n".toList ++ blurb ++
    "\n</div>\n</div>\n</blockquote>".toList)

theorem around_eq_blurbedDrop {args : Arguments} {t : Text}
    (h : args.get "blurb".toList = some t) (ht : t ≠ []) (inner : Text) :
    dropOpening ++ inner ++ dropClosing args = blurbedDrop inner t.escape := by
  have hblurb : blurbOf args = t := by
    obtain ⟨c, t, rfl⟩ := List.exists_cons_of_ne_nil ht
    unfold blurbOf
    rw [h]
  unfold dropOpening dropClosing blurbedDrop
  rw [hblurb]

namespace Decoration

/-- The key of the title of a callout, and of the blurb of a heading. -/
def key : Decoration → Text
  | .info | .tick => "title".toList
  | .dailyDrop => "blurb".toList

/-- **A decoration with a title** (or blurb) around a text. -/
def titled (inner title : Text) : Decoration → Text
  | .info => titledCallout infoIcon inner title
  | .tick => titledCallout tickIcon inner title
  | .dailyDrop => blurbedDrop inner title

/-- **The title stands escaped in its place.** -/
theorem around_eq_titled (k : Decoration) {args : Arguments} {t : Text}
    (h : args.get k.key = some t) (ht : t ≠ []) (inner : Text) :
    k.front args ++ inner ++ k.back args = k.titled inner t.escape := by
  cases k with
  | info => exact around_eq_titledCallout infoIcon h ht inner
  | tick => exact around_eq_titledCallout tickIcon h ht inner
  | dailyDrop => exact around_eq_blurbedDrop h ht inner

/-- What a decoration produces for a body. -/
def framed (k : Decoration) (args : Arguments) (body : Text) :
    List Fragment :=
  [⟨some (k.front args), false⟩, ⟨some body, true⟩,
    ⟨some (k.back args), false⟩]

end Decoration

/-- **A block of a decoration without its title** (or blurb), in a text. What
stands in front of it can be read, and its opening delimiter is found where
it stands; what stands behind the opening tag may be anything. If the
key of the title is written several times, this is the last one. -/
structure Untitled (d : Delimiters) where
  decoration : Decoration
  tag : Tag.Frame
  front : Text
  rest : Text
  name_eq : tag.name = decoration.name
  key_eq : tag.key = decoration.key
  last : ∀ a ∈ tag.after, a.key ≠ decoration.key
  readable : ∃ segments, Segment.parse d front = .ok segments
  apart : Text.Apart d.opening front d.opening
  ends : Tag.EndsAfter d.closing (tag.inside '"' []) []

namespace Untitled

variable {d : Delimiters} (b : Untitled d)

/-- The text with a title between quotes. -/
def written (q : Char) (t : Text) : Text :=
  b.tag.written d b.front b.rest q t

/-- The arguments of the block with a title. -/
def arguments (t : Text) : Arguments := b.tag.arguments t

theorem has_written (q : Char) (t : Text) :
    Text.has d.opening (b.written q t) = true := by
  have hwritten : b.written q t = b.front ++ d.opening
      ++ (b.tag.inside q t ++ (d.closing ++ b.rest)) := by
    simp [written, Tag.Frame.written]
  rw [hwritten]
  exact Text.has_append ..

theorem get_arguments (t : Text) :
    (b.arguments t).get b.decoration.key = some t := by
  unfold arguments Tag.Frame.arguments
  rw [b.key_eq]
  exact Arguments.get_append b.last

/-- A block at the front of a text, with its opening tag as arguments are
usually written. -/
def write (hd : d.Plain) (k : Decoration) (before after : Arguments)
    (hbefore : ∀ a ∈ before, a.Writable) (hafter : ∀ a ∈ after, a.Writable)
    (hlast : ∀ a ∈ after, a.key ≠ k.key) (rest : Text) : Untitled d where
  decoration := k
  tag :=
    { name := k.name
      key := k.key
      before := before
      after := after
      margin := []
      lead := before.write
      gap := [' ']
      trail := after.write
      rest := []
      isName := by cases k <;> decide
      isKey := by cases k <;> decide
      isKey_before := fun a ha => (hbefore a ha).1
      isKey_after := fun a ha => (hafter a ha).1
      blank_margin := Text.isBlank_nil
      written_lead := Arguments.written_write hbefore
      blank_gap := by decide
      gap_ne_nil := by decide
      written_trail := Arguments.written_write hafter
      blank_rest := Text.isBlank_nil }
  front := []
  rest := rest
  name_eq := rfl
  key_eq := rfl
  last := hlast
  readable := by
    unfold Segment.parse
    rw [Lexeme.scan_nil hd.opening]
    exact ⟨[], rfl⟩
  apart := fun _ _ _ => .inl (Nat.zero_le _)
  ends := Tag.Frame.endsAfter _ hd (by decide) List.not_mem_nil

end Untitled

end Standard

/-- **Calls with other arguments**: for an invocation of a name at a depth,
which has other arguments in the other call, and nothing else has changed. -/
structure Call.Readdressed (depth : Nat) (name : Text) (args args' : Arguments)
    (c c' : Call) : Prop where
  depth : c.depth = depth
  name : c.name = name
  arguments : c.invocation.arguments = args
  eq : c' = { c with invocation := { c.invocation with arguments := args' } }

theorem Call.Swaps.readdressed {depth : Nat} {inv : Invocation}
    {args : Arguments} {c c' : Call}
    (h : c.Swaps depth inv { inv with arguments := args } c') :
    c.Readdressed depth inv.name inv.arguments args c' := by
  obtain ⟨hd, rfl, rfl⟩ := h
  exact ⟨hd, rfl, rfl, rfl⟩

/-- A session in which a decoration is bound to its name. -/
def Session.Decorates (s : Session) (k : Standard.Decoration) : Prop :=
  ∃ h, s.registry.resolve? k.name = some h ∧ h.program = k.program

open Standard (Decoration Untitled)

namespace Session

variable {s : Session} {k : Decoration} {inv : Invocation} {body : Text}
  {args : Arguments} {depth : Nat} {cleared now : Moment}
  {known : Option Moment}

/-! ## The call of the handler -/

/-- Handlers that finish at once with some fragments are entered alike. -/
theorem twins_enter {h : Handler} {o o' : Output} {fs fs' : List Fragment}
    (hp : h.program ⟨inv, depth, s.settings, s.metadata⟩ = .finish o)
    (ho : o.fragments = .ok fs)
    (hp' : h.program ⟨{ inv with arguments := args }, depth, s.settings,
      s.metadata⟩ = .finish o')
    (ho' : o'.fragments = .ok fs') (e e' : Expander)
    (cleared started entered : Moment) (known : Option Moment) :
    (s.enter h inv depth e cleared started entered known).Twins
      (Call.Swaps depth inv { inv with arguments := args })
      (fun xs ys => xs = fs ∧ ys = fs')
      (s.enter h { inv with arguments := args } depth e' cleared started
        entered known) := by
  have hfragments := Outcome.bind_eq_returned_iff.mpr ⟨o, rfl, ho⟩
  have hfragments' := Outcome.bind_eq_returned_iff.mpr ⟨o', rfl, ho'⟩
  unfold enter
  dsimp only
  rw [hp, hp']
  refine Run.Twins.inside ?_ (fun _ _ => ⟨rfl, rfl, rfl⟩) rfl
  refine (Run.Twins.now (Q := fun a b => a = o ∧ b = o')
    (.returned ⟨rfl, rfl⟩) entered).withOutcome ?_
  dsimp only [Program.run, Run.now]
  rw [hfragments, hfragments']
  exact .returned ⟨rfl, rfl⟩

/-- **The handler of a decoration puts the title into fragments that are not
expanded.** -/
theorem twins_invoke (hk : s.Decorates k) (hn : inv.name = k.name)
    (hbody : inv.body = some body) (e e' : Expander) :
    (s.invoke inv depth e cleared now known).Twins
      (Call.Swaps depth inv { inv with arguments := args })
      (fun xs ys => xs = k.framed inv.arguments body
        ∧ ys = k.framed args body)
      (s.invoke { inv with arguments := args } depth e' cleared now
        known) := by
  obtain ⟨h, hr, hp⟩ := hk
  obtain ⟨o, ho, hfs⟩ := k.exists_finish
    (v := ⟨inv, depth, s.settings, s.metadata⟩) hbody
  obtain ⟨o', ho', hfs'⟩ := k.exists_finish
    (v := ⟨{ inv with arguments := args }, depth, s.settings, s.metadata⟩)
    hbody
  rw [← hn] at hr
  unfold invoke
  dsimp only
  rw [hr]
  dsimp only
  have henter (entered : Moment) := twins_enter (hp ▸ ho) hfs (hp ▸ ho')
    hfs' e e' cleared now entered known
  cases hlimit : s.limit? h with
  | none =>
    rw [call_of_none hlimit, call_of_none hlimit]
    exact henter now
  | some time =>
    rw [call_of_some hlimit, call_of_some hlimit]
    exact (henter now.next).waitedFor now time (.failed _)

/-! ## The group -/

/-- The handler of a decoration as a member of a group. -/
theorem twins_member (hk : s.Decorates k) (hn : inv.name = k.name)
    (hbody : inv.body = some body) (expander : Invocation → Expander)
    (called start : Moment) (known : Option Moment) :
    (s.member depth expander called inv start known).Twins
      (Call.Swaps depth inv { inv with arguments := args })
      (fun xs ys => xs = k.framed inv.arguments body
        ∧ ys = k.framed args body)
      (s.member depth expander called { inv with arguments := args } start
        known) := by
  unfold member
  refine Run.Twins.behind (Run.Twins.behind ?_ start) called.next
  split
  · exact twins_invoke hk hn hbody _ _
  · split
    · exact .now_failed _ _
    · exact twins_invoke hk hn hbody _ _

/-- **The other handlers of the group** run as before. -/
theorem twins_invokeAll (hk : s.Decorates k) (hn : inv.name = k.name)
    (hbody : inv.body = some body) (expander : Invocation → Expander)
    (before after : List Invocation) :
    (s.invokeAll (before ++ inv :: after) depth expander now known).Twins
      (Call.Swaps depth inv { inv with arguments := args })
      (AtPlace (fun xs ys => xs = k.framed inv.arguments body
        ∧ ys = k.framed args body) before.length)
      (s.invokeAll (before ++ { inv with arguments := args } :: after) depth
        expander now known) := by
  have hgroup (cancelled : Failure) :
      (Group.Gathering.run ⟨s.settings.maxConcurrency, s.cancellable, now,
        cancelled, known, Group.members s.settings.maxConcurrency now.next
          known [] ((before ++ inv :: after).map
            (s.member depth expander now))⟩).Twins
        (Call.Swaps depth inv { inv with arguments := args })
        (AtPlace (fun xs ys => xs = k.framed inv.arguments body
          ∧ ys = k.framed args body) before.length)
        (Group.Gathering.run ⟨s.settings.maxConcurrency, s.cancellable, now,
          cancelled, known, Group.members s.settings.maxConcurrency now.next
            known [] ((before ++ { inv with arguments := args } :: after).map
              (s.member depth expander now))⟩) := by
    rw [List.map_append, List.map_append, List.map_cons, List.map_cons]
    obtain ⟨front, r, r', back, hlen, hr, hr', htwins⟩ :=
      Group.exists_members_twins (twins_member hk hn hbody expander now)
        s.settings.maxConcurrency now.next
        (before.map (s.member depth expander now))
        (after.map (s.member depth expander now)) known []
    rw [List.length_map] at hlen
    rw [hr, hr', ← hlen]
    exact Group.Gathering.twins_run htwins rfl
  cases before with
  | nil =>
    unfold invokeAll
    rw [List.nil_append, List.nil_append] at *
    dsimp only
    split
    · exact .now_failed _ _
    · exact hgroup _
  | cons first before =>
    unfold invokeAll
    dsimp only [List.cons_append]
    split
    · exact .now_failed _ _
    · exact hgroup _

/-! ## Putting the text together -/

theorem parts_append {front : List Segment}
    {produced : List (List Fragment)}
    (h : produced.length = (Segment.invocations front).length)
    (back : List Segment) (more : List (List Fragment)) :
    parts (front ++ back) (produced ++ more)
      = parts front produced ++ parts back more := by
  induction front generalizing produced with
  | nil =>
    obtain rfl := List.length_eq_zero_iff.mp h
    rfl
  | cons x front ih =>
    cases x with
    | literal t n =>
      rw [List.cons_append, parts, parts, ih h, List.cons_append]
    | invocation inv =>
      cases produced with
      | nil =>
        exact absurd h (by simp [Segment.invocations, Segment.invocation?])
      | cons fs produced =>
        rw [List.cons_append, List.cons_append, parts, parts,
          ih (Nat.succ.inj h), List.append_assoc]

/-- **Texts with a decoration** among them: in front of what its body comes
to and behind it, they are for some arguments or for others. -/
def Framed (k : Decoration) (args args' : Arguments)
    (xs ys : List (Option Text)) : Prop :=
  ∃ front inner back,
    xs = front ++ some (k.front args) :: some inner :: some (k.back args)
      :: back
    ∧ ys = front ++ some (k.front args') :: some inner
      :: some (k.back args') :: back

/-- **What stands around a body does not matter** to the parts that are
expanded. -/
theorem twins_splice {expander : Invocation → Expander}
    (he : expander { inv with arguments := args } = expander inv)
    (front back : List Part) :
    (splice expander (front ++ ((k.framed inv.arguments body).map (partOf inv)
        ++ back)) now known).Twins (fun _ _ => False)
      (Framed k inv.arguments args)
      (splice expander (front ++ ((k.framed args body).map
        (partOf { inv with arguments := args }) ++ back)) now known) := by
  induction front generalizing now known with
  | nil =>
    -- the body is expanded alike, and behind it nothing differs
    rw [List.nil_append, List.nil_append]
    unfold Decoration.framed
    simp only [List.map_cons, List.map_nil, partOf, List.cons_append,
      List.nil_append, splice, if_true, Bool.false_eq_true, if_false]
    rw [he]
    refine Run.Twins.mapResult (Q := fun xs ys => ∃ inner back,
      xs = some inner :: some (k.back inv.arguments) :: back
        ∧ ys = some inner :: some (k.back args) :: back) ?_ ?_
    · refine (Run.Twins.of_eq (fun _ => rfl) _).andThen ?_
      rintro inner _ rfl now known
      refine Run.Twins.mapResult (Q := fun xs ys => ∃ back,
        xs = some (k.back inv.arguments) :: back
          ∧ ys = some (k.back args) :: back) ?_ ?_
      · refine (Run.Twins.of_eq (fun _ => rfl) _).mapResult ?_
        rintro back _ rfl
        exact .inr ⟨_, _, rfl, rfl, back, rfl, rfl⟩
      · rintro _ _ ⟨back, rfl, rfl⟩
        exact .inr ⟨_, _, rfl, rfl, inner, back, rfl, rfl⟩
    · rintro _ _ ⟨inner, back, rfl, rfl⟩
      exact .inr ⟨_, _, rfl, rfl, [], inner, back, rfl, rfl⟩
  | cons p front ih =>
    have hcons (t : Option Text) {xs ys : List (Option Text)}
        (h : Framed k inv.arguments args xs ys) :
        Framed k inv.arguments args (t :: xs) (t :: ys) := by
      obtain ⟨front, inner, back, rfl, rfl⟩ := h
      exact ⟨t :: front, inner, back, rfl, rfl⟩
    cases p with
    | ready t =>
      rw [List.cons_append, List.cons_append, splice, splice]
      exact ih.mapResult fun xs ys h => .inr ⟨_, _, rfl, rfl, hcons t h⟩
    | pending other t =>
      rw [List.cons_append, List.cons_append, splice, splice]
      refine (Run.Twins.of_eq (fun _ => rfl) _).andThen ?_
      rintro t _ rfl now known
      exact ih.mapResult fun xs ys h =>
        .inr ⟨_, _, rfl, rfl, hcons (some t) h⟩

/-- **The title in a text that is put together.** -/
def Titled (k : Decoration) (t t' : Text) (u u' : Text) : Prop :=
  ∃ front inner back, u = front ++ k.titled inner t.escape ++ back
    ∧ u' = front ++ k.titled inner t'.escape ++ back

/-- What is missing among texts is missing wherever they differ otherwise. -/
theorem concat_framed_cases {args' : Arguments} {t t' : Text}
    {xs ys : List (Option Text)} (h : Framed k args args' xs ys)
    (ht : args.get k.key = some t) (hne : t ≠ [])
    (ht' : args'.get k.key = some t') (hne' : t' ≠ []) :
    (∃ e, concat xs = .error e ∧ concat ys = .error e)
      ∨ ∃ u u', concat xs = .ok u ∧ concat ys = .ok u'
        ∧ Titled k t t' u u' := by
  obtain ⟨front, inner, back, rfl, rfl⟩ := h
  have hmissing : (front ++ some (k.front args) :: some inner
        :: some (k.back args) :: back).findIdx? Option.isNone
      = (front ++ some (k.front args') :: some inner
        :: some (k.back args') :: back).findIdx? Option.isNone := by
    simp only [List.findIdx?_append, List.findIdx?_cons, Option.isNone_some]
  unfold concat
  rw [hmissing]
  cases (front ++ some (k.front args') :: some inner
      :: some (k.back args') :: back).findIdx? Option.isNone with
  | some i => exact .inl ⟨_, rfl, rfl⟩
  | none =>
    refine .inr ⟨_, _, rfl, rfl, (front.filterMap id).flatten, inner,
      (back.filterMap id).flatten, ?_, ?_⟩
    · rw [← k.around_eq_titled ht hne]
      simp
    · rw [← k.around_eq_titled ht' hne']
      simp

/-! ## The expansion -/

/-- **Segments that differ in the arguments of a decoration** are expanded
alike, but for the title. -/
theorem twins_expandSegments {expander : Invocation → Expander}
    {t t' : Text} (hk : s.Decorates k) (hn : inv.name = k.name)
    (hbody : inv.body = some body)
    (ht : inv.arguments.get k.key = some t) (hne : t ≠ [])
    (ht' : args.get k.key = some t') (hne' : t' ≠ [])
    (he : expander { inv with arguments := args } = expander inv)
    (before after : List Segment) :
    (s.expandSegments expander depth (before ++ .invocation inv :: after) now
      known).Twins (Call.Swaps depth inv { inv with arguments := args })
      (Titled k t t')
      (s.expandSegments expander depth
        (before ++ .invocation { inv with arguments := args } :: after) now
        known) := by
  have hinvs (inv : Invocation) :
      Segment.invocations (before ++ .invocation inv :: after)
        = Segment.invocations before ++ inv :: Segment.invocations after := by
    simp [Segment.invocations, Segment.invocation?]
  unfold expandSegments
  dsimp only
  rw [hinvs, hinvs]
  refine (twins_invokeAll hk hn hbody _ _ _).andThen ?_
  rintro _ _ ⟨front, _, _, back, rfl, rfl, hlen, rfl, rfl⟩ now known
  rw [parts_append hlen, parts_append hlen, parts, parts]
  exact (twins_splice he _ _).mapResult fun xs ys h =>
    concat_framed_cases h ht hne ht' hne'

/-- **A text with a title is expanded as with another one**, wherever it
stands. -/
theorem twins_expandFrom (hs : s.settings.Valid)
    (b : Untitled s.settings.delimiters) (hk : s.Decorates b.decoration)
    {q q' : Char} {t t' : Text} (hq : Tag.isQuote q = true) (hqt : q ∉ t)
    (hq' : Tag.isQuote q' = true) (hqt' : q' ∉ t') (ht : t ≠ [])
    (hlen : t'.length = t.length) (levels depth : Nat)
    (trigger : Option Text) (origin : Int) (now : Moment)
    (known : Option Moment) :
    (s.expandFrom levels depth trigger origin (some (b.written q t)) now
      known).Twins
      (Call.Readdressed depth b.decoration.name (b.arguments t)
        (b.arguments t'))
      (Titled b.decoration t t')
      (s.expandFrom levels depth trigger origin (some (b.written q' t')) now
        known) := by
  have hne' : t' ≠ [] := by
    rintro rfl
    exact ht (List.length_eq_zero_iff.mp hlen.symm)
  obtain ⟨segments, hfront⟩ := b.readable
  cases levels with
  | zero =>
    unfold expandFrom
    split
    · exact .now_failed _ _
    · dsimp only
      rw [b.has_written, b.has_written]
      exact ⟨rfl, rfl, .same _, .failed _, fun _ => .refl _⟩
  | succ levels =>
    unfold expandFrom
    split
    · exact .now_failed _ _
    · dsimp only
      rw [b.has_written, b.has_written]
      rcases Segment.parse_framed_cases b.tag hs.closing hfront b.apart hq hqt
        hq' hqt' hlen b.ends b.rest origin with
        ⟨e, he, he'⟩ | ⟨before, inv, after, hn, ha, ⟨body, hbody⟩, he, he'⟩
      · unfold Untitled.written
        rw [he, he']
        exact .now_failed _ _
      · unfold Untitled.written
        rw [he, he']
        have hname : inv.name = b.decoration.name := hn.trans b.name_eq
        have ht' : inv.arguments.get b.decoration.key = some t :=
          ha ▸ b.get_arguments t
        rw [← hname, show b.arguments t = inv.arguments from ha.symm]
        exact (twins_expandSegments hk hname hbody ht' ht
          (b.get_arguments t') hne' rfl before after).mono
            fun _ _ => Call.Swaps.readdressed

/-- **Titles and blurbs are inert.** Take checked settings, a registry in
which a decoration is bound to its name, and a block of the decoration in a
text: its opening tag is written in any way, behind anything that can be read
and in front of anything at all. Write a title (or blurb) that is not empty
between quotes that it does not hold.

Escaping it is replacing the five characters one after the other. What is
escaped holds no angle bracket and no quote, each ampersand in it begins one
of the five references, and the title is what they stand for.

With any other title of that length, between the same quotes or the others,
the expansion ends at the same moment and asks for the same cancellation; the
handlers are called for the same, but for the arguments that one call of the
decoration's handler is given; and it fails in the same way, or it returns the
same text with the other escaped title in the title's place. -/
theorem expand_inert (hs : s.settings.Valid)
    (b : Untitled s.settings.delimiters) (hk : s.Decorates b.decoration)
    {q q' : Char} {t t' : Text} (hq : Tag.isQuote q = true) (hqt : q ∉ t)
    (hq' : Tag.isQuote q' = true) (hqt' : q' ∉ t') (ht : t ≠ [])
    (hlen : t'.length = t.length) (now : Moment) (cancels : Option Moment) :
    t.escape = Text.references.foldl (fun u r => Text.replace r.1 r.2 u) t
      ∧ t.escape.Inert ∧ t.escape.unescape = t
      ∧ (s.expand (b.written q t) now cancels).Twins
        (Call.Readdressed 0 b.decoration.name (b.arguments t)
          (b.arguments t'))
        (Titled b.decoration t t')
        (s.expand (b.written q' t') now cancels) := by
  refine ⟨Text.escape_eq_replace t, Text.inert_escape t,
    Text.unescape_escape t, ?_⟩
  have hempty (q : Char) (t : Text) : (b.written q t).isEmpty = false := by
    rw [← Bool.not_eq_true, List.isEmpty_iff]
    intro h
    have hhas := b.has_written q t
    rw [h, Text.has_nil hs.opening.1] at hhas
    simp at hhas
  unfold expand
  rw [hempty, hempty]
  exact twins_expandFrom hs b hk hq hqt hq' hqt' ht hlen _ 0 none 0 now cancels

/-- A title that is a shortcode, and one with delimiters and a quote. -/
theorem expand_inert_shortcode :
    let t := "<%x/%>".toList
    let t' := "%>\"<%/".toList
    let r := Standard.brief.expand
      "<%info title=\"<%x/%>\"%>a<%raw%><%y/%><%/raw%><%/info%>b".toList
      ⟨0, 0⟩ none
    let r' := Standard.brief.expand
      "<%info title='%>\"<%/'%>a<%raw%><%y/%><%/raw%><%/info%>b".toList
      ⟨0, 0⟩ none
    Standard.brief.Standard ∧ t ≠ [] ∧ t'.length = t.length
      ∧ Text.escape t = "&lt;%x/%&gt;".toList
      ∧ Text.escape t' = "%&gt;&quot;&lt;%/".toList
      ∧ r.Twins (Call.Readdressed 0 "info".toList [⟨"title".toList, some t⟩]
        [⟨"title".toList, some t'⟩]) (Titled .info t t') r'
      ∧ ∃ u u', r.outcome = .returned u ∧ r'.outcome = .returned u'
        ∧ Titled .info t t' u u' := by
  let b : Untitled Standard.brief.settings.delimiters :=
    .write Delimiters.plain_default .info [] [] (by simp) (by simp) (by simp)
      "a<%raw%><%y/%><%/raw%><%/info%>b".toList
  have htwins := (expand_inert Standard.standard_brief.valid b
    (Standard.exists_resolve?_decoration Standard.standard_brief.bindings
      .info)
    (show Tag.isQuote '"' = true by decide)
    (show '"' ∉ "<%x/%>".toList by decide)
    (show Tag.isQuote '\'' = true by decide)
    (show '\'' ∉ "%>\"<%/".toList by decide)
    (by decide) (by decide) ⟨0, 0⟩ none).2.2.2
  have hwritten : b.written '"' "<%x/%>".toList
      = "<%info title=\"<%x/%>\"%>a<%raw%><%y/%><%/raw%><%/info%>b".toList :=
    by decide +kernel
  have hwritten' : b.written '\'' "%>\"<%/".toList
      = "<%info title='%>\"<%/'%>a<%raw%><%y/%><%/raw%><%/info%>b".toList :=
    by decide +kernel
  rw [hwritten, hwritten'] at htwins
  have hreturned : (Standard.brief.expand
      "<%info title=\"<%x/%>\"%>a<%raw%><%y/%><%/raw%><%/info%>b".toList
      ⟨0, 0⟩ none).outcome.result?.isSome = true := by decide +kernel
  obtain ⟨u, hu⟩ := Option.isSome_iff_exists.mp hreturned
  have houtcome := htwins.outcome
  rw [Outcome.result?_eq_some_iff.mp hu] at houtcome
  refine ⟨Standard.standard_brief, by decide, by decide, by decide, by decide,
    htwins, u, ?_⟩
  generalize (Standard.brief.expand
    "<%info title='%>\"<%/'%>a<%raw%><%y/%><%/raw%><%/info%>b".toList
    ⟨0, 0⟩ none).outcome = o' at houtcome ⊢
  cases houtcome with
  | @returned _ u' h =>
    exact ⟨u', Outcome.result?_eq_some_iff.mp hu, rfl, h⟩

end Session

end Shortcode
