import Shortcode.Proofs.Histories
import Shortcode.Proofs.Quoting

/-!
# Names that can be used

What a name is, is judged in three places, each in its own way. The registry
asks whether a whole text is a name. An opening or a self-closing tag takes
the longest name it starts with, and then looks at the character behind it.
A closing tag strips the white space around its text, and asks whether what
is left is a name.

They agree (`Registry.tfae_accepts`): a handler that is registered can be
called, by a self-closing tag and by a block, and what can be written in a
tag as a name can be registered. The half that needs an argument is that a
tag in which another text stands than a name is read as one of another name,
if at all: it may end too early, hold a quote, or start a closing tag. All
of that follows from one fact, that whatever is read has a name
(`Segment.isName_of_mem`).
-/

namespace Shortcode

/-! ## What is read has a name -/

theorem Tag.Form.isName {inside name args : Text} {form : TagForm}
    (h : Form inside form name args) : IsName name := by
  cases h with
  | closing _ _ hn => exact hn
  | selfClosing _ hn => exact hn
  | opening _ hn => exact hn

theorem TagsFrom.isName {d : Delimiters} {n : Nat} {text : Text}
    {tags : List PlacedTag} (h : TagsFrom d n text tags) :
    ∀ t ∈ tags, IsName t.name := by
  induction h with
  | done => simp
  | tag _ _ hform _ _ _ ih =>
    exact List.forall_mem_cons.mpr ⟨hform.isName, ih⟩

theorem Production.Reads.isName {text : Text} {origin : Int}
    {ps : List Production} {invs : List Invocation}
    (h : List.Forall₂ (Production.Reads text origin) ps invs)
    (hps : ∀ p ∈ ps, IsName p.opened.name) :
    ∀ inv ∈ invs, IsName inv.name := by
  induction h with
  | nil => simp
  | cons hread _ ih =>
    obtain ⟨hp, hps⟩ := List.forall_mem_cons.mp hps
    refine List.forall_mem_cons.mpr ⟨?_, ih hps⟩
    cases hread with
    | single => exact hp
    | block => exact hp

namespace Segment

variable {d : Delimiters} {text : Text} {origin : Int}
  {segments : List Segment}

/-- **Whatever is read has a name.** -/
theorem isName_of_mem (h : parse d text origin = .ok segments)
    {inv : Invocation} (hinv : inv ∈ invocations segments) :
    IsName inv.name := by
  obtain ⟨hnone, ps, invs, hd, hr, rfl⟩ := parse_eq_ok_iff_derived.mp h
  rw [invocations_around] at hinv
  have htags := (tagsFrom_iff (n := 0).mpr ⟨hnone, rfl⟩).isName
  exact Production.Reads.isName hr
    (fun p hp => htags _ (hd.opened_mem p hp).1) inv hinv

end Segment

/-! ## What has a name is read -/

section

variable {d : Delimiters} {name : Text}

/-- A self-closing tag that holds a name only, alone in a text. -/
def Text.single (d : Delimiters) (name : Text) : Text :=
  d.opening ++ (name ++ ['/']) ++ d.closing

/-- A block with nothing in it, alone in a text. -/
def Text.emptyBlock (d : Delimiters) (name : Text) : Text :=
  d.opening ++ name ++ d.closing ++ (d.opening ++ ('/' :: name) ++ d.closing)

namespace Segment

/-- **A name in a self-closing tag** is read as its invocation. -/
theorem parse_single (hd : d.Plain) (hu : Text.Unbordered d.opening)
    (hn : IsName name) (origin : Int) :
    parse d (.single d name) origin
      = .ok [.invocation ⟨name, [], none, 0, (Text.single d name).length,
          origin⟩] := by
  have hnil : Tag.Parted [] := by simp [Tag.Parted]
  have hform : Tag.Form (name ++ ['/']) .selfClosing name [] :=
    Tag.Form.selfClosing Text.isBlank_nil hn hnil Text.isBlank_nil
  obtain ⟨t, ht, hf, rfl, ha⟩ := Tag.exists_of_form hd
    (fun hs => (Tag.passes_of_isKeyRest hs hn.isKeyRest).append
      (.plain (by decide) hs.slash.symm .nil)) hform
  have hscan : Lexeme.scan d
      ([] ++ (d.opening ++ (t.name ++ ['/'] ++ (d.closing ++ [])))) = _ :=
    Lexeme.scan_append_tag hu
      (by rw [Lexeme.scan_plain (Text.has_nil hd.opening)]) ht
  rw [Lexeme.scan_plain (Text.has_nil hd.opening)] at hscan
  have htext : Text.single d t.name
      = [] ++ (d.opening ++ (t.name ++ ['/'] ++ (d.closing ++ []))) := by
    simp [Text.single]
  have hargs : Arguments.parse t.argumentText = .ok [] := by
    rw [ha]
    exact Arguments.parse_written .nil (by simp) Text.isBlank_nil
  have hread : assemble origin none none 0 [.tag t]
      = .ok [.invocation ⟨t.name, [], none, 0, 0 + t.source.length, origin⟩] :=
    (assemble_selfClosing_iff hf).mpr ⟨[], [], hargs, rfl, rfl⟩
  unfold parse
  rw [htext, hscan, ← htext]
  rw [ht.source, Nat.zero_add] at hread
  exact hread

/-- **A name in the tags of a block** is read as its invocation, of the empty
body between them. -/
theorem exists_parse_emptyBlock (hd : d.Plain)
    (hu : Text.Unbordered d.opening) (hn : IsName name) (origin : Int) :
    ∃ inv, parse d (.emptyBlock d name) origin = .ok [.invocation inv]
      ∧ inv.name = name ∧ inv.arguments = [] ∧ inv.body = some [] := by
  have hnil := Text.has_nil hd.opening
  let b := Block.write hd name hn [] (by simp) [] [] hnil hnil
  have hbalanced : Text.Balanced d [] :=
    ⟨[], [], .done (Text.cut?_none (Text.has_eq_false_iff.mp hnil)), .nil⟩
  obtain ⟨inv, stop, hname, hargs, hbody, hparse⟩ :=
    b.exists_parse_written hu hbalanced origin
  have htext : b.written [] = Text.emptyBlock d name := by
    simp [b, Block.written, Block.write, Text.emptyBlock, Tag.insideOpened,
      Tag.insideClosed, Arguments.write]
  rw [htext] at hparse
  exact ⟨inv, hparse, hname, hargs, hbody⟩

end Segment

end

/-! ## Names and handlers -/

namespace Registry

variable {r : Registry} {candidate : Candidate}

/-- A registry takes a handler under a name. -/
def Accepts (r : Registry) (name : Text) (candidate : Candidate) : Prop :=
  ∃ r' h, r.register (.text name) candidate = .ok (r', h)

/-- **A registry that is not frozen** takes anything that can be called under
every name that is not bound yet, and under nothing else. -/
theorem accepts_iff {name : Text} (hr : r.frozen = false)
    (hc : candidate.handler?.isSome = true)
    (hfresh : r.contains name = false) :
    r.Accepts name candidate ↔ IsName name := by
  have hfaults : r.faults (.text name) candidate false
      = (nameFault? (.text name)).toList := by
    cases hcandidate : candidate.handler? with
    | none => simp [hcandidate] at hc
    | some h =>
      cases hf : nameFault? (.text name) <;>
        simp [faults, frozenFault?, duplicateFault?, handlerFault?, hr,
          hfresh, hcandidate, hf, List.reduceOption]
  rcases r.register_cases (.text name) candidate false with
    ⟨f, herror, hfirst⟩ | ⟨n, h, hok, -, hn, -⟩
  · have hnot : nameOf? (.text name) = none := by
      rw [hfaults] at hfirst
      by_contra hsome
      simp [nameFault?, Option.isNone_iff_eq_none, hsome] at hfirst
    constructor
    · rintro ⟨r', h, hok⟩
      simp [herror] at hok
    · intro hn
      rw [nameOf?_eq_some_iff.mpr ⟨rfl, hn⟩] at hnot
      simp at hnot
  · obtain ⟨hname, hisName⟩ := nameOf?_eq_some_iff.mp hn
    obtain rfl := Value.text.inj hname
    exact ⟨fun _ => hisName, fun _ => ⟨_, _, hok⟩⟩

/-- **Every name that can be registered can be used, and no other text.** A
text is taken by the registry as a name exactly when a self-closing tag
around it is read as one invocation of that name, with no arguments, and
exactly when the tags of a block are, with an empty body. And whatever name
is read, in any text between any delimiters, the registry takes it. -/
theorem tfae_accepts (hr : r.frozen = false)
    (hc : candidate.handler?.isSome = true) :
    (∀ name, r.contains name = false →
      [ r.Accepts name candidate,
        ∃ segments inv, Segment.parse {} (.single {} name) = .ok segments
          ∧ Segment.invocations segments = [inv] ∧ inv.name = name
          ∧ inv.arguments = [] ∧ inv.block = none,
        Segment.parse {} (.single {} name)
          = .ok [.invocation ⟨name, [], none, 0,
              (Text.single {} name).length, 0⟩],
        ∃ segments inv, Segment.parse {} (.emptyBlock {} name) = .ok segments
          ∧ Segment.invocations segments = [inv] ∧ inv.name = name
          ∧ inv.body = some [],
        ∃ inv, Segment.parse {} (.emptyBlock {} name) = .ok [.invocation inv]
          ∧ inv.name = name ∧ inv.arguments = []
          ∧ inv.body = some [] ].TFAE)
      ∧ ∀ d text origin segments inv,
          Segment.parse d text origin = .ok segments →
          inv ∈ Segment.invocations segments →
          r.contains inv.name = false → r.Accepts inv.name candidate := by
  constructor
  · intro name hfresh
    have hread {text : Text} {segments : List Segment} {inv : Invocation}
        (h : Segment.parse {} text = .ok segments)
        (hinv : Segment.invocations segments = [inv]) (hn : inv.name = name) :
        IsName name :=
      hn ▸ Segment.isName_of_mem h (hinv ▸ List.mem_singleton.mpr rfl)
    rw [accepts_iff hr hc hfresh]
    tfae_have 1 → 3 := fun hn => Segment.parse_single
      Delimiters.plain_default Delimiters.unbordered_default hn 0
    tfae_have 3 → 2 := fun h => ⟨_, _, h, rfl, rfl, rfl, rfl⟩
    tfae_have 2 → 1 := fun ⟨_, _, h, hinv, hn, _⟩ => hread h hinv hn
    tfae_have 1 → 5 := fun hn => Segment.exists_parse_emptyBlock
      Delimiters.plain_default Delimiters.unbordered_default hn 0
    tfae_have 5 → 4 := fun ⟨inv, h, hn, _, hbody⟩ =>
      ⟨_, inv, h, rfl, hn, hbody⟩
    tfae_have 4 → 1 := fun ⟨_, _, h, hinv, hn, _⟩ => hread h hinv hn
    tfae_finish
  · intro d text origin segments inv h hinv hfresh
    exact (accepts_iff hr hc hfresh).mpr (Segment.isName_of_mem h hinv)

/-- A name that can be registered and used, also between other
delimiters. -/
theorem tfae_accepts_dashed :
    let note : Candidate := .function "f".toList false fun _ =>
      .finish (.text [])
    let r : Registry := {}
    let d : Delimiters := ⟨"[[".toList, "]]".toList⟩
    (r.frozen = false ∧ note.handler?.isSome = true)
      ∧ (r.contains "b-1".toList = false ∧ r.Accepts "b-1".toList note)
      ∧ Segment.parse {} "<%b-1/%>".toList
          = .ok [.invocation ⟨"b-1".toList, [], none, 0, 8, 0⟩]
      ∧ ¬r.Accepts "a/%>b".toList note
      ∧ Segment.parse d "x[[ b-1 ]][[/b-1]]".toList
          = .ok [.literal ['x'] 0,
              .invocation ⟨"b-1".toList, [], some ⟨[], 10⟩, 1, 18, 0⟩]
      ∧ r.Accepts "b-1".toList note := by
  intro note r d
  obtain ⟨hname, hread⟩ := tfae_accepts (show r.frozen = false from rfl)
    (show note.handler?.isSome = true from rfl)
  have haccepts : r.Accepts "b-1".toList note := ⟨_, _, rfl⟩
  have hsingle := ((hname "b-1".toList rfl).out 0 2).mp haccepts
  have hblock : Segment.parse d "x[[ b-1 ]][[/b-1]]".toList
      = .ok [.literal ['x'] 0,
          .invocation ⟨"b-1".toList, [], some ⟨[], 10⟩, 1, 18, 0⟩] :=
    Segment.parse_eq_ok_of_toOption (by decide +kernel)
  refine ⟨⟨rfl, rfl⟩, ⟨rfl, haccepts⟩, hsingle, fun h => ?_, hblock,
    hread _ _ _ _ _ hblock List.mem_cons_self rfl⟩
  have hearly := ((hname "a/%>b".toList rfl).out 0 2).mp h
  exact absurd (congrArg Except.toOption hearly) (by decide +kernel)

end Registry

end Shortcode
