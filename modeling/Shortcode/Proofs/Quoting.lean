import Shortcode.Proofs.Isolation
import Shortcode.Proofs.RoundTrip
import Shortcode.Proofs.Seams
import Shortcode.Proofs.Spelling
import Shortcode.Proofs.Wrapping

/-!
# Texts that are quoted

The shortcode `raw` gives its body back as it is written, and what it gives
back is not expanded again. So it quotes a text: put between its tags, the
text comes out unchanged, wherever the block stands
(`Session.expand_quoted`). The text may hold anything that looks like a
shortcode, with arguments that cannot be read and names that nobody knows;
all it must not do is to end the block itself. That is a matter of its tags
alone, which have to be well formed and properly bracketed
(`Text.Balanced`).

A block of tags around a balanced text is read as one invocation, with the
text as its body (`Block.exists_parse_written`), and is balanced again
(`Block.balanced_written`). Therefore blocks can stand around each other in
any number: each level is read when the level around it is expanded, and
finds the text of the next one as its body. What is read at a level is one
invocation; so it is told by `Session.success` what all levels come to, and
which handlers they call.
-/

namespace Shortcode

/-! ## Tags behind other text -/

namespace Text

/-- **A mark that does not overlap with itself**: put behind a text, it
occurs where it stands and nowhere over the seam. -/
def Unbordered (mark : Text) : Prop :=
  ∀ front behind, Apart mark front (mark ++ behind)

/-- Such is a mark whose first character is not among the others. -/
theorem unbordered_cons {c : Char} {rest : Text} (h : c ∉ rest) :
    Unbordered (c :: rest) := by
  intro front behind u v he
  by_contra hno
  have hlen : (c :: rest).length = rest.length + 1 := rfl
  obtain ⟨k, hk⟩ : ∃ k, front.length = u.length + (k + 1) :=
    ⟨front.length - u.length - 1, by omega⟩
  -- the character behind the seam is the first one of the mark
  have hc : (front ++ (c :: rest ++ behind))[front.length]? = some c := by
    simp
  rw [he, hk, List.append_assoc, List.getElem?_append_right (by omega),
    Nat.add_sub_cancel_left, List.cons_append, List.getElem?_cons_succ,
    List.getElem?_append_left (by omega)] at hc
  exact h (List.mem_of_getElem? hc)

end Text

theorem Delimiters.unbordered_default :
    Text.Unbordered ({} : Delimiters).opening := by
  have h : '<' ∉ ['%'] := by decide
  exact Text.unbordered_cons h

namespace Lexeme

variable {d : Delimiters} {a : Text}

theorem scan_plain (h : Text.has d.opening a = false) :
    scan d a = ⟨literals a, none⟩ := by
  rw [scan_of_cut?_eq_none (Text.has_eq_false_iff.mp h), consLiteral_eq,
    prepend, List.append_nil]

/-- **A tag behind a text** that is scanned to its end is the next piece. -/
theorem scan_append_tag {inside behind : Text} {t : Tag}
    (hu : Text.Unbordered d.opening) (ha : (scan d a).fault = none)
    (ht : t.StandsFor d inside) :
    scan d (a ++ (d.opening ++ (inside ++ (d.closing ++ behind))))
      = prepend ((scan d a).lexemes ++ [.tag t]) (scan d behind) := by
  obtain ⟨front, rest, -, hrest, hscan⟩ := exists_scan_append d a
  have halone := hscan []
  rw [List.append_nil, List.append_nil] at halone
  have hnone : Text.cut? d.opening rest = none :=
    hrest.cut?_eq_none (by rwa [halone] at ha)
  have hcut := (hu rest (inside ++ (d.closing ++ behind))).cut?_append_mark
    hnone
  rw [hscan, scan_of_read hcut (ht.read behind), halone,
    scan_of_cut?_eq_none hnone, consLiteral_eq, consLiteral_eq]
  simp [prepend]

theorem placed_literals (n : Nat) (t : Text) : placed n (literals t) = [] := by
  rw [literals, placed_consLiteral]
  rfl

theorem size_literals (t : Text) : size (literals t) = t.length := by
  rw [size, literals, sources_consLiteral]
  simp

end Lexeme

/-! ## Balanced texts -/

/-- **A balanced text**: its tags, from left to right, are well formed and
properly bracketed. Nothing is asked of their arguments and names. -/
def Text.Balanced (d : Delimiters) (t : Text) : Prop :=
  ∃ tags productions, TagsFrom d 0 t tags ∧ Derives tags productions

/-- A text is balanced if it is scanned to its end and its tags derive,
wherever it stands. -/
theorem Text.balanced_iff {d : Delimiters} {t : Text} :
    Balanced d t ↔ (Lexeme.scan d t).fault = none
      ∧ ∀ n, ∃ ps, Derives (Lexeme.placed n (Lexeme.scan d t).lexemes) ps := by
  constructor
  · rintro ⟨tags, ps, ht, hd⟩
    obtain ⟨hf, rfl⟩ := tagsFrom_iff.mp ht
    exact ⟨hf, Lexeme.derives_placed hd⟩
  · rintro ⟨hf, hd⟩
    obtain ⟨ps, hps⟩ := hd 0
    exact ⟨_, ps, tagsFrom_iff.mpr ⟨hf, rfl⟩, hps⟩

/-! ## Blocks -/

/-- **A block with other text beside it**: the insides of its tags, which
can be written in any way, and the text in front of it and behind it. -/
structure Block (d : Delimiters) where
  name : Text
  arguments : Arguments
  before : Text
  opened : Text
  closed : Text
  behind : Text
  before_plain : Text.has d.opening before = false
  behind_plain : Text.has d.opening behind = false
  opens : Tag.EndsAfter d.closing opened [] ∧ ∃ argumentText,
    Tag.Form opened .opening name argumentText
      ∧ arguments.Spelled argumentText
  closes : Tag.EndsAfter d.closing closed []
    ∧ Tag.Form closed .closing name []

namespace Block

variable {d : Delimiters} {body : Text}

/-- The block around a text. -/
def written (b : Block d) (body : Text) : Text :=
  b.before ++ (d.opening ++ b.opened ++ d.closing) ++ body
    ++ (d.opening ++ b.closed ++ d.closing) ++ b.behind

/-- **The pieces of a block** around a text are those of the text, between
the tags of the block. -/
theorem exists_scan_written (b : Block d) (hu : Text.Unbordered d.opening)
    (hb : (Lexeme.scan d body).fault = none) :
    ∃ o c : Tag, o.form = .opening ∧ c.form = .closing ∧ o.name = b.name
      ∧ c.name = b.name ∧ Arguments.parse o.argumentText = .ok b.arguments
      ∧ Lexeme.scan d (b.written body)
        = ⟨Lexeme.literals b.before ++ (.tag o :: ((Lexeme.scan d body).lexemes
            ++ (.tag c :: Lexeme.literals b.behind))), none⟩ := by
  obtain ⟨hopens, a, hform, hargs⟩ := b.opens
  obtain ⟨o, ho, hof, hon, hoa⟩ := Tag.exists_standsFor hopens hform
  obtain ⟨c, hc, hcf, hcn, -⟩ := Tag.exists_standsFor b.closes.1 b.closes.2
  refine ⟨o, c, hof, hcf, hon, hcn, ?_, ?_⟩
  · rw [hoa]
    exact Arguments.parse_eq_ok_iff_spelled.mpr hargs
  · have hbefore := Lexeme.scan_plain b.before_plain
    unfold written
    simp only [List.append_assoc]
    rw [Lexeme.scan_append_tag hu (by rw [hbefore]) ho,
      Lexeme.scan_append_tag hu hb hc, hbefore,
      Lexeme.scan_plain b.behind_plain]
    simp [Lexeme.prepend]

/-- **A block around a balanced text is balanced.** -/
theorem balanced_written (b : Block d) (hu : Text.Unbordered d.opening)
    (hb : Text.Balanced d body) : Text.Balanced d (b.written body) := by
  obtain ⟨hf, hd⟩ := Text.balanced_iff.mp hb
  obtain ⟨o, c, hof, hcf, hon, hcn, -, hscan⟩ := b.exists_scan_written hu hf
  refine Text.balanced_iff.mpr ⟨by rw [hscan], fun n => ?_⟩
  obtain ⟨qs, hqs⟩ := hd (n + b.before.length + o.source.length)
  rw [hscan]
  dsimp only
  rw [Lexeme.placed_append, Lexeme.placed_literals, Lexeme.size_literals,
    List.nil_append, Lexeme.placed, Lexeme.placed_append, Lexeme.placed,
    Lexeme.placed_literals]
  exact ⟨_, .block hof hcf (hon.trans hcn.symm) hqs .nil⟩

/-- **A block around a balanced text is read as one invocation**, which has
the text as its body. -/
theorem exists_parse_written (b : Block d) (hu : Text.Unbordered d.opening)
    (hb : Text.Balanced d body) (origin : Int) :
    ∃ inv stop, inv.name = b.name ∧ inv.arguments = b.arguments
      ∧ inv.body = some body
      ∧ Segment.parse d (b.written body) origin
        = .ok (Segment.literals b.before 0
            ++ (.invocation inv :: Segment.literals b.behind stop)) := by
  obtain ⟨hf, hd⟩ := Text.balanced_iff.mp hb
  obtain ⟨o, c, hof, hcf, hon, hcn, hargs, hscan⟩ :=
    b.exists_scan_written hu hf
  have hsources : (Lexeme.scan d body).lexemes.flatMap Lexeme.source = body :=
    (Lexeme.sources_of_scan_eq (by rw [← hf])).symm
  have hbehind (n : Nat) :
      Segment.assemble origin none none n (Lexeme.literals b.behind)
        = .ok (Segment.literals b.behind n) := by
    have h := Segment.assemble_literals origin n none b.behind []
    rw [List.append_nil] at h
    rw [h]
    exact congrArg Except.ok (List.append_nil _)
  let start := 0 + b.before.length
  let bodyStart := start + o.source.length
  let stop := bodyStart + Lexeme.size (Lexeme.scan d body).lexemes
    + c.source.length
  have hblock := (Segment.assemble_opening_iff (n := start) hof).mpr
    ⟨b.arguments, _, c, _, _, hargs, rfl, hcf, hcn.trans hon.symm,
      hd bodyStart, hbehind stop, rfl⟩
  refine ⟨⟨o.name, b.arguments, some ⟨_, bodyStart⟩, start, stop, origin⟩,
    stop, hon, rfl, congrArg some hsources, ?_⟩
  unfold Segment.parse
  rw [hscan]
  dsimp only
  rw [Segment.assemble_literals, hblock]
  rfl

theorem has_written (b : Block d) (body : Text) :
    Text.has d.opening (b.written body) = true := by
  have hwritten : b.written body = b.before ++ d.opening ++ (b.opened
      ++ (d.closing ++ (body ++ (d.opening ++ (b.closed
        ++ (d.closing ++ b.behind)))))) := by
    simp [written]
  rw [hwritten]
  exact Text.has_append ..

/-- A block with its tags as arguments are usually written. -/
def write (hd : d.Plain) (name : Text) (hn : IsName name) (args : Arguments)
    (ha : ∀ a ∈ args, a.Writable) (before behind : Text)
    (hbefore : Text.has d.opening before = false)
    (hbehind : Text.has d.opening behind = false) : Block d where
  name := name
  arguments := args
  before := before
  opened := Tag.insideOpened name args.write
  closed := Tag.insideClosed name
  behind := behind
  before_plain := hbefore
  behind_plain := hbehind
  opens := by
    have hk : ∀ a ∈ args, IsKey a.key := fun a h => (ha a h).1
    have hw := Arguments.written_write ha
    refine ⟨Tag.endsAfter_of_passes hd fun hs =>
      (Tag.passes_of_isKeyRest hs hn.isKeyRest).append
        (Tag.passes_arguments hs hw hk), args.write,
      Tag.form_insideOpened hn hw hk, ?_⟩
    have hp := Arguments.parse_written hw hk Text.isBlank_nil
    rw [List.append_nil] at hp
    exact Arguments.parse_eq_ok_iff_spelled.mp hp
  closes :=
    ⟨Tag.endsAfter_of_passes hd fun hs => .plain (by decide) hs.slash.symm
      (Tag.passes_of_isKeyRest hs hn.isKeyRest), Tag.form_insideClosed hn⟩

end Block

/-! ## What a text with a block comes to -/

namespace Session

variable {s : Session} {depth : Nat}
  {expand : Invocation → Option Text → Success Text}

/-- Literal text in front of segments. -/
theorem joined_literals (t : Text) (n : Nat) (segments : List Segment) :
    Success.joined ((Segment.literals t n ++ segments).map
        (s.segmentSuccess depth expand))
      = (Success.joined (segments.map (s.segmentSuccess depth expand))).andThen
          fun u => .pure (t ++ u) := by
  unfold Segment.literals
  split
  · next ht =>
    rw [List.isEmpty_iff.mp ht]
    exact (Success.andThen_pure _).symm
  · exact Success.pure_andThen t _

theorem joined_literal (t : Text) (n : Nat) :
    Success.joined ((Segment.literals t n).map (s.segmentSuccess depth expand))
      = .pure t := by
  rw [← List.append_nil (Segment.literals t n), joined_literals]
  exact (Success.pure_andThen [] _).trans
    (congrArg Success.pure (List.append_nil t))

/-- **A text with a block** succeeds as the block's invocation does, with
the text beside it. -/
theorem exists_success_written {d : Delimiters} (hd : s.settings.delimiters = d)
    (hu : Text.Unbordered d.opening) (b : Block d) {body : Text}
    (hb : Text.Balanced d body) (levels depth : Nat) (origin : Int) :
    ∃ inv, inv.name = b.name ∧ inv.arguments = b.arguments
      ∧ inv.body = some body
      ∧ s.success (levels + 1) depth origin (some (b.written body))
        = (s.segmentSuccess depth (fun inv text =>
            s.success levels (depth + 1)
              ((text.map inv.originOf).getD inv.offset) text)
              (.invocation inv)).andThen fun t =>
            .pure (b.before ++ t ++ b.behind) := by
  obtain ⟨inv, stop, hn, ha, hbody, hparse⟩ :=
    b.exists_parse_written hu hb origin
  refine ⟨inv, hn, ha, hbody, ?_⟩
  rw [success, read, hd, if_pos (b.has_written body), hparse]
  show Success.joined (List.map _ _) = _
  rw [joined_literals, List.map_cons, Success.joined, joined_literal]
  simp only [Success.andThen_assoc, Success.pure_andThen, List.append_assoc]

/-- A content that is empty is no exception. -/
theorem documentSuccess_eq (hd : s.settings.delimiters.opening ≠ [])
    (text : Text) :
    s.documentSuccess text
      = s.success (s.settings.maxDepth + 1) 0 0 (some text) := by
  unfold documentSuccess
  split
  · next ht =>
    obtain rfl := List.isEmpty_iff.mp ht
    rw [success, read, if_neg (by simp [Text.has_nil hd])]
  · rfl

end Session

/-! ## Standard shortcodes around a text -/

namespace Standard

/-- **The shortcodes that put something around their body** and have the
body expanded. -/
inductive Decoration where
  | info
  | tick
  | dailyDrop
deriving DecidableEq, Repr, Inhabited

namespace Decoration

def name : Decoration → Text
  | .info => "info".toList
  | .tick => "tick".toList
  | .dailyDrop => "daily-drop".toList

def program : Decoration → View → Program
  | .info => callout infoIcon
  | .tick => callout tickIcon
  | .dailyDrop => Standard.dailyDrop

/-- What is put before the body. -/
def front (args : Arguments) : Decoration → Text
  | .info => calloutOpening infoIcon (args.get "title".toList)
  | .tick => calloutOpening tickIcon (args.get "title".toList)
  | .dailyDrop => dropOpening

/-- What is put behind the body. -/
def back (args : Arguments) : Decoration → Text
  | .info | .tick => calloutClosing
  | .dailyDrop => dropClosing args

/-- A decoration leaves its body to be expanded between what is put around
it. -/
theorem exists_finish (k : Decoration) {v : View} {body : Text}
    (hbody : v.invocation.body = some body) :
    ∃ o, k.program v = .finish o
      ∧ o.fragments = .ok
          [⟨some (k.front v.invocation.arguments), false⟩, ⟨some body, true⟩,
            ⟨some (k.back v.invocation.arguments), false⟩] := by
  have hcallout : calloutContent v.invocation = some body := by
    unfold calloutContent
    rw [hbody]
  cases k with
  | info | tick =>
    refine ⟨_, rfl, ?_⟩
    rw [hcallout]
    rfl
  | dailyDrop =>
    refine ⟨_, rfl, ?_⟩
    rw [hbody]
    rfl

end Decoration

section

variable {s : Session} (hs : s.registry.bindings = registry.bindings)
  {depth : Nat} {expand : Invocation → Option Text → Success Text}
  {inv : Invocation} {body : Text}

include hs

theorem exists_resolve?_decoration (k : Decoration) :
    ∃ h, s.registry.resolve? k.name = some h ∧ h.program = k.program := by
  unfold Registry.resolve?
  rw [hs]
  cases k <;> exact ⟨_, rfl, rfl⟩

theorem exists_resolve?_raw :
    ∃ h, s.registry.resolve? "raw".toList = some h ∧ h.program = raw := by
  unfold Registry.resolve?
  rw [hs]
  exact ⟨_, rfl, rfl⟩

/-- **What a decoration comes to.** -/
theorem segmentSuccess_decoration {k : Decoration} (hn : inv.name = k.name)
    (hbody : inv.body = some body) :
    s.segmentSuccess depth expand (.invocation inv)
      = .calling (inv, depth) ((expand inv (some body)).andThen fun t =>
          .pure (k.front inv.arguments ++ t ++ k.back inv.arguments)) := by
  obtain ⟨h, hr, hp⟩ := exists_resolve?_decoration hs k
  obtain ⟨o, ho, hf⟩ := k.exists_finish
    (v := ⟨inv, depth, s.settings, s.metadata⟩) hbody
  rw [Session.segmentSuccess, Session.handled, hn, hr, Option.elim_some,
    s.callSuccess_finish (hp ▸ ho) hf]
  exact congrArg _ (Success.joined_framed _ _ _)

/-- **What `raw` comes to**: nothing is done with its body. -/
theorem segmentSuccess_raw (hn : inv.name = "raw".toList)
    (hbody : inv.body = some body) :
    s.segmentSuccess depth expand (.invocation inv)
      = .calling (inv, depth) (.pure body) := by
  obtain ⟨h, hr, hp⟩ := exists_resolve?_raw hs
  have ho : h.program ⟨inv, depth, s.settings, s.metadata⟩
      = .finish (.fragment ⟨some body, false⟩) := by
    rw [hp, raw, hbody]
    rfl
  rw [Session.segmentSuccess, Session.handled, hn, hr, Option.elim_some,
    s.callSuccess_finish ho rfl]
  exact congrArg _ (congrArg Success.pure (List.append_nil body))

end

/-- **The standard shortcodes do nothing by which successes would not be
told part by part**: their handlers finish at once. So no time limit that was
checked is too short for them, and they do not ask for a cancellation. -/
theorem unforgiving {s : Session} (hs : s.Standard) : s.Unforgiving := by
  have hfinish {name : Text} {h : Handler}
      (hr : s.registry.resolve? name = some h) (v : View) :
      ∃ o, h.program v = .finish o :=
    exists_finish_of_resolve? hs.bindings hr v
  refine ⟨.inr fun name h hr v => ?_, fun name h hr time ht => ?_,
    fun name h hr v => ?_⟩
  · obtain ⟨o, ho⟩ := hfinish hr v
    rw [ho]
    exact trivial
  · obtain ⟨hc, ht⟩ := Session.limit?_eq_some_iff.mp ht
    exact (straight hs name h hr).2 hc time ht
  · obtain ⟨o, ho⟩ := hfinish hr v
    rw [ho]
    exact trivial

/-- **A block of a decoration**, with other text beside it. -/
structure Decorated (d : Delimiters) extends Block d where
  decoration : Decoration
  name_eq : name = decoration.name

namespace Decorated

variable {d : Delimiters}

/-- What the block is replaced with, around what its body comes to. -/
def rendered (b : Decorated d) (inner : Text) : Text :=
  b.before ++ (b.decoration.front b.arguments ++ inner
    ++ b.decoration.back b.arguments) ++ b.behind

/-- Blocks around each other and around a text, the outermost first. -/
def writtenAround (levels : List (Decorated d)) (inner : Text) : Text :=
  levels.foldr (fun b t => b.written t) inner

/-- What blocks around each other are replaced with. -/
def renderedAround (levels : List (Decorated d)) (inner : Text) : Text :=
  levels.foldr rendered inner

/-- A block of a decoration with its tags as they are usually written. -/
def write (hd : d.Plain) (k : Decoration) (args : Arguments)
    (ha : ∀ a ∈ args, a.Writable) (before behind : Text)
    (hbefore : Text.has d.opening before = false)
    (hbehind : Text.has d.opening behind = false) : Decorated d where
  toBlock := .write hd k.name (by cases k <;> decide) args ha before behind
    hbefore hbehind
  decoration := k
  name_eq := rfl

theorem renderedAround_cons (b : Decorated d) (levels : List (Decorated d))
    (inner : Text) :
    renderedAround (b :: levels) inner
      = b.rendered (renderedAround levels inner) := rfl

theorem rendered_write {hd : d.Plain} {k : Decoration} {args : Arguments}
    {ha : ∀ a ∈ args, a.Writable} {before behind : Text}
    {hbefore : Text.has d.opening before = false}
    {hbehind : Text.has d.opening behind = false} (inner : Text) :
    (write hd k args ha before behind hbefore hbehind).rendered inner
      = before ++ (k.front args ++ inner ++ k.back args) ++ behind := rfl

end Decorated

end Standard

/-! ## Quoting -/

/-- What a handler is called with, but for positions. -/
structure Served where
  name : Text
  arguments : Arguments
  body : Option Text
  depth : Nat
deriving DecidableEq, Repr, Inhabited

/-- What the handler is called with in a visit. -/
def Visit.served (v : Visit) : Served :=
  ⟨v.1.name, v.1.arguments, v.1.body, v.2⟩

/-- What the handler is called with in a call. -/
def Call.served (c : Call) : Served := Visit.served c.visit

/-- **What the handlers of blocks around a text are called with**, from the
outermost block on, which stands at some depth: each one with what stands
inside its block as the body, as it is written. -/
def Standard.Decorated.served {d : Delimiters} (inner : Text) :
    Nat → List (Decorated d) → List Served
  | _, [] => []
  | depth, b :: levels =>
    ⟨b.name, b.arguments, some (writtenAround levels inner), depth⟩
      :: served inner (depth + 1) levels

open Standard (Decorated)

namespace Session

variable {s : Session} {d : Delimiters} {levels depth : Nat}
  {body out : Text} {served : Multiset Served}

/-- **A text that yields another one** at a depth, wherever it stands, with
calls of handlers on the way. -/
def Yields (s : Session) (levels depth : Nat) (text out : Text)
    (served : Multiset Served) : Prop :=
  ∀ origin, ∃ visits : Multiset Visit,
    s.success levels depth origin (some text) = some (out, visits)
      ∧ visits.map Visit.served = served

section

variable (hs : s.registry.bindings = Standard.registry.bindings)
  (hd : s.settings.delimiters = d) (hu : Text.Unbordered d.opening)

include hs hd hu

/-- A block of `raw` yields its body. -/
theorem yields_raw (b : Block d) (hn : b.name = "raw".toList)
    (hbody : Text.Balanced d body) (levels depth : Nat) :
    s.Yields (levels + 1) depth (b.written body) (b.before ++ body ++ b.behind)
      {⟨b.name, b.arguments, some body, depth⟩} := by
  intro origin
  obtain ⟨inv, hname, hargs, hinv, hsuccess⟩ :=
    exists_success_written hd hu b hbody levels depth origin
  rw [Standard.segmentSuccess_raw hs (hname.trans hn) hinv] at hsuccess
  refine ⟨_, hsuccess, ?_⟩
  rw [← hname, ← hargs, ← hinv]
  rfl

/-- A block of a decoration yields what its body does, decorated. -/
theorem Yields.decorated (h : s.Yields levels (depth + 1) body out served)
    (b : Decorated d) (hbody : Text.Balanced d body) :
    s.Yields (levels + 1) depth (b.written body) (b.rendered out)
      (⟨b.name, b.arguments, some body, depth⟩ ::ₘ served) := by
  intro origin
  obtain ⟨inv, hname, hargs, hinv, hsuccess⟩ :=
    exists_success_written hd hu b.toBlock hbody levels depth origin
  obtain ⟨visits, hvisits, rfl⟩ :=
    h (((some body).map inv.originOf).getD inv.offset)
  rw [Standard.segmentSuccess_decoration hs (hname.trans b.name_eq) hinv,
    hvisits, hargs] at hsuccess
  refine ⟨_, hsuccess, ?_⟩
  rw [← hname, ← hargs, ← hinv]
  simp [Visit.served]

/-- **What a text yields, it yields inside any number of blocks**, as long
as there are levels of depth for them. -/
theorem yields_writtenAround {inner : Text} (hinner : Text.Balanced d inner)
    (blocks : List (Decorated d)) {levels : Nat} (last : Nat → Served)
    (h : ∀ depth, s.Yields levels depth inner out {last depth}) (depth : Nat) :
    Text.Balanced d (Decorated.writtenAround blocks inner)
      ∧ s.Yields (levels + blocks.length) depth
          (Decorated.writtenAround blocks inner)
          (Decorated.renderedAround blocks out)
          (Decorated.served inner depth blocks
            ++ [last (depth + blocks.length)] : List Served) := by
  induction blocks generalizing depth with
  | nil => exact ⟨hinner, h depth⟩
  | cons b blocks ih =>
    obtain ⟨hbalanced, hyields⟩ := ih (depth + 1)
    refine ⟨b.balanced_written hu hbalanced, ?_⟩
    have hb := hyields.decorated hs hd hu b hbalanced
    rw [Nat.add_right_comm depth, Nat.add_assoc depth] at hb
    exact hb

end

/-- **`raw` quotes any balanced text.** Take the standard shortcodes, the
usual delimiters and a text whose tags are well formed and properly
bracketed, whatever their arguments and names are. Put it between the tags
of `raw`, with plain text in front of them and behind them, and put blocks
of `info`, `tick` and `daily-drop` around all this, each one with plain text
beside it, as many as the depth allows, or none. The expansion returns what
these blocks put around their bodies, and inside it the plain text and the
text between the tags as it is written. On the way one handler is called for
each of the blocks, with what stands in the block as its body, and one for
`raw`; so nothing in the text is taken for a shortcode. -/
theorem expand_quoted (hs : s.Standard) (hd : s.settings.delimiters = {})
    {text pre post : Text} (htext : Text.Balanced {} text)
    (hpre : Text.has "<%".toList pre = false)
    (hpost : Text.has "<%".toList post = false)
    (blocks : List (Decorated {}))
    (hdepth : blocks.length ≤ s.settings.maxDepth) (now : Moment) :
    let quoted := pre ++ "<%raw%>".toList ++ text ++ "<%/raw%>".toList ++ post
    let r := s.expand (Decorated.writtenAround blocks quoted) now none
    r.outcome
        = .returned (Decorated.renderedAround blocks (pre ++ text ++ post))
      ∧ (r.calls.map Call.served).Perm (Decorated.served quoted 0 blocks
          ++ [⟨"raw".toList, [], some text, blocks.length⟩]) := by
  intro quoted r
  let raw : Block {} := .write Delimiters.plain_default "raw".toList
    (by decide) [] (by simp) pre post hpre hpost
  have hquoted : raw.written text = quoted := by
    simp [raw, quoted, Block.written, Block.write, Tag.insideOpened,
      Tag.insideClosed, Arguments.write]
  obtain ⟨n, hn⟩ := Nat.exists_eq_add_of_le' hdepth
  have hu := Delimiters.unbordered_default
  have hyields := (yields_writtenAround hs.bindings hd hu
    (raw.balanced_written hu htext) blocks
    (fun depth => ⟨"raw".toList, [], some text, depth⟩)
    (yields_raw hs.bindings hd hu raw rfl htext n) 0).2
  obtain ⟨visits, hsuccess, hserved⟩ := hyields 0
  rw [hquoted, Nat.add_right_comm, ← hn] at hsuccess
  have hopening : s.settings.delimiters.opening ≠ [] := by
    rw [hd]
    decide
  have hr : r.Succeeds (s.documentSuccess _) :=
    succeeds_expand (Standard.unforgiving hs) _ now
  rw [documentSuccess_eq hopening] at hr
  obtain ⟨ho, hcalls⟩ := Run.Succeeds.returned (hsuccess ▸ hr)
  refine ⟨ho, Multiset.coe_eq_coe.mp ?_⟩
  rw [hquoted, Nat.zero_add, ← hcalls, Multiset.map_coe, List.map_map]
    at hserved
  exact hserved

/-- A text with arguments that cannot be read, names that nobody knows and
`raw` itself, in a callout with a title that stands in a heading. -/
theorem expand_quoted_malformed :
    let text := "<%x k=v%>'<%raw%><%y/%><%/raw%>&<%/x%>%>".toList
    let title : Arguments := [⟨"title".toList, some "A & B".toList⟩]
    let content := ("<%daily-drop%>1<%info title=\"A & B\"%>a<<%raw%>" ++
      "<%x k=v%>'<%raw%><%y/%><%/raw%>&<%/x%>%>" ++
      "<%/raw%>%b<%/info%>2<%/daily-drop%>3").toList
    let heading := Standard.Decoration.dailyDrop
    let callout := Standard.Decoration.info
    let result := [] ++ (heading.front [] ++ (['1'] ++ (callout.front title
      ++ ("a<".toList ++ text ++ "%b".toList)
      ++ callout.back title) ++ ['2']) ++ heading.back []) ++ ['3']
    let r := Standard.brief.expand content ⟨0, 0⟩ none
    Standard.brief.Standard ∧ Text.Balanced {} text
      ∧ r.outcome = .returned result ∧ r.calls.length = 3 := by
  intro text title content heading callout result r
  have htext : Text.Balanced {} text := by
    let x : PlacedTag := ⟨.opening, ['x'], " k=v".toList, 0, 9⟩
    let raw : PlacedTag := ⟨.opening, "raw".toList, [], 10, 17⟩
    let y : PlacedTag := ⟨.selfClosing, ['y'], [], 17, 23⟩
    let raw' : PlacedTag := ⟨.closing, "raw".toList, [], 23, 31⟩
    let x' : PlacedTag := ⟨.closing, ['x'], [], 32, 38⟩
    have hy : Derives [y] [.single y] := .single rfl .nil
    have hraw := @Derives.block raw raw' [y] [] _ _ rfl rfl rfl hy .nil
    have hx := @Derives.block x x' [raw, y, raw'] [] _ _ rfl rfl rfl hraw .nil
    exact ⟨_, _, tagsFrom_iff.mpr ⟨by decide +kernel, by decide +kernel⟩, hx⟩
  let blocks : List (Decorated {}) :=
    [.write Delimiters.plain_default heading [] (by decide) [] ['3']
        (by decide) (by decide),
      .write Delimiters.plain_default callout title (by decide) ['1'] ['2']
        (by decide) (by decide)]
  have hpre : Text.has "<%".toList "a<".toList = false := by decide
  have hpost : Text.has "<%".toList "%b".toList = false := by decide
  have hwritten : Decorated.writtenAround blocks ("a<".toList
      ++ "<%raw%>".toList ++ text ++ "<%/raw%>".toList ++ "%b".toList)
        = content := by decide +kernel
  have hrendered : Decorated.renderedAround blocks
      ("a<".toList ++ text ++ "%b".toList) = result := by
    rw [Decorated.renderedAround_cons, Decorated.renderedAround_cons,
      Decorated.rendered_write, Decorated.rendered_write]
    rfl
  obtain ⟨ho, hcalls⟩ := expand_quoted Standard.standard_brief rfl htext hpre
    hpost blocks (by decide) ⟨0, 0⟩
  rw [hwritten, hrendered] at ho
  rw [hwritten] at hcalls
  refine ⟨Standard.standard_brief, htext, ho, ?_⟩
  simpa [Decorated.served, blocks] using hcalls.length_eq

end Session

end Shortcode
