import Shortcode.Error
import Shortcode.Name
import Shortcode.Text.Blank

/-!
# Tags

A tag stands between an opening and a closing delimiter. The closing
delimiter is searched behind the opening one, but not inside quotes, and
a quote is seen before a delimiter that starts with it. Inside a tag
stand, with white space around them, a slash and a name (a *closing*
tag), or a name with arguments behind it and perhaps a slash at the end
(a *self-closing* tag, an *opening* tag without the slash).

`Lexeme.scan` cuts a text into literal pieces and tags, up to its end or
to the first tag that cannot be read; what it has cut is the text
(`Lexeme.sources_scan`). Nothing is assumed of the delimiters: they may
be empty, equal or hold quotes. A tag that was read holds a name, so the
scan always moves on (`Tag.length_read_lt`), also with an empty opening
delimiter, which occurs everywhere.
-/

namespace Shortcode

/-- The pair of marks a tag stands between. -/
structure Delimiters where
  opening : Text := "<%".toList
  closing : Text := "%>".toList
deriving DecidableEq, Repr, Inhabited

/-- What a tag does: open a block, stand for itself, or close a block. -/
inductive TagForm where
  | opening
  | selfClosing
  | closing
deriving DecidableEq, Repr, Inhabited

/-- A tag that was read. -/
structure Tag where
  form : TagForm
  name : Text
  /-- The tag as it is written, with its delimiters. -/
  source : Text
  /-- The argument text, without the slash of a self-closing tag. -/
  argumentText : Text
  /-- The position of the argument text in the tag. -/
  argumentsAt : Nat
deriving DecidableEq, Repr, Inhabited

/-- Why a tag cannot be read. The position is one in the tag. -/
structure TagFault where
  cause : Cause
  name : Option Text := none
  position : Nat := 0
deriving Inhabited

namespace Tag

/-- A character that opens a quotation. -/
def isQuote (c : Char) : Bool :=
  c == '"' || c == '\''

/-- Cut a text at the first closing delimiter outside quotations. The
first argument is the quote that is open, if one is. -/
def cutInside (closing : Text) : Option Char → Text → Option (Text × Text)
  | _, [] => none
  | some q, c :: rest =>
    (cutInside closing (if c = q then none else some q) rest).map
      fun (inside, behind) => (c :: inside, behind)
  | none, c :: rest =>
    if isQuote c then
      (cutInside closing (some c) rest).map
        fun (inside, behind) => (c :: inside, behind)
    else if closing.isPrefixOf (c :: rest) then
      some ([], (c :: rest).drop closing.length)
    else
      (cutInside closing none rest).map
        fun (inside, behind) => (c :: inside, behind)

/-- The argument text of a tag, without the slash that makes the tag
stand for itself. -/
def splitSlash (text : Text) : TagForm × Text :=
  match text.trimRight.reverse with
  | '/' :: rest => (.selfClosing, rest.reverse)
  | _ => (.opening, text.trimRight)

/-- Read what stands between the delimiters of a tag. -/
def ofInside (d : Delimiters) (inside : Text) : Except TagFault Tag :=
  let source := d.opening ++ inside ++ d.closing
  let stripped := inside.trimLeft
  match stripped with
  | '/' :: rest =>
    if isName (Text.trim rest) then
      .ok ⟨.closing, Text.trim rest, source, [], source.length⟩
    else
      .error { cause := .invalidClosingTag inside }
  | _ =>
    let name := (splitName stripped).1
    let rest := (splitName stripped).2
    let position :=
      d.opening.length + (inside.length - stripped.length) + name.length
    if name.isEmpty then
      .error { cause := .missingName }
    else
      match rest with
      | c :: _ =>
        if isBlank c || c == '/' then
          .ok ⟨(splitSlash rest).1, name, source, (splitSlash rest).2, position⟩
        else
          .error ⟨.invalidNameCharacter c, some name, position⟩
      | [] => .ok ⟨.opening, name, source, [], position⟩

/-- Read a tag from what stands behind its opening delimiter; what
follows the tag is given back. -/
def read (d : Delimiters) (text : Text) : Except TagFault (Tag × Text) :=
  match cutInside d.closing none text with
  | none => .error { cause := .unterminatedTag d.closing }
  | some (inside, behind) =>
    match ofInside d inside with
    | .ok tag => .ok (tag, behind)
    | .error fault => .error fault

/-- **Nothing is lost when an inside is cut off**: it makes up the text,
together with the closing delimiter and what follows. -/
theorem cutInside_eq {closing : Text} {quote : Option Char}
    {text inside behind : Text}
    (h : cutInside closing quote text = some (inside, behind)) :
    text = inside ++ closing ++ behind := by
  fun_induction cutInside closing quote text generalizing inside behind with
  | case1 => simp at h
  | case2 q c rest ih =>
    obtain ⟨⟨i, b⟩, hb, he⟩ := Option.map_eq_some_iff.mp h
    obtain ⟨rfl, rfl⟩ := by simpa using he
    simp [ih hb]
  | case3 c rest _ ih =>
    obtain ⟨⟨i, b⟩, hb, he⟩ := Option.map_eq_some_iff.mp h
    obtain ⟨rfl, rfl⟩ := by simpa using he
    simp [ih hb]
  | case4 c rest _ hp =>
    obtain ⟨rfl, rfl⟩ := by simpa using h
    simpa using
      (List.prefix_iff_eq_append.mp (List.isPrefixOf_iff_prefix.mp hp)).symm
  | case5 c rest _ _ ih =>
    obtain ⟨⟨i, b⟩, hb, he⟩ := Option.map_eq_some_iff.mp h
    obtain ⟨rfl, rfl⟩ := by simpa using he
    simp [ih hb]

/-- The inside of a tag that was read is not empty: it holds a name. -/
theorem inside_ne_nil {d : Delimiters} {inside : Text} {tag : Tag}
    (h : ofInside d inside = .ok tag) : inside ≠ [] := by
  rintro rfl
  simp [ofInside, Text.trimLeft, splitName, splitWord] at h

/-- The tag that was read from an inside is written as that inside
between the delimiters. -/
theorem source_ofInside {d : Delimiters} {inside : Text} {tag : Tag}
    (h : ofInside d inside = .ok tag) :
    tag.source = d.opening ++ inside ++ d.closing := by
  unfold ofInside at h
  dsimp only at h
  split at h
  · split at h
    · injection h with h
      rw [← h]
    · simp at h
  · split at h
    · simp at h
    · split at h
      · split at h
        · injection h with h
          rw [← h]
        · simp at h
      · injection h with h
        rw [← h]

/-- **Nothing is lost when a tag is read**: it makes up the text it was
read from, together with what follows. -/
theorem source_read {d : Delimiters} {text behind : Text} {tag : Tag}
    (h : read d text = .ok (tag, behind)) :
    d.opening ++ text = tag.source ++ behind := by
  unfold read at h
  split at h
  · simp at h
  · next inside b hc =>
    split at h
    · next t ht =>
      obtain ⟨rfl, rfl⟩ := by simpa using h
      rw [source_ofInside ht, cutInside_eq hc]
      simp
    · simp at h

/-- **Reading moves on**: a tag leaves a shorter text. -/
theorem length_read_lt {d : Delimiters} {text behind : Text} {tag : Tag}
    (h : read d text = .ok (tag, behind)) : behind.length < text.length := by
  unfold read at h
  split at h
  · simp at h
  · next inside b hc =>
    split at h
    · next t ht =>
      obtain ⟨rfl, rfl⟩ := by simpa using h
      have hl := congrArg List.length (cutInside_eq hc)
      have := List.length_pos_iff.mpr (inside_ne_nil ht)
      simp only [List.length_append] at hl
      omega
    · simp at h

end Tag

/-- A piece of a text: literal, or a tag. -/
inductive Lexeme where
  | literal (text : Text)
  | tag (t : Tag)
deriving DecidableEq, Repr, Inhabited

/-- The pieces of a text, up to its end or to the first tag that cannot
be read; then the fault and its position in the text are told. -/
structure Scan where
  lexemes : List Lexeme
  fault : Option TagFault := none

namespace Lexeme

/-- A piece as it is written. -/
def source : Lexeme → Text
  | .literal text => text
  | .tag t => t.source

/-- A literal piece in front of others; an empty one is left out. -/
def consLiteral (text : Text) (s : Scan) : Scan :=
  if text.isEmpty then s else { s with lexemes := .literal text :: s.lexemes }

/-- Cut a text into pieces. -/
def scan (d : Delimiters) (text : Text) : Scan :=
  match _h : Text.cut? d.opening text with
  | none => consLiteral text ⟨[], none⟩
  | some (before, rest) =>
    match _h' : Tag.read d rest with
    | .error fault => consLiteral before ⟨[], some fault⟩
    | .ok (t, behind) =>
      let s := scan d behind
      consLiteral before { s with lexemes := .tag t :: s.lexemes }
termination_by text.length
decreasing_by
  have := Text.length_behind_le _h
  have := Tag.length_read_lt _h'
  omega

/-- A literal piece in front adds its text to what the pieces make
up. -/
theorem sources_consLiteral (text : Text) (s : Scan) :
    (consLiteral text s).lexemes.flatMap source =
      text ++ s.lexemes.flatMap source := by
  unfold consLiteral
  split
  · next h => simp [List.isEmpty_iff.mp h]
  · rfl

/-- A literal piece in front does not change how the pieces end. -/
theorem fault_consLiteral (text : Text) (s : Scan) :
    (consLiteral text s).fault = s.fault := by
  unfold consLiteral
  split <;> rfl

/-- **The pieces make up the text**, all of it unless a fault ends
them. -/
theorem sources_scan (d : Delimiters) (text : Text) :
    ∃ rest, text = (scan d text).lexemes.flatMap source ++ rest ∧
      ((scan d text).fault = none → rest = []) := by
  fun_induction scan d text with
  | case1 text h =>
    exact ⟨[], by simp [sources_consLiteral], fun _ => rfl⟩
  | case2 text before rest h fault h' =>
    refine ⟨d.opening ++ rest, ?_, fun hf => ?_⟩
    · simp [sources_consLiteral, Text.cut?_eq h]
    · simp [fault_consLiteral] at hf
  | case3 text before rest h t behind h' s ih =>
    obtain ⟨left, hl, hf⟩ := ih
    refine ⟨left, ?_, fun hn => hf (by simpa [fault_consLiteral] using hn)⟩
    rw [sources_consLiteral, Text.cut?_eq h]
    simp only [List.flatMap_cons, source, List.append_assoc]
    rw [Tag.source_read h']
    exact congrArg (fun u => before ++ (t.source ++ u)) hl

end Lexeme

end Shortcode
