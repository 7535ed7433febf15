import Shortcode.Argument
import Shortcode.Error
import Shortcode.Name
import Shortcode.Text.Blank

/-!
# Reading arguments

The argument text of a tag is white space around arguments that white
space separates: `key="value"`, `key='value'` or a bare `key`. A value
is what stands between its quotes, as it is; it cannot hold its own
quote.

`Argument.next?` reads one argument and gives back what it left, which
is shorter (`length_rest_le`); `Arguments.parse` repeats it. An error
tells the position at which the text stops being the beginning of
something that could be read.
-/

namespace Shortcode

/-- An error in an argument text, with its position in that text. -/
structure ArgumentFault where
  cause : Cause
  /-- The position in the argument text. -/
  position : Nat

namespace Argument

/-- After an argument the text ends or goes on with white space. -/
def separated (position : Nat) (a : Argument) (rest : Text) :
    Except ArgumentFault (Argument × Text) :=
  match rest with
  | [] => .ok (a, rest)
  | c :: _ =>
    if isBlank c then .ok (a, rest)
    else .error ⟨.missingSeparator c, position⟩

/-- The value of a key, from its opening quote on. -/
def quotedValue (position : Nat) (key : Text) (quote : Char) (rest : Text) :
    Except ArgumentFault (Argument × Text) :=
  match Text.cut? [quote] rest with
  | none => .error ⟨.unterminatedValue key, position⟩
  | some (value, behind) =>
    separated (position + value.length + 2) ⟨key, some value⟩ behind

/-- One argument at the front of a text that is not empty and does not
start with white space, and what follows it. Positions are those of the
text the argument stands in. -/
def next? (position : Nat) (c : Char) (text : Text) :
    Except ArgumentFault (Argument × Text) :=
  let (key, behind) := splitKey (c :: text)
  if key.isEmpty then .error ⟨.unexpectedCharacter c, position⟩
  else
    let value := position + key.length + 1
    match behind with
    | '=' :: '"' :: rest => quotedValue value key '"' rest
    | '=' :: '\'' :: rest => quotedValue value key '\'' rest
    | '=' :: _ => .error ⟨.unquotedValue key, value⟩
    | rest => separated (position + key.length) ⟨key, none⟩ rest

/-- An argument by its first character: one that starts a key is taken with
all that goes on with it. -/
theorem next?_eq (position : Nat) (c : Char) (text : Text) :
    next? position c text =
      if isNameStart c then
        let key := c :: text.takeWhile isKeyRest
        let value := position + key.length + 1
        match text.dropWhile isKeyRest with
        | '=' :: '"' :: rest => quotedValue value key '"' rest
        | '=' :: '\'' :: rest => quotedValue value key '\'' rest
        | '=' :: _ => .error ⟨.unquotedValue key, value⟩
        | rest => separated (position + key.length) ⟨key, none⟩ rest
      else .error ⟨.unexpectedCharacter c, position⟩ := by
  have hsplit : splitKey (c :: text) =
      if isNameStart c then
        (c :: text.takeWhile isKeyRest, text.dropWhile isKeyRest)
      else ([], c :: text) := rfl
  unfold next?
  rw [hsplit]
  by_cases h : isNameStart c = true
  · rw [if_pos h, if_pos h]
    rfl
  · rw [if_neg h, if_neg h]
    rfl

/-- The check behind an argument changes nothing. -/
theorem separated_ok {position : Nat} {a b : Argument} {rest rest' : Text}
    (h : separated position a rest = .ok (b, rest')) :
    b = a ∧ rest' = rest := by
  unfold separated at h
  split at h
  · simp_all
  · split at h
    · simp_all
    · simp at h

/-- Reading a value leaves no more than stood behind its quote. -/
theorem length_quotedValue {position : Nat} {key : Text} {quote : Char}
    {text rest : Text} {a : Argument}
    (h : quotedValue position key quote text = .ok (a, rest)) :
    rest.length ≤ text.length := by
  unfold quotedValue at h
  split at h
  · simp at h
  · next hc =>
    obtain ⟨_, rfl⟩ := separated_ok h
    exact Text.length_behind_le hc

/-- **Reading moves on**: an argument leaves no more than stood behind
its first character. -/
theorem length_rest_le {position : Nat} {c : Char} {text rest : Text}
    {a : Argument} (h : next? position c text = .ok (a, rest)) :
    rest.length ≤ text.length := by
  have hl := (List.dropWhile_sublist isKeyRest (l := text)).length_le
  rw [next?_eq] at h
  split at h
  · dsimp only at h
    split at h
    · next he =>
      rw [he] at hl
      have := length_quotedValue h
      simp only [List.length_cons] at hl
      omega
    · next he =>
      rw [he] at hl
      have := length_quotedValue h
      simp only [List.length_cons] at hl
      omega
    · simp at h
    · obtain ⟨_, rfl⟩ := separated_ok h
      exact hl
  · simp at h

end Argument

namespace Arguments

/-- The arguments of a text, from a position of the whole on. -/
def parseFrom (position : Nat) (text : Text) :
    Except ArgumentFault Arguments :=
  match text with
  | [] => .ok []
  | c :: rest =>
    if isBlank c then parseFrom (position + 1) rest
    else
      match _h : Argument.next? position c rest with
      | .error e => .error e
      | .ok (a, behind) =>
        match parseFrom (position + 1 + rest.length - behind.length) behind with
        | .error e => .error e
        | .ok args => .ok (a :: args)
termination_by text.length
decreasing_by
  · simp
  · have := Argument.length_rest_le _h
    simp only [List.length_cons]
    omega

/-- The arguments of an argument text. The name of the shortcode and the
position of the text in the document go into an error. -/
def parse (text : Text) (name : Option Text := none) (offset : Int := 0) :
    Except Error Arguments :=
  match parseFrom 0 text with
  | .ok args => .ok args
  | .error fault => .error ⟨fault.cause, name, some (offset + fault.position)⟩

end Arguments

end Shortcode
