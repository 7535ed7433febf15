import Shortcode.Value

/-!
# Errors

Everything that can go wrong. An `Error` is a cause together with the
name of the shortcode and the position in the document where it arose;
its `Kind` is what a host distinguishes errors by, and its message is
made from the cause in one place, `Cause.message`.

A handler can fail with anything: a `Failure` is an error of this
family, the report that a handler failed together with what the handler
failed with, or a `Fault` from outside the family. A failure that has
passed out of a nested expansion is marked as `escaped`: it was reported
where it arose, and is not reported again by the handlers it passes.
-/

namespace Shortcode

/-- What a host distinguishes errors by. -/
inductive Kind where
  | shortcodeError
  | malformedInvocation
  | mismatchedInvocation
  | malformedArgument
  | unknownShortcode
  | handlerExecutionFailed
  | expansionDepthExceeded
  | expansionCancelled
  | duplicateName
  | registryFrozen
deriving DecidableEq, Repr, Inhabited

/-- The name of a kind of error. -/
def Kind.label : Kind → String
  | .shortcodeError => "ShortcodeError"
  | .malformedInvocation => "MalformedInvocation"
  | .mismatchedInvocation => "MismatchedInvocation"
  | .malformedArgument => "MalformedArgument"
  | .unknownShortcode => "UnknownShortcode"
  | .handlerExecutionFailed => "HandlerExecutionFailed"
  | .expansionDepthExceeded => "ExpansionDepthExceeded"
  | .expansionCancelled => "ExpansionCancelled"
  | .duplicateName => "DuplicateName"
  | .registryFrozen => "RegistryFrozen"

/-- All kinds of error. -/
def Kind.all : List Kind :=
  [.shortcodeError, .malformedInvocation, .mismatchedInvocation,
    .malformedArgument, .unknownShortcode, .handlerExecutionFailed,
    .expansionDepthExceeded, .expansionCancelled, .duplicateName,
    .registryFrozen]

/-- Why an error arose. -/
inductive Cause where
  /-- A tag has no closing delimiter outside quotes. -/
  | unterminatedTag (close : Text)
  /-- What follows the slash of a closing tag is no name. -/
  | invalidClosingTag (inside : Text)
  /-- A tag does not start with a name. -/
  | missingName
  /-- A name is followed by neither white space nor a slash. -/
  | invalidNameCharacter (found : Char)
  /-- A block is never closed. -/
  | unterminatedBlock
  /-- A closing tag stands outside every block. -/
  | strayClosingTag
  /-- A closing tag names another block than the innermost one. -/
  | mismatchedClosingTag (expected : Text)
  /-- A quoted value is not closed. -/
  | unterminatedValue (key : Text)
  /-- A value is not in quotes. -/
  | unquotedValue (key : Text)
  /-- An argument starts with a character no key starts with. -/
  | unexpectedCharacter (found : Char)
  /-- An argument is not followed by white space. -/
  | missingSeparator (found : Char)
  /-- No handler has the name. -/
  | unknownShortcode
  /-- A text at this depth is not expanded any more. -/
  | depthExceeded (limit : Nat)
  /-- The expansion was cancelled. -/
  | cancelled
  /-- The name has a handler already. -/
  | duplicateName
  /-- The registry takes no more handlers; the name may be of any
  type. -/
  | registryFrozen (name : Value)
  /-- An error that a host or a handler made itself. -/
  | stated (kind : Kind) (message : Text) (expected : Option Text)
deriving Inhabited

namespace Cause

/-- The kind of error a cause leads to. -/
def kind : Cause → Kind
  | .unterminatedTag _ | .invalidClosingTag _ | .missingName
  | .invalidNameCharacter _ | .unterminatedBlock => .malformedInvocation
  | .strayClosingTag | .mismatchedClosingTag _ => .mismatchedInvocation
  | .unterminatedValue _ | .unquotedValue _ | .unexpectedCharacter _
  | .missingSeparator _ => .malformedArgument
  | .unknownShortcode => .unknownShortcode
  | .depthExceeded _ => .expansionDepthExceeded
  | .cancelled => .expansionCancelled
  | .duplicateName => .duplicateName
  | .registryFrozen _ => .registryFrozen
  | .stated kind _ _ => kind

/-- What an error says, without where it arose. -/
def message : Cause → Text
  | .unterminatedTag close =>
    "unterminated tag: missing ".toList ++ close.quoted
  | .invalidClosingTag inside =>
    "invalid closing tag ".toList ++ inside.quoted
  | .missingName =>
    "missing or invalid shortcode name after delimiter".toList
  | .invalidNameCharacter c =>
    "invalid character ".toList ++ Text.quoted [c] ++
      " in shortcode name".toList
  | .unterminatedBlock =>
    "unterminated block: no matching closing tag".toList
  | .strayClosingTag =>
    "closing tag without a matching opening tag".toList
  | .mismatchedClosingTag expected =>
    "closing tag does not match open block ".toList ++ expected.quoted
  | .unterminatedValue key =>
    "unterminated quoted value for argument ".toList ++ key.quoted
  | .unquotedValue key =>
    "value of argument ".toList ++ key.quoted ++ " must be quoted".toList
  | .unexpectedCharacter c =>
    "unexpected character ".toList ++ Text.quoted [c] ++
      " in arguments".toList
  | .missingSeparator c =>
    "expected whitespace after argument, found ".toList ++ Text.quoted [c]
  | .unknownShortcode => "no handler registered".toList
  | .depthExceeded limit =>
    "maximum expansion depth (".toList ++ Text.ofInt limit ++
      ") exceeded".toList
  | .cancelled => "expansion cancelled by host".toList
  | .duplicateName => "shortcode already registered".toList
  | .registryFrozen _ =>
    "registry is read-only once a build has started".toList
  | .stated _ message _ => message

/-- The name a closing tag should have had. -/
def expected : Cause → Option Text
  | .mismatchedClosingTag name => some name
  | .stated _ _ expected => expected
  | _ => none

end Cause

/-- An error: why it arose, and where. -/
structure Error where
  cause : Cause
  /-- The shortcode's name, where one is known. -/
  name : Option Text := none
  /-- The position in the document, where there is one. -/
  offset : Option Int := none
deriving Inhabited

namespace Error

/-- The kind of an error. -/
def kind (e : Error) : Kind := e.cause.kind

/-- What an error says, without where it arose. -/
def message (e : Error) : Text := e.cause.message

/-- What an error names: a shortcode, or what was given for a name; null
names nothing. -/
def subject (e : Error) : Option Value :=
  match e.cause with
  | .registryFrozen .null => none
  | .registryFrozen name => some name
  | _ => e.name.map .text

end Error

/-- The part of a description that tells where an error arose, behind
what it says. -/
def located (message : Text) (subject : Option Value) (offset : Option Int) :
    Text :=
  let parts :=
    (subject.map fun v => "shortcode ".toList ++ v.shown).toList ++
      (offset.map fun n => "offset ".toList ++ Text.ofInt n).toList
  if parts.isEmpty then message
  else message ++ " (".toList ++ Text.join ", ".toList parts ++ [')']

/-- What an error says and where it arose. -/
def Error.describe (e : Error) : Text :=
  located e.message e.subject e.offset

/-- A failure from outside the family of errors. Handlers can fail with
anything, so the name of its class is data. -/
structure Fault where
  /-- The name of the class. -/
  label : String
  /-- Its text is shown in quotes, as the key is that was looked up in
  vain. -/
  quotes : Bool := false
deriving DecidableEq, Repr, Inhabited

namespace Fault

def value : Fault := ⟨"ValueError", false⟩
def type : Fault := ⟨"TypeError", false⟩
def key : Fault := ⟨"KeyError", true⟩
def runtime : Fault := ⟨"RuntimeError", false⟩
def zeroDivision : Fault := ⟨"ZeroDivisionError", false⟩
def index : Fault := ⟨"IndexError", false⟩
def timeout : Fault := ⟨"TimeoutError", false⟩
def frozenField : Fault := ⟨"FrozenInstanceError", false⟩

/-- What a fault says, given its text. -/
def describe (f : Fault) (message : Text) : Text :=
  if f.quotes then message.quoted else message

end Fault

/-- What a handler or an expansion can fail with. -/
inductive Failure where
  /-- An error of the family. -/
  | error (e : Error) (escaped : Bool := false)
  /-- The report that the handler of a shortcode failed. -/
  | handlerFailed (name : Text) (offset : Int) (reason : Failure)
    (escaped : Bool := false)
  /-- A failure from outside the family. -/
  | fault (kind : Fault) (message : Text)
deriving Inhabited

namespace Failure

/-- The kind of a failure within the family. -/
def kind? : Failure → Option Kind
  | .error e _ => some e.kind
  | .handlerFailed .. => some .handlerExecutionFailed
  | .fault .. => none

/-- The name of the kind of a failure. -/
def label : Failure → String
  | .error e _ => e.kind.label
  | .handlerFailed .. => Kind.handlerExecutionFailed.label
  | .fault f _ => f.label

/-- What a failure says, without where it arose. -/
def message : Failure → Text
  | .error e _ => e.message
  | .handlerFailed _ _ reason _ =>
    "handler raised ".toList ++ reason.label.toList ++ ": ".toList ++
      reason.message
  | .fault f m => f.describe m

/-- The name of the shortcode a failure belongs to. -/
def subject : Failure → Option Value
  | .error e _ => e.subject
  | .handlerFailed name .. => some (.text name)
  | .fault .. => none

/-- The position in the document where a failure arose. -/
def offset : Failure → Option Int
  | .error e _ => e.offset
  | .handlerFailed _ offset .. => some offset
  | .fault .. => none

/-- What a failure says and where it arose. -/
def describe (f : Failure) : Text :=
  located f.message f.subject f.offset

/-- The name a closing tag should have had. -/
def expected : Failure → Option Text
  | .error e _ => e.cause.expected
  | _ => none

/-- What a handler failed with, of a report that it did. -/
def reason? : Failure → Option Failure
  | .handlerFailed _ _ f _ => some f
  | _ => none

/-- The failure is the cancellation of an expansion. -/
def isCancellation (f : Failure) : Bool :=
  f.kind? == some .expansionCancelled

/-- The failure belongs to the family. -/
def isError (f : Failure) : Bool :=
  f.kind?.isSome

/-- The failure has passed out of a nested expansion. -/
def hasEscaped : Failure → Bool
  | .error _ escaped => escaped
  | .handlerFailed _ _ _ escaped => escaped
  | .fault .. => false

/-- The failure as it leaves a nested expansion: errors of the family
are marked, everything else passes as it is. -/
def escape : Failure → Failure
  | .error e _ => .error e true
  | .handlerFailed name offset f _ => .handlerFailed name offset f true
  | .fault f m => .fault f m

end Failure

end Shortcode
