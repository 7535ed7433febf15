import Shortcode.Handler
import Shortcode.Name

/-!
# The registry

A registry binds names to handlers. It is filled first and then frozen:
from then on it takes no handlers, and what it binds does not change. A
binding is replaced only when that is asked for.

Adding looks at four things in turn: whether the registry is frozen,
whether the name is one, whether it is bound already, and whether what
is to be bound can be called. The first that does not hold is told.
-/

namespace Shortcode

/-- What is offered to a registry as a handler. -/
inductive Candidate where
  /-- A function with a name of its own. -/
  | function (name : Text) (concurrent : Bool) (program : View → Program)
  /-- A handler that is taken as it is. -/
  | handler (h : Handler)
  /-- A value that is no handler. -/
  | value (v : Value)
deriving Inhabited

namespace Candidate

/-- A function as a handler. -/
def functionHandler (shown : Text) (concurrent : Bool)
    (program : View → Program) : Handler :=
  ⟨"<FunctionHandler ".toList ++ shown ++ ['>'], concurrent, program⟩

/-- What becomes of something that is called and cannot be. -/
def notCallable (typeName : Text) : View → Program := fun _ =>
  .fail (.fault .type
    ('\'' :: typeName ++ "' object is not callable".toList))

/-- The handler that a candidate is, if it is one. -/
def handler? : Candidate → Option Handler
  | .function name concurrent program =>
    some (functionHandler name.quoted concurrent program)
  | .handler h => some h
  | .value _ => none

/-- The candidate taken for a function whatever it is. -/
def asFunction : Candidate → Candidate
  | .function name concurrent program =>
    .handler (functionHandler name.quoted concurrent program)
  | .handler h =>
    let typeName := (h.shown.drop 1).takeWhile fun c => c != ' '
    .handler (functionHandler h.shown false (notCallable typeName))
  | .value v =>
    .handler (functionHandler v.shown false (notCallable v.typeName.toList))

end Candidate

/-- Names bound to handlers; a name is bound once. -/
structure Registry where
  bindings : List (Text × Handler) := []
  frozen : Bool := false
deriving Inhabited

namespace Registry

/-- The handler bound to a name. -/
def resolve? (r : Registry) (name : Text) : Option Handler :=
  (r.bindings.find? fun b => b.1 = name).map Prod.snd

/-- The name is bound. -/
def contains (r : Registry) (name : Text) : Bool :=
  (r.resolve? name).isSome

/-- How many names are bound. -/
def size (r : Registry) : Nat :=
  r.bindings.length

/-- The names that are bound, in the order of their characters. -/
def names (r : Registry) : List Text :=
  (r.bindings.map Prod.fst).mergeSort fun a b => !decide (b < a)

/-- Bindings with a name bound to a handler: in the place the name has
among them, else at the end. -/
def put (name : Text) (h : Handler) :
    List (Text × Handler) → List (Text × Handler)
  | [] => [(name, h)]
  | b :: rest =>
    if b.1 = name then (name, h) :: rest else b :: put name h rest

/-- Bind a name, replacing what it was bound to. -/
def bind (r : Registry) (name : Text) (h : Handler) : Registry :=
  { r with bindings := put name h r.bindings }

/-- **Binding is seen by the name alone**: afterwards the name has the
handler, and every other name has what it had. -/
theorem resolve?_bind (r : Registry) (name other : Text) (h : Handler) :
    (r.bind name h).resolve? other =
      if other = name then some h else r.resolve? other := by
  unfold bind resolve?
  dsimp only
  induction r.bindings with
  | nil => by_cases ho : other = name <;> simp [put, ho, eq_comm]
  | cons b rest ih =>
    by_cases hb : b.1 = name <;> by_cases ho : other = name <;>
      by_cases hbo : b.1 = other <;> simp_all [put]

/-- The name as a text, where it is a name. -/
def nameOf? : Value → Option Text
  | .text t => if isName t then some t else none
  | _ => none

/-- Add a handler under a name. -/
def register (r : Registry) (name : Value) (candidate : Candidate)
    (overwrite : Bool := false) : Except Failure (Registry × Handler) :=
  if r.frozen then
    .error (.error { cause := .registryFrozen name })
  else
    match nameOf? name with
    | none =>
      .error (.fault .value
        ("invalid shortcode name: ".toList ++ name.shown))
    | some n =>
      if r.contains n && !overwrite then
        .error (.error { cause := .duplicateName, name := some n })
      else
        match candidate.handler? with
        | none =>
          .error (.fault .type ("handler for ".toList ++ n.quoted ++
            " must define execute() or be callable".toList))
        | some h => .ok (r.bind n h, h)

/-- Add several handlers, up to the first that cannot be added: what
was added before it stays. -/
def load (r : Registry) (overwrite : Bool) :
    List (Value × Candidate) → Registry × Option Failure
  | [] => (r, none)
  | (name, candidate) :: rest =>
    match r.register name candidate overwrite with
    | .error f => (r, some f)
    | .ok (r, _) => r.load overwrite rest

/-- Take no more handlers. -/
def freeze (r : Registry) : Registry :=
  { r with frozen := true }

end Registry

end Shortcode
