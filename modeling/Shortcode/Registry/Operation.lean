import Shortcode.Session

/-!
# Operations on a registry

A host does one of a few things with a registry: it adds a handler, it adds a
function as one, it adds several at once, it freezes the registry, or it
builds an engine on it, which freezes it, too. An addition can be refused, and
then the registry is what it was; the addition of several goes on up to the
first that is refused, and keeps those before it.

`Registry.perform` says what one operation makes of a registry and why it was
refused, if it was; `Registry.run` does several, and goes on behind those that
were refused.
-/

namespace Shortcode

/-- **An engine that is built on a registry** freezes it. -/
def Session.ofRegistry (settings : Settings) (r : Registry) : Session where
  settings := settings
  registry := r.freeze

namespace Registry

/-- **An operation on a registry**, with what it is given. -/
inductive Operation where
  | register (name : Value) (candidate : Candidate) (overwrite : Bool)
  /-- Register something as a function, whatever it is. -/
  | decorate (name : Value) (candidate : Candidate) (overwrite : Bool)
  | load (bindings : List (Value × Candidate)) (overwrite : Bool)
  | freeze
  /-- Build an engine on the registry. -/
  | engine (settings : Settings)
deriving Inhabited

/-- The registry after an addition, and why it was refused, if it was. -/
def add (r : Registry) (name : Value) (candidate : Candidate)
    (overwrite : Bool) : Registry × Option Failure :=
  match r.register name candidate overwrite with
  | .ok (r', _) => (r', none)
  | .error f => (r, some f)

/-- The registry after an operation, and why it was refused, if it was. -/
def perform (r : Registry) : Operation → Registry × Option Failure
  | .register name candidate overwrite => r.add name candidate overwrite
  | .decorate name candidate overwrite =>
    r.add name candidate.asFunction overwrite
  | .load bindings overwrite => r.load overwrite bindings
  | .freeze => (r.freeze, none)
  | .engine settings => ((Session.ofRegistry settings r).registry, none)

/-- The registry after a history. -/
def run (r : Registry) (ops : List Operation) : Registry :=
  ops.foldl (fun r op => (r.perform op).1) r

end Registry

end Shortcode
