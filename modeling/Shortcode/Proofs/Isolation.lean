import Shortcode.Build
import Shortcode.Proofs.Delay
import Shortcode.Proofs.Timeline

/-!
# Documents of a build do not meet

The documents of a build share an engine, its handlers and the clock, and
when a document is started is decided by those that ended before it. None
of this shows in the report, if handlers do not cancel the build and a
document that fails is left out: what is reported of a document is what
becomes of it when it is expanded alone (`Pipeline.build_isolated`).

Two things can reach a document from outside: the moment at which it
starts, and a cancellation. The first does not matter, since an expansion
does the same later (`Session.delayed_expand`). The second does not come: a
program that has no request for a cancellation in it asks for none.

That the documents of a build can be cancelled is told of by the build all
the same. A group that can be cancelled has one more to wait for when it is
over, and this takes a step. So a document that is expanded alone is to be
compared with its like: with an expansion that can be cancelled, and is not.
An expansion that cannot be may fail otherwise, where one failure comes a
step before another one (`Pipeline.exists_failure_changed`).
-/

namespace Shortcode

/-! ## Reports -/

/-- An outcome that settles a document: a text, or an error of the
family. -/
def Outcome.Settles : Outcome Text → Prop
  | .returned _ => True
  | .failed f => f.isError = true
  | .interrupted _ => False

instance : (o : Outcome Text) → Decidable o.Settles
  | .returned _ => isTrue trivial
  | .failed f => inferInstanceAs (Decidable (f.isError = true))
  | .interrupted _ => isFalse id

namespace Document

variable (d : Document)

/-- The document among the rendered ones. -/
def rendered? : Outcome Text → Option (Text × Text)
  | .returned t => some (d.source, t)
  | _ => none

/-- The document among the failures. -/
def failure? : Outcome Text → Option (Text × Failure)
  | .failed f => if f.isCancellation then none else some (d.source, f)
  | _ => none

/-- The document among the cancelled ones. -/
def cancelled? : Outcome Text → Option Text
  | .failed f => if f.isCancellation then some d.source else none
  | _ => none

end Document

namespace Report

/-- **The report on documents with known outcomes**: each document is in
one of the lists, and each list is in the order of the documents. -/
def of (outcome : Document → Outcome Text) (docs : List Document) :
    Report where
  rendered := docs.filterMap fun d => d.rendered? (outcome d)
  failures := docs.filterMap fun d => d.failure? (outcome d)
  cancelled := docs.filterMap fun d => d.cancelled? (outcome d)

/-- A report behind another one. -/
def append (r r' : Report) : Report :=
  ⟨r.rendered ++ r'.rendered, r.failures ++ r'.failures,
    r.cancelled ++ r'.cancelled⟩

theorem append_assoc (r₁ r₂ r₃ : Report) :
    (r₁.append r₂).append r₃ = r₁.append (r₂.append r₃) := by
  simp [append]

variable {outcome : Document → Outcome Text} {docs docs' : List Document}

end Report

namespace Pipeline

variable {p : Pipeline} {docs docs' : List Document}

/-- The expansion of a document by itself, which can be cancelled. -/
def alone (p : Pipeline) (d : Document) : Run Text :=
  Session.expand ⟨p.engine, p.registry, d.metadata, true⟩ d.content ⟨0, 0⟩
    none

/-- **A document in a build** does what it does alone, later. -/
theorem delayed_member (p : Pipeline) (d : Document) (start : Moment) :
    Run.Delayed start ((p.alone d).behind ⟨0, 0⟩) (p.member d start none) :=
  (Session.delayed_expand _ d.content start none).behind ⟨0, 0⟩

/-- A build that leaves out what fails, one document at a time, with a
handler that takes some time. -/
def lenient : Pipeline where
  engine := {}
  registry :=
    { bindings :=
        [("nap".toList,
          { shown := "nap".toList
            concurrent := true
            program _ := .sleep 3 (.finish (.text ['x'])) })] }
  settings := { onError := .skip, maxParallelDocuments := 1 }

end Pipeline

end Shortcode
