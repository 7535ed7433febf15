import Shortcode.Double.Shortest
import Shortcode.Tag

/-!
# Settings

How texts are read, how far expansions go, how many handlers and
documents run side by side, and what a build does when a document fails.
`Settings.Valid` is what every checked value satisfies; the checks
themselves are in `Shortcode.Settings.Check`.
-/

namespace Shortcode

/-- What a build does when a document fails: stop all of them, or leave
that one out. -/
inductive Policy where
  | abort
  | skip
deriving DecidableEq, Repr, Inhabited

/-- The word for a policy. -/
def Policy.label : Policy → Text
  | .abort => "abort".toList
  | .skip => "skip".toList

/-- The settings of an engine and of a build. -/
structure Settings where
  delimiters : Delimiters := {}
  /-- The greatest depth at which a text is expanded. -/
  maxDepth : Nat := 20
  /-- How many handlers of one text run side by side; zero sets no
  limit. -/
  maxConcurrency : Nat := 16
  /-- How long one call of a handler may take. -/
  handlerTimeout : Option Double := none
  /-- How many documents of one build are expanded side by side. -/
  maxParallelDocuments : Nat := 8
  onError : Policy := .abort
deriving DecidableEq, Repr, Inhabited

/-- The fields of the settings. -/
inductive Field where
  | openDelimiter
  | closeDelimiter
  | maxDepth
  | maxConcurrency
  | handlerTimeout
  | maxParallelDocuments
  | onError
deriving DecidableEq, Repr, Inhabited

namespace Field

/-- The name of a field. -/
def label : Field → String
  | .openDelimiter => "open_delimiter"
  | .closeDelimiter => "close_delimiter"
  | .maxDepth => "max_depth"
  | .maxConcurrency => "max_concurrency"
  | .handlerTimeout => "handler_timeout"
  | .maxParallelDocuments => "max_parallel_documents"
  | .onError => "on_error"

/-- All fields, in order. -/
def all : List Field :=
  [.openDelimiter, .closeDelimiter, .maxDepth, .maxConcurrency,
    .handlerTimeout, .maxParallelDocuments, .onError]

/-- The field with a name. -/
def ofLabel? (name : String) : Option Field :=
  all.find? fun f => f.label == name

end Field

namespace Settings

/-- Characters that the inside of a tag gives a meaning to. -/
def reservedCharacters : Text :=
  ['\t', '\n', '\r', ' ', '"', '\'', '/']

/-- A delimiter is not empty and holds no reserved character. -/
def IsDelimiter (t : Text) : Prop :=
  t ≠ [] ∧ ∀ c ∈ t, c ∉ reservedCharacters

/-- What checked settings satisfy. -/
structure Valid (s : Settings) : Prop where
  opening : IsDelimiter s.delimiters.opening
  closing : IsDelimiter s.delimiters.closing
  differ : s.delimiters.opening ≠ s.delimiters.closing
  one_le_maxDepth : 1 ≤ s.maxDepth
  one_le_maxParallelDocuments : 1 ≤ s.maxParallelDocuments
  timeout_pos : ∀ t, s.handlerTimeout = some t → t.isPositive = true

/-- The value of a field, as handlers read it. -/
def shown (s : Settings) : Field → Text
  | .openDelimiter => s.delimiters.opening
  | .closeDelimiter => s.delimiters.closing
  | .maxDepth => Text.ofInt s.maxDepth
  | .maxConcurrency => Text.ofInt s.maxConcurrency
  | .handlerTimeout =>
    match s.handlerTimeout with
    | none => "None".toList
    | some t => t.text
  | .maxParallelDocuments => Text.ofInt s.maxParallelDocuments
  | .onError => s.onError.label

/-- The least whole number of units of time that a call of a handler may
not take: a call has to end before its time is up. An infinite time
sets no limit. -/
def timeLimit (s : Settings) : Option Nat :=
  s.handlerTimeout.bind Double.ceil?

theorem timeLimit_of_none {s : Settings} (h : s.handlerTimeout = none) :
    s.timeLimit = none := by
  rw [timeLimit, h]
  rfl

end Settings

end Shortcode
