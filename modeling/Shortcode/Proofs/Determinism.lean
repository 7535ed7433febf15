import Shortcode.Proofs.Agreement

/-!
# What decides what a document gives

Many things happen side by side in an expansion, and which of them ends
first depends on how long handlers sleep and on how many of them may run
at once. What a document gives does not. Both results here say so by way
of evaluations, which know nothing of either.

Handlers that do not wait (`Session.Immediate`) leave no time between
the first of them and the last, so an expansion of a document gives
exactly what its evaluation gives, down to the failure.

Where handlers sleep, another failure may come first, so two expansions
can differ in the failure they end with, but in nothing else. The
sessions that are compared differ in the limit and in how long handlers
sleep; `Session.Alike` says that the rest is the same.
-/

namespace Shortcode

/-! ## Handlers that do not wait -/

namespace Session

variable {s : Session}

/-- **Side by side is one behind the other.** Where handlers do not wait,
a document gives the text that its evaluation gives, or fails with the
failure that its evaluation fails with, whatever limits are set. -/
theorem expand_immediate (hs : s.Immediate)
    (hd : s.settings.delimiters.opening ≠ []) (text : Text) (now : Moment) :
    (∃ t, (s.expand text now none).outcome = .returned t
        ∧ (s.behaviour.evaluate 0 none 0 (some text)).outcome = .returned t)
      ∨ ∃ f, (s.expand text now none).outcome = .failed f
        ∧ (s.behaviour.evaluate 0 none 0 (some text)).outcome
            = .failed f := by
  have h := gives_expand Failure.congruence_eq hs.straight (.inl hs) hd text
    now
  rcases h.outcome.elim with ⟨t, ho, he⟩ | ⟨f, _, ho, he, rfl⟩
  · exact .inl ⟨t, ho, he⟩
  · exact .inr ⟨f, ho, he⟩

/-- A session with a handler that has the body of its block expanded
twice, and one that fails. -/
def twice (limit : Nat) : Session where
  settings := { maxConcurrency := limit }
  registry :=
    { bindings :=
        [("twice".toList,
          { shown := "twice".toList
            concurrent := false
            program v := .finish (.items .list
              [.fragment ⟨v.invocation.body, true⟩,
                .fragment ⟨v.invocation.body, true⟩]) }),
          ("stop".toList,
          { shown := "stop".toList
            concurrent := false
            program _ := .fail (.fault .value "stopped".toList) })] }

/-- A text that is expanded again inside another one, and two failures. -/
theorem expand_immediate_twice :
    (twice 1).Immediate
      ∧ (twice 1).settings.delimiters.opening ≠ []
      ∧ ((twice 1).behaviour.evaluate 0 none 0
          (some "<% twice %>a<% twice %>b<% /twice %><% /twice %>".toList)
            ).outcome = .returned "abbabb".toList
      ∧ ∃ f, ((twice 1).behaviour.evaluate 0 none 0
          (some "<% stop /%><% twice %><% stop /%><% /twice %>".toList)
            ).outcome = .failed f := by
  have hs : (twice 1).Immediate := by
    intro name h hr
    obtain ⟨b, hb, rfl⟩ := Registry.exists_of_resolve? hr
    rcases List.mem_pair.mp hb with rfl | rfl
    · exact ⟨rfl, fun _ => trivial⟩
    · exact ⟨rfl, fun _ => trivial⟩
  have hd : (twice 1).settings.delimiters.opening ≠ [] := by decide
  refine ⟨hs, hd, ?_, ?_⟩
  · have hr : ((twice 1).expand
        "<% twice %>a<% twice %>b<% /twice %><% /twice %>".toList ⟨0, 0⟩
          none).outcome.result? = some "abbabb".toList := by decide +kernel
    rcases expand_immediate hs hd _ ⟨0, 0⟩ with ⟨t, ho, he⟩ | ⟨f, ho, _⟩
    · rw [ho] at hr
      rw [he, Option.some.inj hr]
    · rw [ho] at hr
      simp [Outcome.result?] at hr
  · have hr : ((twice 1).expand
        "<% stop /%><% twice %><% stop /%><% /twice %>".toList ⟨0, 0⟩
          none).outcome.result? = none := by decide +kernel
    rcases expand_immediate hs hd _ ⟨0, 0⟩ with ⟨t, ho, _⟩ | ⟨f, _, he⟩
    · rw [ho] at hr
      simp [Outcome.result?] at hr
    · exact ⟨f, he⟩

end Session

/-! ## Handlers that sleep -/

/-- **Handlers are alike** if they do the same with every invocation, at
every depth and in every document, apart from their sleeping. -/
def Handler.Alike (h₁ h₂ : Handler) : Prop :=
  ∀ inv depth st₁ st₂ metadata,
    (h₁.program ⟨inv, depth, st₁, metadata⟩).awake
      = (h₂.program ⟨inv, depth, st₂, metadata⟩).awake

/-- A handler that does not look at the settings. -/
def Handler.Blind (h : Handler) : Prop :=
  ∀ v settings, h.program { v with settings := settings } = h.program v

/-- **Sessions are alike** if they read texts the same way, as deep, for
the same document, and their handlers are alike. The limits they set may
be different ones. -/
structure Session.Alike (s₁ s₂ : Session) : Prop where
  delimiters : s₁.settings.delimiters = s₂.settings.delimiters
  maxDepth : s₁.settings.maxDepth = s₂.settings.maxDepth
  metadata : s₁.metadata = s₂.metadata
  handlers : ∀ name, Option.Rel Handler.Alike
    (s₁.registry.resolve? name) (s₂.registry.resolve? name)

/-- **A session in which handlers have time**: there is no time limit,
and handlers neither look at the settings nor do anything about the
expansion and its failures. -/
structure Session.Unhurried (s : Session) : Prop where
  timeout : s.settings.handlerTimeout = none
  straight : ∀ name h, s.registry.resolve? name = some h →
    ∀ v, (h.program v).Straight
  blind : ∀ name h, s.registry.resolve? name = some h → h.Blind

namespace Session

variable {s s₁ s₂ : Session}

/-- The session with another limit. -/
def withLimit (s : Session) (limit : Nat) : Session :=
  { s with settings := { s.settings with maxConcurrency := limit } }

/-- Sessions that are alike behave alike, without their sleeping. -/
theorem Alike.awake_eq (h : s₁.Alike s₂) :
    s₁.behaviour.awake = s₂.behaviour.awake := by
  have hp : s₁.behaviour.awake.program? = s₂.behaviour.awake.program? := by
    funext inv depth
    unfold Behaviour.awake behaviour
    dsimp only
    rw [h.metadata]
    have hr := h.handlers inv.name
    generalize s₁.registry.resolve? inv.name = r₁ at hr
    generalize s₂.registry.resolve? inv.name = r₂ at hr
    cases hr with
    | some hh => exact congrArg some (hh inv depth _ _ _)
    | none => rfl
  show Behaviour.mk _ _ s₁.behaviour.awake.program? = Behaviour.mk _ _ _
  rw [hp]
  show Behaviour.mk s₁.settings.delimiters s₁.settings.maxDepth _ = _
  rw [h.delimiters, h.maxDepth]
  rfl

/-- What a text gives is the same in sessions that are alike. -/
theorem Alike.evaluate_eq (h : s₁.Alike s₂) (text : Option Text) :
    (s₁.behaviour.evaluate 0 none 0 text).outcome
      = (s₂.behaviour.evaluate 0 none 0 text).outcome := by
  have he := s₁.behaviour.evaluate_awake 0 none 0 text
  rw [h.awake_eq, s₂.behaviour.evaluate_awake] at he
  exact (congrArg Evaluated.outcome he).symm

namespace Unhurried

theorem toStraight (hs : s.Unhurried) : s.Straight := by
  refine fun name h hr => ⟨hs.straight name h hr, fun _ time htime => ?_⟩
  unfold Settings.timeLimit at htime
  rw [hs.timeout] at htime
  cases htime

theorem withLimit (hs : s.Unhurried) (limit : Nat) :
    (s.withLimit limit).Unhurried where
  timeout := hs.timeout
  straight := hs.straight
  blind := hs.blind

/-- The limit does not matter to what handlers do. -/
theorem behaviour_withLimit (hs : s.Unhurried) (limit : Nat) :
    (s.withLimit limit).behaviour = s.behaviour :=
  s.behaviour_of_settings rfl rfl fun inv h hr depth =>
    hs.blind inv.name h hr ⟨inv, depth, s.settings, s.metadata⟩ _

end Unhurried

/-- **Limits and sleeping do not decide what a document gives.** Of
sessions that are alike, either both give the same text, or both fail.
And no limit keeps an expansion from ending: under each of them it takes
no longer than the handlers sleep, all of them together. -/
theorem expand_alike (h : s₁.Alike s₂) (h₁ : s₁.Unhurried)
    (h₂ : s₂.Unhurried) (hd : s₁.settings.delimiters.opening ≠ [])
    (text : Text) (now₁ now₂ : Moment) :
    ((∃ t, (s₁.expand text now₁ none).outcome = .returned t
        ∧ (s₂.expand text now₂ none).outcome = .returned t)
      ∨ ∃ f g, (s₁.expand text now₁ none).outcome = .failed f
        ∧ (s₂.expand text now₂ none).outcome = .failed g)
    ∧ ∀ limit, ((s₁.withLimit limit).expand text now₁ none).finish.instant
        ≤ now₁.instant
          + (s₁.behaviour.evaluate 0 none 0 (some text)).time := by
  have hd₂ : s₂.settings.delimiters.opening ≠ [] := by
    rw [← h.delimiters]
    exact hd
  have gives {s : Session} (h : s.Unhurried) :=
    gives_expand Failure.congruence_true h.toStraight
      (.inr fun _ _ _ _ _ _ _ _ => trivial)
  have g₁ := (gives h₁ hd text now₁).outcome
  have g₂ := (gives h₂ hd₂ text now₂).outcome
  rw [← h.evaluate_eq] at g₂
  refine ⟨g₁.both g₂, fun limit => ?_⟩
  have hl := gives (h₁.withLimit limit) hd text now₁
  rw [h₁.behaviour_withLimit] at hl
  exact hl.ge

/-- A session with a handler that sleeps and then has the body of its
block expanded. -/
def dawdling (time limit : Nat) : Session where
  settings := { maxConcurrency := limit }
  registry :=
    { bindings :=
        [("nap".toList,
          { shown := "nap".toList
            concurrent := true
            program v := .sleep time (.expand v.invocation.body fun
              | .ok t => .finish (.text t)
              | .error f => .fail f) })] }

/-- Naps one after the other, and no naps without a limit. -/
theorem expand_alike_dawdling :
    (dawdling 5 1).Alike (dawdling 0 0)
      ∧ (dawdling 5 1).Unhurried ∧ (dawdling 0 0).Unhurried
      ∧ (dawdling 5 1).settings.delimiters.opening ≠ []
      ∧ ((dawdling 0 0).expand
          "<% nap %>a<% nap %>b<% /nap %><% /nap %>".toList ⟨7, 3⟩
            none).outcome = .returned "ab".toList := by
  have ha : (dawdling 5 1).Alike (dawdling 0 0) := by
    refine ⟨rfl, rfl, rfl, fun name => ?_⟩
    unfold Registry.resolve? dawdling
    by_cases hn : "nap".toList = name
    · rw [List.find?_cons_of_pos (by simpa using hn),
        List.find?_cons_of_pos (by simpa using hn)]
      exact .some fun _ _ _ _ _ => rfl
    · rw [List.find?_cons_of_neg (by simpa using hn),
        List.find?_cons_of_neg (by simpa using hn)]
      exact .none
  have hu : ∀ time limit, (dawdling time limit).Unhurried := by
    refine fun time limit => ⟨rfl, fun name h hr v => ?_, fun name h hr => ?_⟩
    · obtain ⟨b, hb, rfl⟩ := Registry.exists_of_resolve? hr
      obtain rfl := List.mem_singleton.mp hb
      exact ⟨fun _ => trivial, fun _ => rfl⟩
    · obtain ⟨b, hb, rfl⟩ := Registry.exists_of_resolve? hr
      obtain rfl := List.mem_singleton.mp hb
      exact fun _ _ => rfl
  have hd : (dawdling 5 1).settings.delimiters.opening ≠ [] := by decide
  have hr : ((dawdling 5 1).expand
      "<% nap %>a<% nap %>b<% /nap %><% /nap %>".toList ⟨0, 0⟩
        none).outcome.result? = some "ab".toList := by decide +kernel
  refine ⟨ha, hu 5 1, hu 0 0, hd, ?_⟩
  rcases (expand_alike ha (hu 5 1) (hu 0 0) hd
    "<% nap %>a<% nap %>b<% /nap %><% /nap %>".toList ⟨0, 0⟩ ⟨7, 3⟩).1
      with ⟨t, h₁, h₂⟩ | ⟨f, g, h₁, _⟩
  · rw [h₁] at hr
    rw [h₂, Option.some.inj hr]
  · rw [h₁] at hr
    simp [Outcome.result?] at hr

end Session

end Shortcode
