import Shortcode.Proofs.Standard
import Shortcode.Proofs.Success

/-!
# Two ways to wrap a body

A handler that puts something around its body can go about it in two ways.
It can leave the body to be expanded when it has returned
(`Wrapper.leaving`), or ask for the body's expansion itself and return a
text (`Wrapper.asking`). What comes of it takes different ways through an
expansion: in the first case the body is expanded after all handlers of
its text are done, in the second while they run, in the handler's own call.

Nevertheless nobody can tell the difference by what an expansion returns,
or by which handlers it calls (`Session.expand_wrappers`): a body is
expanded at the same depth and for the same place, and its success does
not depend on when. That leaves the order of calls, and what happens if
an expansion fails: of several failures another one can come first.
-/

namespace Shortcode

/-! ## Wrappers -/

/-- What is put around a body. -/
structure Wrapper where
  before : Arguments → Text
  behind : Arguments → Text

namespace Wrapper

/-- A body; a self-closing use has an empty one. -/
def content (inv : Invocation) : Text := inv.body.getD []

/-- The wrapper that leaves its body to be expanded later. -/
def leaving (w : Wrapper) (v : View) : Program :=
  let inv := v.invocation
  .finish (.items .list
    [.text (w.before inv.arguments), .fragment ⟨some (content inv), true⟩,
      .text (w.behind inv.arguments)])

/-- The wrapper that asks for its body's expansion. -/
def asking (w : Wrapper) (v : View) : Program :=
  let inv := v.invocation
  .expand (some (content inv)) fun
    | .ok t =>
      .finish (.text (w.before inv.arguments ++ t ++ w.behind inv.arguments))
    | .error f => .fail f

end Wrapper

/-- **Handlers that differ as wrappers at most**: they are the same and do
not get over a failure, or they put the same around their bodies, the first
leaving its body and the second asking for it. -/
inductive Handler.Varies : Handler → Handler → Prop
  | same {h : Handler} : (∀ v, (h.program v).Unforgiving) → Varies h h
  | wrapper {h₁ h₂ : Handler} (w : Wrapper) :
      h₁.program = w.leaving → h₂.program = w.asking → Varies h₁ h₂

theorem Handler.Varies.unforgiving {h₁ h₂ : Handler} (h : h₁.Varies h₂)
    (v : View) :
    (h₁.program v).Unforgiving ∧ (h₂.program v).Unforgiving := by
  cases h with
  | same hs => exact ⟨hs v, hs v⟩
  | wrapper w h₁ h₂ =>
    rw [h₁, h₂]
    exact ⟨trivial, fun _ => trivial, fun _ => trivial⟩

/-- **Sessions that differ in wrappers at most**, under the same settings
and without a time limit. Expansions cannot be cancelled. -/
structure Session.Variants (s₁ s₂ : Session) : Prop where
  settings : s₂.settings = s₁.settings
  metadata : s₂.metadata = s₁.metadata
  handlerTimeout : s₁.settings.handlerTimeout = none
  left_cancellable : s₁.cancellable = false
  right_cancellable : s₂.cancellable = false
  handlers : ∀ name, Option.Rel Handler.Varies (s₁.registry.resolve? name)
    (s₂.registry.resolve? name)

/-! ## Successes -/

theorem Success.calling_andThen {α β : Type} (v : Visit) (x : Success α)
    (f : α → Success β) :
    (x.calling v).andThen f = (x.andThen f).calling v := by
  cases x with
  | none => rfl
  | some p =>
    cases hf : f p.1 with
    | none => simp [andThen, calling, hf]
    | some q => simp [andThen, calling, hf]

/-- A text between two others. -/
theorem Success.joined_framed (a b : Text) (x : Success Text) :
    joined [pure a, x, pure b] = x.andThen fun t => pure (a ++ t ++ b) := by
  simp only [joined, pure_andThen, andThen_assoc, List.append_nil,
    List.append_assoc]

namespace Session

variable {s₁ s₂ : Session}

/-- A name is known in both sessions, by handlers that differ as wrappers
at most, or in none of them. -/
theorem Variants.resolve?_cases (h : s₁.Variants s₂) (name : Text) :
    (s₁.registry.resolve? name = none ∧ s₂.registry.resolve? name = none)
      ∨ ∃ h₁ h₂, s₁.registry.resolve? name = some h₁
          ∧ s₂.registry.resolve? name = some h₂ ∧ h₁.Varies h₂ := by
  have hrel := h.handlers name
  generalize s₁.registry.resolve? name = o₁ at hrel ⊢
  generalize s₂.registry.resolve? name = o₂ at hrel ⊢
  cases hrel with
  | none => exact .inl ⟨rfl, rfl⟩
  | some hv => exact .inr ⟨_, _, rfl, rfl, hv⟩

theorem Variants.unforgiving (h : s₁.Variants s₂) :
    s₁.Unforgiving ∧ s₂.Unforgiving := by
  have hnone := Settings.timeLimit_of_none h.handlerTimeout
  have hlimit₁ (g : Handler) : s₁.limit? g = none :=
    limit?_of_timeLimit_eq_none hnone
  have hlimit₂ (g : Handler) : s₂.limit? g = none :=
    limit?_of_timeLimit_eq_none (h.settings ▸ hnone)
  refine ⟨⟨.inl h.left_cancellable, fun _ g _ time ht => ?_,
    fun name g hg v => ?_⟩, ⟨.inl h.right_cancellable,
      fun _ g _ time ht => ?_, fun name g hg v => ?_⟩⟩
  · simp [hlimit₁] at ht
  · rcases h.resolve?_cases name with ⟨hn, -⟩ | ⟨h₁, h₂, hs, -, hv⟩
    · simp [hn] at hg
    · obtain rfl := Option.some.inj (hs.symm.trans hg)
      exact (hv.unforgiving v).1
  · simp [hlimit₂] at ht
  · rcases h.resolve?_cases name with ⟨-, hn⟩ | ⟨h₁, h₂, -, hs, hv⟩
    · simp [hn] at hg
    · obtain rfl := Option.some.inj (hs.symm.trans hg)
      exact (hv.unforgiving v).2

/-- What the call of a handler that finishes at once and what it leaves come
to. -/
theorem callSuccess_finish (s : Session) {h : Handler} {inv : Invocation}
    {depth : Nat} {o : Output} {fs : List Fragment}
    (ho : h.program ⟨inv, depth, s.settings, s.metadata⟩ = .finish o)
    (hf : o.fragments = .ok fs)
    (expand : Invocation → Option Text → Success Text) :
    ((s.callSuccess h depth (expand inv) inv).andThen fun fs =>
        .joined ((fs.map (partOf inv)).map (Part.success expand)))
      = .calling (inv, depth)
          (.joined ((fs.map (partOf inv)).map (Part.success expand))) := by
  rw [callSuccess, ho, Success.calling_andThen, Program.success,
    Success.mapResult_pure hf, Success.pure_andThen]

/-- What a wrapper's call and the body's expansion come to, if it leaves its
body. -/
theorem callSuccess_leaving (s : Session) {h : Handler} {w : Wrapper}
    (hw : h.program = w.leaving) (depth : Nat)
    (expand : Invocation → Option Text → Success Text) (inv : Invocation) :
    ((s.callSuccess h depth (expand inv) inv).andThen fun fs =>
        .joined ((fs.map (partOf inv)).map (Part.success expand)))
      = .calling (inv, depth)
          ((expand inv (some (Wrapper.content inv))).andThen fun t => .pure
            (w.before inv.arguments ++ t ++ w.behind inv.arguments)) := by
  have hfragments : (Output.items .list
      [.text (w.before inv.arguments),
        .fragment ⟨some (Wrapper.content inv), true⟩,
        .text (w.behind inv.arguments)]).fragments
      = .ok [⟨some (w.before inv.arguments), false⟩,
          ⟨some (Wrapper.content inv), true⟩,
          ⟨some (w.behind inv.arguments), false⟩] := rfl
  rw [s.callSuccess_finish (congrFun hw _) hfragments]
  exact congrArg _ (Success.joined_framed _ _ _)

/-- It is the same if it asks for its body. -/
theorem callSuccess_asking (s : Session) {h : Handler} {w : Wrapper}
    (hw : h.program = w.asking) (depth : Nat)
    (expand : Invocation → Option Text → Success Text) (inv : Invocation) :
    ((s.callSuccess h depth (expand inv) inv).andThen fun fs =>
        .joined ((fs.map (partOf inv)).map (Part.success expand)))
      = .calling (inv, depth)
          ((expand inv (some (Wrapper.content inv))).andThen fun t => .pure
            (w.before inv.arguments ++ t ++ w.behind inv.arguments)) := by
  have hfragments (t : Text) :
      (Output.text t).fragments = .ok [⟨some t, false⟩] := rfl
  rw [callSuccess, hw, Success.calling_andThen, Wrapper.asking,
    Program.success, Success.mapResult_andThen, Success.andThen_assoc]
  congr 2
  funext t
  rw [Program.success, Success.mapResult_pure (hfragments _),
    Success.pure_andThen]
  show Success.joined [.pure (w.before inv.arguments ++ t
    ++ w.behind inv.arguments)] = _
  simp only [Success.joined, Success.pure_andThen, List.append_nil]

/-- **A segment succeeds alike** in sessions that differ in wrappers at
most. -/
theorem Variants.segmentSuccess_eq (h : s₁.Variants s₂) (depth : Nat)
    (expand : Invocation → Option Text → Success Text) :
    s₁.segmentSuccess depth expand = s₂.segmentSuccess depth expand := by
  funext segment
  cases segment with
  | literal => rfl
  | invocation inv =>
    rw [segmentSuccess, segmentSuccess, handled, handled]
    rcases h.resolve?_cases inv.name with ⟨h₁, h₂⟩ | ⟨h₁, h₂, hr₁, hr₂, hv⟩
    · rw [h₁, h₂]
      rfl
    · rw [hr₁, hr₂, Option.elim_some, Option.elim_some]
      cases hv with
      | same =>
        rw [callSuccess, callSuccess, h.settings, h.metadata]
      | wrapper w hw₁ hw₂ =>
        rw [callSuccess_leaving s₁ hw₁, callSuccess_asking s₂ hw₂]

/-- **A text succeeds alike.** -/
theorem Variants.success_eq (h : s₁.Variants s₂) (levels : Nat) :
    s₁.success levels = s₂.success levels := by
  induction levels with
  | zero =>
    funext depth origin text
    rw [success, success]
    unfold read
    rw [h.settings]
  | succ levels ih =>
    funext depth origin text
    rw [success, success, ih, h.segmentSuccess_eq]
    unfold read
    rw [h.settings]

/-- **Nobody can tell how a wrapper has its body expanded.** Take two
sessions under the same settings, whatever they are except that handlers
have no time limit, in which expansions cannot be cancelled. Let them know
the same names, and let a name's handler be the same in both, or a wrapper
that leaves its body in the one and asks for it in the other. Handlers that
are the same may do anything but return after an expansion they asked for
has failed. Then the expansion of a content returns a text in both sessions
or in none, and the same text; and if it does, the same calls are made in
both, as often in the one as in the other: for the same invocations, with
their arguments, bodies and offsets, and at the same depths. -/
theorem expand_wrappers (h : s₁.Variants s₂) (text : Text) (now : Moment) :
    let r₁ := s₁.expand text now none
    let r₂ := s₂.expand text now none
    (∀ t, r₁.outcome = .returned t ↔ r₂.outcome = .returned t)
      ∧ ∀ t, r₁.outcome = .returned t →
          (r₁.calls.map Call.visit).Perm (r₂.calls.map Call.visit) := by
  intro r₁ r₂
  have hdoc : s₂.documentSuccess text = s₁.documentSuccess text := by
    rw [documentSuccess, documentSuccess, h.settings, h.success_eq]
  have h₁ : r₁.Succeeds (s₁.documentSuccess text) :=
    succeeds_expand h.unforgiving.1 text now
  have h₂ : r₂.Succeeds (s₁.documentSuccess text) :=
    hdoc ▸ succeeds_expand h.unforgiving.2 text now
  refine ⟨fun t => ?_, fun t ht => ?_⟩
  · rw [← Outcome.result?_eq_some_iff, ← Outcome.result?_eq_some_iff,
      h₁.result, h₂.result]
  · rcases h₁.cases with ⟨a, -, hx⟩ | ⟨hn, -⟩
    · exact Multiset.coe_eq_coe.mp (h₂.calls _ hx).symm
    · rw [ht] at hn
      simp [Outcome.result?] at hn

/-- A session with a wrapper that puts brackets around its body, in one way
or the other, and a handler that takes some time. -/
def bracketing (way : Wrapper → View → Program) : Session where
  settings := { maxConcurrency := 1 }
  registry :=
    { bindings :=
        [("in".toList,
          { shown := "in".toList
            concurrent := true
            program := way ⟨fun _ => ['['], fun _ => [']']⟩ }),
          ("nap".toList,
            { shown := "nap".toList
              concurrent := true
              program _ := .sleep 3 (.finish (.text ['x'])) })] }

/-- Wrappers in each other. The calls come in another order. -/
theorem expand_wrappers_bracketing :
    let text := "<%in%>a<%in%><%nap/%><%/in%><%/in%><%in/%><%nap/%>".toList
    let leaving := bracketing Wrapper.leaving
    let asking := bracketing Wrapper.asking
    let r₁ := leaving.expand text ⟨0, 0⟩ none
    let r₂ := asking.expand text ⟨0, 0⟩ none
    leaving.Variants asking
      ∧ r₁.outcome = .returned "[a[x]][]x".toList
      ∧ r₂.outcome = .returned "[a[x]][]x".toList
      ∧ (r₁.calls.map Call.visit).Perm (r₂.calls.map Call.visit)
      ∧ r₁.calls.map Call.visit ≠ r₂.calls.map Call.visit := by
  intro text leaving asking r₁ r₂
  have hv : leaving.Variants asking := by
    refine ⟨rfl, rfl, rfl, rfl, rfl, fun name => ?_⟩
    show Option.Rel _ (Registry.resolve? ⟨[_, _], _⟩ name)
      (Registry.resolve? ⟨[_, _], _⟩ name)
    rw [Registry.resolve?_cons, Registry.resolve?_cons,
      Registry.resolve?_cons, Registry.resolve?_cons]
    dsimp only
    split
    · exact .some (.wrapper _ rfl rfl)
    split
    · exact .some (.same fun _ => trivial)
    · exact .none
  have ho : r₁.outcome = .returned "[a[x]][]x".toList :=
    Outcome.result?_eq_some_iff.mp (by decide +kernel)
  obtain ⟨hreturned, hcalls⟩ := expand_wrappers hv text ⟨0, 0⟩
  exact ⟨hv, ho, (hreturned _).mp ho, hcalls _ ho, by decide +kernel⟩

end Session

end Shortcode
