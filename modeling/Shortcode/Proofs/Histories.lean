import Mathlib
import Shortcode.Proofs.Occurrence
import Shortcode.Registry.Operation

/-!
# Histories of a registry

A registry is filled by operations of several kinds, in any order. Each of
them can be refused, and an operation that adds several can stop in the
middle.

What a registry holds after a history is told by the bindings that were
*made* in it, in the order in which they were made, and by nothing else
(`Registry.made`, `Registry.log`). A binding is made by each addition that
was not refused; a later one replaces an earlier one of its name
(`Binding.mapOf`). `Registry.Reflects` says that a registry agrees with such
a map in everything it can be asked.

Which addition is refused, and why, does not depend on how the registry got
where it is: of all that is wrong with an addition the first in a fixed
order is told (`Registry.faults`).
-/

namespace Shortcode

/-- A binding that was made: it may have been allowed to replace another
one. -/
structure Binding where
  name : Text
  handler : Handler
  overwrite : Bool
deriving Inhabited

namespace Binding

/-- A map from names to handlers, after bindings were made. -/
def enter (m : Text → Option Handler) (bs : List Binding) :
    Text → Option Handler :=
  bs.foldl (fun m b => Function.update m b.name (some b.handler)) m

/-- **The map that bindings make up**, one after the other. -/
def mapOf (bs : List Binding) : Text → Option Handler :=
  enter (fun _ => none) bs

theorem enter_append (m : Text → Option Handler) (bs cs : List Binding) :
    enter m (bs ++ cs) = enter (enter m bs) cs :=
  List.foldl_append ..

/-- Bindings of other names do not change what a name is bound to. -/
theorem enter_eq_of_forall_ne {m : Text → Option Handler} {bs : List Binding}
    {name : Text} (h : ∀ b ∈ bs, b.name ≠ name) : enter m bs name = m name := by
  induction bs generalizing m with
  | nil => rfl
  | cons b bs ih =>
    obtain ⟨hb, hbs⟩ := List.forall_mem_cons.mp h
    exact (ih hbs).trans (Function.update_of_ne (Ne.symm hb) ..)

end Binding

namespace Registry

variable {r : Registry} {name : Value} {candidate : Candidate}
  {overwrite : Bool}

/-! ## Operations -/

/-- The operation freezes the registry. -/
def Operation.Freezes : Operation → Prop
  | .freeze | .engine _ => True
  | _ => False

/-- The operation adds one binding at most. -/
def Operation.IsSingle : Operation → Prop
  | .register .. | .decorate .. => True
  | _ => False

/-- The binding that an addition makes, if it is not refused. -/
def binding? (r : Registry) (name : Value) (candidate : Candidate)
    (overwrite : Bool) : Option Binding :=
  match nameOf? name, r.register name candidate overwrite with
  | some n, .ok (_, h) => some ⟨n, h, overwrite⟩
  | _, _ => none

/-- The bindings that additions make, up to the first that is refused. -/
def loaded (r : Registry) (overwrite : Bool) :
    List (Value × Candidate) → List Binding
  | [] => []
  | (name, candidate) :: rest =>
    match r.binding? name candidate overwrite with
    | some b => b :: (r.add name candidate overwrite).1.loaded overwrite rest
    | none => []

/-- **The bindings that an operation makes.** -/
def made (r : Registry) : Operation → List Binding
  | .register name candidate overwrite =>
    (r.binding? name candidate overwrite).toList
  | .decorate name candidate overwrite =>
    (r.binding? name candidate.asFunction overwrite).toList
  | .load bindings overwrite => r.loaded overwrite bindings
  | .freeze | .engine _ => []

/-- **The bindings that were made in a history**, in order. -/
def log (r : Registry) : List Operation → List Binding
  | [] => []
  | op :: ops => r.made op ++ (r.perform op).1.log ops

/-! ## What is wrong with an addition -/

/-- A registry that is frozen takes nothing. -/
def frozenFault? (r : Registry) (name : Value) : Option Failure :=
  if r.frozen then some (.error { cause := .registryFrozen name }) else none

/-- A handler is bound to a name and to nothing else. -/
def nameFault? (name : Value) : Option Failure :=
  if (nameOf? name).isNone then
    some (.fault .value ("invalid shortcode name: ".toList ++ name.shown))
  else none

/-- A name that is bound is not bound again unless that is asked for. -/
def duplicateFault? (r : Registry) (overwrite : Bool) : Value → Option Failure
  | .text n =>
    if r.contains n && !overwrite then
      some (.error { cause := .duplicateName, name := some n })
    else none
  | _ => none

/-- What is bound has to be something that can be called. -/
def handlerFault? (name : Value) (candidate : Candidate) : Option Failure :=
  if candidate.handler?.isNone then
    some (.fault .type ("handler for ".toList ++ name.shown ++
      " must define execute() or be callable".toList))
  else none

/-- **All that is wrong with an addition**, in the order in which it is
looked at. -/
def faults (r : Registry) (name : Value) (candidate : Candidate)
    (overwrite : Bool) : List Failure :=
  [r.frozenFault? name, nameFault? name, r.duplicateFault? overwrite name,
    handlerFault? name candidate].reduceOption

theorem nameOf?_eq_some_iff {n : Text} :
    nameOf? name = some n ↔ name = .text n ∧ IsName n := by
  cases name with
  | text t =>
    simp only [nameOf?, isName_iff, Option.ite_none_right_eq_some,
      Option.some.injEq, Value.text.injEq]
    constructor
    · rintro ⟨ht, rfl⟩
      exact ⟨rfl, ht⟩
    · rintro ⟨rfl, ht⟩
      exact ⟨ht, rfl⟩
  | _ => simp [nameOf?]

/-- **Of all that is wrong the first is told**, and an addition with which
nothing is wrong is made. -/
theorem register_cases (r : Registry) (name : Value) (candidate : Candidate)
    (overwrite : Bool) :
    (∃ f, r.register name candidate overwrite = .error f
        ∧ (r.faults name candidate overwrite).head? = some f)
      ∨ ∃ n h, r.register name candidate overwrite = .ok (r.bind n h, h)
        ∧ r.faults name candidate overwrite = []
        ∧ nameOf? name = some n ∧ r.frozen = false
        ∧ (r.contains n = true → overwrite = true) := by
  unfold register faults
  split
  · next hf => exact .inl ⟨_, rfl, by simp [frozenFault?, hf]⟩
  · next hf =>
    have h₁ : r.frozenFault? name = none := if_neg hf
    split
    · next hn => exact .inl ⟨_, rfl, by simp [h₁, nameFault?, hn]⟩
    · next n hn =>
      obtain ⟨rfl, -⟩ := nameOf?_eq_some_iff.mp hn
      have h₂ : nameFault? (.text n) = none := if_neg (by simp [hn])
      split
      · next hd =>
        refine .inl ⟨_, rfl, ?_⟩
        simp only [h₁, h₂, duplicateFault?, if_pos hd]
        rfl
      · next hd =>
        have h₃ : r.duplicateFault? overwrite (.text n) = none := if_neg hd
        split
        · next hc =>
          refine .inl ⟨_, rfl, ?_⟩
          simp only [h₁, h₂, h₃, handlerFault?, hc]
          rfl
        · next h hc =>
          refine .inr ⟨n, h, rfl, ?_, hn, by simpa using hf, by simpa using hd⟩
          simp only [h₁, h₂, h₃, handlerFault?, hc]
          rfl

/-- **An addition is refused or made.** If it is refused it leaves the
registry as it is. -/
theorem add_cases (r : Registry) (name : Value) (candidate : Candidate)
    (overwrite : Bool) :
    (∃ f, r.add name candidate overwrite = (r, some f)
        ∧ (r.faults name candidate overwrite).head? = some f
        ∧ r.binding? name candidate overwrite = none)
      ∨ ∃ n h, r.add name candidate overwrite = (r.bind n h, none)
        ∧ r.faults name candidate overwrite = []
        ∧ r.binding? name candidate overwrite = some ⟨n, h, overwrite⟩
        ∧ IsName n ∧ r.frozen = false
        ∧ (r.contains n = true → overwrite = true) := by
  unfold add binding?
  rcases r.register_cases name candidate overwrite with
    ⟨f, hf, hfaults⟩ | ⟨n, h, hok, hfaults, hn, hrest⟩
  · refine .inl ⟨f, by rw [hf], hfaults, ?_⟩
    rw [hf]
    cases nameOf? name <;> rfl
  · refine .inr ⟨n, h, by rw [hok], hfaults, by rw [hok, hn], ?_, hrest⟩
    exact (nameOf?_eq_some_iff.mp hn).2

/-- An addition is refused for the first thing that is wrong with it. -/
theorem refused_add (r : Registry) (name : Value) (candidate : Candidate)
    (overwrite : Bool) :
    (r.add name candidate overwrite).2
      = (r.faults name candidate overwrite).head? := by
  rcases r.add_cases name candidate overwrite with
    ⟨f, hadd, hfaults, -⟩ | ⟨n, h, hadd, hfaults, -⟩
  · rw [hadd, hfaults]
  · rw [hadd, hfaults]
    rfl

theorem add_eq_of_refused (r : Registry) {name : Value} {candidate : Candidate}
    {overwrite : Bool} (h : (r.add name candidate overwrite).2 ≠ none) :
    (r.add name candidate overwrite).1 = r := by
  rcases r.add_cases name candidate overwrite with
    ⟨f, hadd, -⟩ | ⟨n, h', hadd, -⟩
  · rw [hadd]
  · rw [hadd] at h
    exact absurd rfl h

/-! ## What a registry can be asked -/

/-- **A registry that binds each name once**, and nothing but names. -/
structure Keyed (r : Registry) : Prop where
  nodup : (r.bindings.map Prod.fst).Nodup
  isName : ∀ n ∈ r.bindings.map Prod.fst, IsName n

theorem keyed_empty : Keyed {} := ⟨List.nodup_nil, by simp⟩

theorem contains_iff {n : Text} :
    r.contains n = true ↔ n ∈ r.bindings.map Prod.fst := by
  simp [contains, resolve?, List.mem_map]

theorem contains_bind (r : Registry) (n other : Text) (h : Handler) :
    (r.bind n h).contains other = true
      ↔ other = n ∨ r.contains other = true := by
  unfold contains
  rw [resolve?_bind]
  split <;> simp_all

/-- A name that is bound keeps its place, another one comes last. -/
theorem map_fst_put (n : Text) (h : Handler) (bs : List (Text × Handler)) :
    (put n h bs).map Prod.fst
      = if n ∈ bs.map Prod.fst then bs.map Prod.fst
        else bs.map Prod.fst ++ [n] := by
  induction bs with
  | nil => rfl
  | cons b bs ih =>
    rw [put]
    split
    · next hb => simp [hb]
    · next hb =>
      have hn : n ≠ b.1 := Ne.symm hb
      rw [List.map_cons, ih, List.map_cons]
      simp only [List.mem_cons, hn, false_or]
      split <;> rfl

theorem Keyed.bind (hr : r.Keyed) {n : Text} (hn : IsName n) (h : Handler) :
    (r.bind n h).Keyed := by
  have hkeys := map_fst_put n h r.bindings
  split at hkeys
  · exact ⟨hkeys ▸ hr.nodup, hkeys ▸ hr.isName⟩
  · next hnew =>
    constructor
    · show ((put n h r.bindings).map Prod.fst).Nodup
      rw [hkeys, ← List.concat_eq_append]
      exact hr.nodup.concat hnew
    · show ∀ m ∈ (put n h r.bindings).map Prod.fst, IsName m
      rw [hkeys]
      intro m hm
      rcases List.mem_append.mp hm with hm | hm
      · exact hr.isName m hm
      · rwa [List.mem_singleton.mp hm]

/-- **A registry agrees with a map** in everything it can be asked. -/
structure Reflects (r : Registry) (m : Text → Option Handler) : Prop where
  resolve : ∀ name, r.resolve? name = m name
  contains : ∀ name, r.contains name = (m name).isSome
  names_sorted : r.names.Pairwise (· < ·)
  mem_names : ∀ name, name ∈ r.names ↔ (m name).isSome = true
  size : r.size = Set.ncard {name | (m name).isSome = true}
  isName : ∀ name, (m name).isSome = true → IsName name

theorem mem_names {n : Text} : n ∈ r.names ↔ r.contains n = true :=
  List.mem_mergeSort.trans contains_iff.symm

theorem Keyed.names_sorted (hr : r.Keyed) : r.names.Pairwise (· < ·) := by
  have hle : r.names.Pairwise (· ≤ ·) := by
    refine (List.pairwise_mergeSort (fun a b c h h' => ?_) (fun a b => ?_)
      _).imp fun h => ?_
    · simp only [Bool.not_eq_true', decide_eq_false_iff_not, not_lt] at *
      exact h.trans h'
    · simpa using (le_total a b)
    · simpa using h
  have hne : r.names.Nodup := (List.mergeSort_perm _ _).nodup_iff.mpr hr.nodup
  exact hle.imp₂ (fun _ _ h h' => lt_of_le_of_ne h h') hne

/-- A registry agrees with the map it looks names up in. -/
theorem Keyed.reflects (hr : r.Keyed) : r.Reflects r.resolve? where
  resolve := fun _ => rfl
  contains := fun _ => rfl
  names_sorted := hr.names_sorted
  mem_names := fun _ => mem_names
  size := by
    have hset : {n | (r.resolve? n).isSome = true}
        = ((r.bindings.map Prod.fst).toFinset : Set Text) := by
      ext n
      rw [List.coe_toFinset]
      exact contains_iff
    rw [hset, Set.ncard_coe_finset, List.toFinset_card_of_nodup hr.nodup,
      List.length_map]
    rfl
  isName := fun n hn => hr.isName n (contains_iff.mp hn)

/-! ## What an operation does -/

/-- **What additions that are made do to a registry**: each binds a name, to
which nothing is bound yet unless that was asked for. -/
inductive Binds : Registry → List Binding → Registry → Prop
  | nil {r : Registry} : Binds r [] r
  | cons {r r' : Registry} {b : Binding} {bs : List Binding} :
      IsName b.name → r.frozen = false →
      (r.contains b.name = true → b.overwrite = true) →
      Binds (r.bind b.name b.handler) bs r' → Binds r (b :: bs) r'

namespace Binds

variable {r' : Registry} {bs : List Binding}

theorem resolve?_eq (h : Binds r bs r') :
    r'.resolve? = Binding.enter r.resolve? bs := by
  induction h with
  | nil => rfl
  | @cons r r' b bs _ _ _ _ ih =>
    have hbind : (r.bind b.name b.handler).resolve?
        = Function.update r.resolve? b.name (some b.handler) := by
      funext other
      rw [resolve?_bind, Function.update_apply]
    rw [ih, hbind]
    rfl

theorem keyed (h : Binds r bs r') (hr : r.Keyed) : r'.Keyed := by
  induction h with
  | nil => exact hr
  | cons hn _ _ _ ih => exact ih (hr.bind hn _)

theorem frozen_eq (h : Binds r bs r') : r'.frozen = r.frozen := by
  induction h with
  | nil => rfl
  | cons _ _ _ _ ih => exact ih

theorem eq_of_frozen (h : Binds r bs r') (hf : r.frozen = true) : r' = r := by
  cases h with
  | nil => rfl
  | cons _ hfree => simp [hf] at hfree

/-- A name keeps being bound. -/
theorem contains (h : Binds r bs r') {n : Text} (hn : r.contains n = true) :
    r'.contains n = true := by
  induction h with
  | nil => exact hn
  | cons _ _ _ _ ih => exact ih ((contains_bind ..).mpr (.inr hn))

/-- A name that is bound is bound again only where that was asked for. -/
theorem overwrites (h : Binds r bs r') {n : Text} (hn : r.contains n = true) :
    ∀ b ∈ bs, b.name = n → b.overwrite = true := by
  induction h with
  | nil => simp
  | cons _ _ hdup _ ih =>
    refine List.forall_mem_cons.mpr ⟨fun hb => hdup (hb ▸ hn), ?_⟩
    exact ih ((contains_bind ..).mpr (.inr hn))

end Binds

theorem binds_add (r : Registry) (name : Value) (candidate : Candidate)
    (overwrite : Bool) :
    Binds r (r.binding? name candidate overwrite).toList
      (r.add name candidate overwrite).1 := by
  rcases r.add_cases name candidate overwrite with
    ⟨f, hadd, -, hb⟩ | ⟨n, h, hadd, -, hb, hn, hf, hdup⟩
  · rw [hadd, hb]
    exact .nil
  · rw [hadd, hb]
    exact .cons hn hf hdup .nil

/-- Adding several goes on behind an addition that was made, and stops at
one that was refused. -/
theorem load_cons (r : Registry) (overwrite : Bool) (b : Value × Candidate)
    (rest : List (Value × Candidate)) :
    r.load overwrite (b :: rest)
      = match r.add b.1 b.2 overwrite with
        | (r', none) => r'.load overwrite rest
        | (r', some f) => (r', some f) := by
  rw [load, add]
  cases r.register b.1 b.2 overwrite <;> rfl

theorem binds_load (r : Registry) (overwrite : Bool)
    (bindings : List (Value × Candidate)) :
    Binds r (r.loaded overwrite bindings) (r.load overwrite bindings).1 := by
  induction bindings generalizing r with
  | nil => exact .nil
  | cons b rest ih =>
    rw [load_cons, loaded]
    rcases r.add_cases b.1 b.2 overwrite with
      ⟨f, hadd, -, hb⟩ | ⟨n, h, hadd, -, hb, hn, hf, hdup⟩
    · rw [hadd, hb]
      exact .nil
    · rw [hadd, hb]
      exact .cons hn hf hdup (ih _)

/-- **What an operation does**: it makes its bindings, or it freezes the
registry. -/
theorem perform_cases (r : Registry) (op : Operation) :
    (op.Freezes ∧ r.made op = [] ∧ (r.perform op).1 = r.freeze)
      ∨ ¬op.Freezes ∧ Binds r (r.made op) (r.perform op).1 := by
  cases op with
  | register => exact .inr ⟨id, r.binds_add ..⟩
  | decorate => exact .inr ⟨id, r.binds_add ..⟩
  | load => exact .inr ⟨id, r.binds_load ..⟩
  | freeze => exact .inl ⟨trivial, rfl, rfl⟩
  | engine => exact .inl ⟨trivial, rfl, rfl⟩

/-! ## What a history does -/

theorem run_cons (r : Registry) (op : Operation) (ops : List Operation) :
    r.run (op :: ops) = (r.perform op).1.run ops := rfl

theorem Keyed.run (hr : r.Keyed) (ops : List Operation) :
    (r.run ops).Keyed := by
  induction ops generalizing r with
  | nil => exact hr
  | cons op ops ih =>
    rw [run_cons]
    rcases r.perform_cases op with ⟨-, -, hop⟩ | ⟨-, hop⟩
    · rw [hop]
      exact ih ⟨hr.nodup, hr.isName⟩
    · exact ih (hop.keyed hr)

/-- **A registry holds what was bound in its history.** -/
theorem resolve?_run (r : Registry) (ops : List Operation) :
    (r.run ops).resolve? = Binding.enter r.resolve? (r.log ops) := by
  induction ops generalizing r with
  | nil => rfl
  | cons op ops ih =>
    rw [run_cons, ih, log, Binding.enter_append]
    congr 1
    rcases r.perform_cases op with ⟨-, hmade, hop⟩ | ⟨-, hop⟩
    · rw [hop, hmade]
      rfl
    · exact hop.resolve?_eq

theorem frozen_run (r : Registry) (ops : List Operation) :
    (r.run ops).frozen = true ↔ r.frozen = true ∨ ∃ op ∈ ops, op.Freezes := by
  induction ops generalizing r with
  | nil => simp [run]
  | cons op ops ih =>
    rw [run_cons, ih, List.exists_mem_cons_iff]
    rcases r.perform_cases op with ⟨hfreezes, -, hop⟩ | ⟨hfreezes, hop⟩
    · simp [hop, freeze, hfreezes]
    · simp [hop.frozen_eq, hfreezes]

/-- A registry that is frozen stays as it is. -/
theorem run_of_frozen (hf : r.frozen = true) (ops : List Operation) :
    r.run ops = r := by
  induction ops with
  | nil => rfl
  | cons op ops ih =>
    have hop : (r.perform op).1 = r := by
      rcases r.perform_cases op with ⟨-, -, hop⟩ | ⟨-, hop⟩
      · rw [hop, freeze, ← hf]
      · exact hop.eq_of_frozen hf
    rw [run_cons, hop, ih]

/-- A name that is bound is bound again in a history only where that was
asked for. -/
theorem overwrite_of_mem_log {n : Text} (hn : r.contains n = true)
    (ops : List Operation) :
    ∀ b ∈ r.log ops, b.name = n → b.overwrite = true := by
  induction ops generalizing r with
  | nil => simp [log]
  | cons op ops ih =>
    rw [log]
    refine List.forall_mem_append.mpr ?_
    rcases r.perform_cases op with ⟨-, hmade, hop⟩ | ⟨-, hop⟩
    · rw [hmade, hop]
      exact ⟨by simp, ih (r := r.freeze) hn⟩
    · exact ⟨hop.overwrites hn, ih (hop.contains hn)⟩

/-- **A binding stays** as long as no other one of its name is made that was
allowed to replace it. -/
theorem resolve?_run_of_not_overwritten {n : Text} {h : Handler}
    (hn : r.resolve? n = some h) {ops : List Operation}
    (hops : ∀ b ∈ r.log ops, b.name = n → b.overwrite = false) :
    (r.run ops).resolve? n = some h := by
  have hcontains : r.contains n = true := by
    rw [contains, hn]
    rfl
  rw [resolve?_run, Binding.enter_eq_of_forall_ne, hn]
  intro b hb hbn
  have hover := overwrite_of_mem_log hcontains ops b hb hbn
  rw [hops b hb hbn] at hover
  simp at hover

/-! ## Adding several -/

/-- The registration of one of several. -/
def registering (overwrite : Bool) (b : Value × Candidate) : Operation :=
  .register b.1 b.2 overwrite

/-- Why the operations of a history were refused, for each of them that
was. -/
def answers (r : Registry) : List Operation → List (Option Failure)
  | [] => []
  | op :: ops => (r.perform op).2 :: (r.perform op).1.answers ops

/-- **Adding several is registering them one after the other**, up to the
first that is refused, if one is. -/
theorem load_eq_run (r : Registry) (overwrite : Bool)
    (bindings : List (Value × Candidate)) :
    ∃ front back f, bindings = front ++ back
      ∧ r.load overwrite bindings
          = (r.run (front.map (registering overwrite)), f)
      ∧ (f = none ∧ back = []
            ∧ (∀ a ∈ r.answers (front.map (registering overwrite)), a = none)
          ∨ ∃ init, f.isSome = true
            ∧ r.answers (front.map (registering overwrite)) = init ++ [f]
            ∧ ∀ a ∈ init, a = none) := by
  induction bindings generalizing r with
  | nil => exact ⟨[], [], none, rfl, rfl, .inl ⟨rfl, rfl, by simp [answers]⟩⟩
  | cons b rest ih =>
    rw [load_cons]
    rcases r.add_cases b.1 b.2 overwrite with ⟨f, hadd, -⟩ | ⟨n, h, hadd, -⟩
    · have hop : r.perform (registering overwrite b) = (r, some f) := hadd
      refine ⟨[b], rest, some f, rfl, ?_, .inr ⟨[], rfl, ?_, by simp⟩⟩
      · rw [hadd, List.map_singleton, run_cons, hop]
        rfl
      · rw [List.map_singleton, answers, hop]
        rfl
    · have hop : r.perform (registering overwrite b) = (r.bind n h, none) :=
        hadd
      obtain ⟨front, back, f, rfl, hload, hf⟩ := ih (r.bind n h)
      refine ⟨b :: front, back, f, rfl, ?_, ?_⟩
      · rw [hadd, List.map_cons, run_cons, hop]
        exact hload
      · rw [List.map_cons, answers, hop]
        rcases hf with ⟨rfl, rfl, hnone⟩ | ⟨init, hsome, hinit, hnone⟩
        · exact .inl ⟨rfl, rfl, by simpa using hnone⟩
        · exact .inr ⟨none :: init, hsome, by rw [hinit]; rfl,
            by simpa using hnone⟩

/-! ## Every history -/

/-- **A registry after any history** holds the bindings that were made in
it. An addition that is refused leaves it as it is, and the first thing that
is wrong with an addition is what it is refused for; adding several is
registering them in turn up to the first that is refused. A binding stays
until it is replaced by one that was allowed to, and everything stays once
the registry is frozen. -/
theorem reflects_run (past : List Operation) :
    let r := run {} past
    r.Reflects (Binding.mapOf (log {} past))
      ∧ (r.frozen = true ↔ ∃ op ∈ past, op.Freezes)
      ∧ (∀ op : Operation, op.IsSingle → (r.perform op).2 ≠ none →
          (r.perform op).1 = r)
      ∧ (∀ name candidate overwrite,
          (r.perform (.register name candidate overwrite)).2
            = (r.faults name candidate overwrite).head?
          ∧ (r.perform (.decorate name candidate overwrite)).2
            = (r.faults name candidate.asFunction overwrite).head?)
      ∧ (∀ overwrite bindings, ∃ front back f, bindings = front ++ back
          ∧ r.perform (.load bindings overwrite)
            = (r.run (front.map (registering overwrite)), f)
          ∧ (f = none ∧ back = []
                ∧ (∀ a ∈ r.answers (front.map (registering overwrite)),
                    a = none)
              ∨ ∃ init, f.isSome = true
                ∧ r.answers (front.map (registering overwrite)) = init ++ [f]
                ∧ ∀ a ∈ init, a = none))
      ∧ (∀ n h, r.resolve? n = some h → ∀ future : List Operation,
          (∀ b ∈ r.log future, b.name = n → b.overwrite = false) →
            (r.run future).resolve? n = some h)
      ∧ (r.frozen = true → ∀ future, r.run future = r) := by
  intro r
  have hkeyed : r.Keyed := keyed_empty.run past
  have hmap : r.resolve? = Binding.mapOf (log {} past) := resolve?_run {} past
  refine ⟨hmap ▸ hkeyed.reflects, ?_, ?_, ?_, r.load_eq_run, ?_, ?_⟩
  · rw [frozen_run]
    simp
  · intro op hop hrefused
    cases op with
    | register name c ow => exact r.add_eq_of_refused hrefused
    | decorate name c ow => exact r.add_eq_of_refused hrefused
    | load => exact hop.elim
    | freeze => exact hop.elim
    | engine => exact hop.elim
  · exact fun name c ow => ⟨r.refused_add .., r.refused_add ..⟩
  · exact fun n h hn future hfuture =>
      resolve?_run_of_not_overwritten hn hfuture
  · exact fun hf future => run_of_frozen hf future

/-- Several are added, and the second of them has no name: the first stays,
also when it is registered again. -/
theorem reflects_run_partial :
    let note (shown : String) : Candidate :=
      .function shown.toList false fun _ => .finish (.text shown.toList)
    let past : List Operation := [.load [(.text "a".toList, note "f"),
      (.text "-".toList, note "g"), (.text "b".toList, note "g")] false]
    let again : Operation := .register (.text "a".toList) (note "g") false
    let r := run {} past
    let h := Candidate.functionHandler (Text.quoted "f".toList) false fun _ =>
      .finish (.text "f".toList)
    r.size = 1 ∧ (r.perform again).2 ≠ none
      ∧ (r.perform again).1 = r
      ∧ r.resolve? "a".toList = some h
      ∧ (r.run [again, .freeze]).resolve? "a".toList = some h
      ∧ r.freeze.run [again] = r.freeze := by
  intro note past again r h
  obtain ⟨-, -, hsame, -, -, hstays, -⟩ := reflects_run past
  have hrefused : (r.perform again).2 ≠ none := by
    show (r.add ..).2 ≠ none
    rw [refused_add]
    exact Option.some_ne_none _
  have hresolve : r.resolve? "a".toList = some h := rfl
  have hfrozen := (reflects_run (past ++ [.freeze])).2.2.2.2.2.2 rfl
  refine ⟨rfl, hrefused, hsame again trivial hrefused, hresolve,
    hstays _ h hresolve [again, .freeze] ?_, hfrozen [again]⟩
  have hlog : r.log [again, .freeze] = [] := rfl
  rw [hlog]
  simp

end Registry

end Shortcode
