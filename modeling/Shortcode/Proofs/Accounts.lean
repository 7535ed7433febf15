import Shortcode.Proofs.Isolation
import Mathlib.Data.List.Dedup

/-!
# What a report accounts for

The report of a build is made from what became of its documents, from
left to right. Failures and cancellations are told in lists with one entry
for a document. Texts are told by source: a document whose source was
rendered before takes the place of the other one, and the text of that one
is gone.

So a report has as many entries as the build had documents if and only if
the rendered documents have different sources, and then every text is in
it (`Pipeline.accounts_of_build`). Nobody sees to that: of two documents
with one source, one is lost, and the report says that all is well
(`Pipeline.exists_document_lost`).
-/

namespace Shortcode

/-- A document that is settled has one entry in a report. -/
theorem Document.length_entries (d : Document) {o : Outcome Text}
    (ho : o.Settles) :
    (d.rendered? o).toList.length + (d.failure? o).toList.length
      + (d.cancelled? o).toList.length = 1 := by
  cases o with
  | interrupted => exact ho.elim
  | returned t => rfl
  | failed f =>
    cases hc : f.isCancellation <;>
      simp [rendered?, failure?, cancelled?, hc]

namespace Report

/-- The texts that documents were rendered to, in the order of the
documents. -/
def texts (ends : List (Document × Outcome Text)) : List (Text × Text) :=
  ends.filterMap fun x => x.1.rendered? x.2

/-! ## Entries by source -/

/-- An entry among entries by source. -/
def enter (entries : List (Text × Text)) (e : Text × Text) :
    List (Text × Text) :=
  if entries.any fun x => x.1 = e.1 then
    entries.map fun x => if x.1 = e.1 then e else x
  else entries ++ [e]

theorem render_eq (r : Report) (source text : Text) :
    r.render source text
      = { r with rendered := enter r.rendered (source, text) } := by
  unfold render enter
  split <;> rfl

/-- **An entry replaces those with its source.** -/
theorem mem_enter {entries : List (Text × Text)} {e x : Text × Text} :
    x ∈ enter entries e ↔ x = e ∨ x ∈ entries ∧ x.1 ≠ e.1 := by
  unfold enter
  split
  · next h =>
    obtain ⟨y, hy, hye⟩ := List.any_eq_true.mp h
    have hye : y.1 = e.1 := by simpa using hye
    rw [List.mem_map]
    constructor
    · rintro ⟨z, hz, rfl⟩
      by_cases hze : z.1 = e.1
      · exact .inl (if_pos hze)
      · rw [if_neg hze]
        exact .inr ⟨hz, hze⟩
    · rintro (rfl | ⟨hx, hne⟩)
      · exact ⟨y, hy, if_pos hye⟩
      · exact ⟨x, hx, if_neg hne⟩
  · next h =>
    have hnew : ∀ y ∈ entries, y.1 ≠ e.1 := fun y hy hye =>
      h (List.any_eq_true.mpr ⟨y, hy, by simpa using hye⟩)
    rw [List.mem_append, List.mem_singleton]
    constructor
    · rintro (hx | rfl)
      · exact .inr ⟨hx, hnew x hx⟩
      · exact .inl rfl
    · rintro (rfl | ⟨hx, -⟩)
      · exact .inr rfl
      · exact .inl hx

/-- An entry keeps its place, or is put behind the others. -/
theorem sources_enter (entries : List (Text × Text)) (e : Text × Text) :
    (enter entries e).map Prod.fst
      = if e.1 ∈ entries.map Prod.fst then entries.map Prod.fst
        else entries.map Prod.fst ++ [e.1] := by
  have hiff : (entries.any fun x => decide (x.1 = e.1)) = true
      ↔ e.1 ∈ entries.map Prod.fst := by
    rw [List.any_eq_true, List.mem_map]
    exact exists_congr fun x => by simp
  unfold enter
  split
  · next h =>
    rw [if_pos (hiff.mp h), List.map_map]
    refine List.map_congr_left fun x _ => ?_
    by_cases hx : x.1 = e.1 <;> simp [hx]
  · next h =>
    rw [if_neg (mt hiff.mpr h), List.map_append]
    rfl

theorem nodup_enter {entries : List (Text × Text)}
    (h : (entries.map Prod.fst).Nodup) (e : Text × Text) :
    ((enter entries e).map Prod.fst).Nodup := by
  rw [sources_enter]
  split
  · exact h
  · next hnew =>
    exact h.append (List.nodup_singleton _) (by simpa using hnew)

/-- The entry is the last one for its source. -/
def IsLast (e : Text × Text) (entries : List (Text × Text)) : Prop :=
  ∃ before behind, entries = before ++ e :: behind
    ∧ ∀ x ∈ behind, x.1 ≠ e.1

theorem isLast_cons {e x : Text × Text} {entries : List (Text × Text)} :
    IsLast e (x :: entries)
      ↔ IsLast e entries ∨ e = x ∧ ∀ y ∈ entries, y.1 ≠ e.1 := by
  constructor
  · rintro ⟨before, behind, heq, hlast⟩
    cases before with
    | nil =>
      obtain ⟨rfl, rfl⟩ := List.cons_eq_cons.mp heq
      exact .inr ⟨rfl, hlast⟩
    | cons y before =>
      obtain ⟨-, rfl⟩ := List.cons_eq_cons.mp heq
      exact .inl ⟨before, behind, rfl, hlast⟩
  · rintro (⟨before, behind, rfl, hlast⟩ | ⟨rfl, hlast⟩)
    · exact ⟨x :: before, behind, rfl, hlast⟩
    · exact ⟨[], entries, rfl, hlast⟩

/-- **What is left of entries** is the last one for each source. -/
theorem mem_foldl_enter {entries texts : List (Text × Text)}
    {e : Text × Text} :
    e ∈ texts.foldl enter entries
      ↔ IsLast e texts ∨ e ∈ entries ∧ ∀ x ∈ texts, x.1 ≠ e.1 := by
  induction texts generalizing entries with
  | nil => simp [IsLast]
  | cons x texts ih =>
    rw [List.foldl_cons, ih, mem_enter, isLast_cons, List.forall_mem_cons]
    grind

theorem nodup_foldl_enter {entries : List (Text × Text)}
    (h : (entries.map Prod.fst).Nodup) (texts : List (Text × Text)) :
    ((texts.foldl enter entries).map Prod.fst).Nodup := by
  induction texts generalizing entries with
  | nil => exact h
  | cons x texts ih => exact ih (nodup_enter h x)

/-- Every source has a last entry. -/
theorem exists_isLast {source : Text} {entries : List (Text × Text)}
    (h : source ∈ entries.map Prod.fst) :
    ∃ text, IsLast (source, text) entries := by
  induction entries with
  | nil => simp at h
  | cons x entries ih =>
    by_cases hrest : source ∈ entries.map Prod.fst
    · obtain ⟨text, hlast⟩ := ih hrest
      exact ⟨text, isLast_cons.mpr (.inl hlast)⟩
    · obtain rfl : source = x.1 := by
        rw [List.map_cons, List.mem_cons] at h
        exact h.resolve_right hrest
      refine ⟨x.2, isLast_cons.mpr (.inr ⟨rfl, fun y hy heq => ?_⟩)⟩
      exact hrest (List.mem_map.mpr ⟨y, hy, heq⟩)

theorem IsLast.mem {e : Text × Text} {entries : List (Text × Text)}
    (h : IsLast e entries) : e ∈ entries := by
  obtain ⟨before, behind, rfl, -⟩ := h
  simp

/-! ## Reports as accounts -/

/-- **A report accounts for documents with certain outcomes**: all of them
are settled, each failure and each cancellation has an entry, in the order
of the documents, and of the texts each source has the last one. -/
structure Accounts (ends : List (Document × Outcome Text)) (r : Report) :
    Prop where
  settled : ∀ x ∈ ends, x.2.Settles
  failures : r.failures = ends.filterMap fun x => x.1.failure? x.2
  cancelled : r.cancelled = ends.filterMap fun x => x.1.cancelled? x.2
  sources : (r.rendered.map Prod.fst).Nodup
  rendered : ∀ e, e ∈ r.rendered ↔ IsLast e (texts ends)

theorem filterMap_cons_eq {α β : Type} (f : α → Option β) (x : α)
    (xs : List α) : (x :: xs).filterMap f = (f x).toList ++ xs.filterMap f := by
  rw [List.filterMap_cons]
  cases f x <;> rfl

theorem texts_cons (x : Document × Outcome Text)
    (ends : List (Document × Outcome Text)) :
    texts (x :: ends) = (x.1.rendered? x.2).toList ++ texts ends :=
  filterMap_cons_eq _ x ends

/-- What a settled document adds to a report. -/
theorem add_settled (r : Report) (d : Document) {o : Outcome Text}
    (ho : o.Settles) :
    r.add d o = .returned
      ⟨(d.rendered? o).toList.foldl enter r.rendered,
        r.failures ++ (d.failure? o).toList,
        r.cancelled ++ (d.cancelled? o).toList⟩ := by
  cases o with
  | interrupted => exact ho.elim
  | returned t =>
    simp [add, render_eq, Document.rendered?, Document.failure?,
      Document.cancelled?]
  | failed f =>
    have hf : f.isError = true := ho
    cases hc : f.isCancellation <;>
      simp [add, hc, hf, Document.rendered?, Document.failure?,
        Document.cancelled?]

/-- **The report on documents that are all settled.** -/
theorem addAll_settled (r : Report)
    {ends : List (Document × Outcome Text)} (h : ∀ x ∈ ends, x.2.Settles) :
    r.addAll ends = .returned
      ⟨(texts ends).foldl enter r.rendered,
        r.failures ++ ends.filterMap fun x => x.1.failure? x.2,
        r.cancelled ++ ends.filterMap fun x => x.1.cancelled? x.2⟩ := by
  induction ends generalizing r with
  | nil => simp [addAll, texts]
  | cons x ends ih =>
    obtain ⟨hx, hrest⟩ := List.forall_mem_cons.mp h
    rw [addAll, add_settled r x.1 hx]
    dsimp only
    rw [ih _ hrest, filterMap_cons_eq, filterMap_cons_eq, texts_cons,
      List.foldl_append, List.append_assoc, List.append_assoc]

/-- A document that is not settled leaves no report. -/
theorem settled_of_addAll {r r' : Report}
    {ends : List (Document × Outcome Text)}
    (h : r.addAll ends = .returned r') : ∀ x ∈ ends, x.2.Settles := by
  induction ends generalizing r with
  | nil => exact List.forall_mem_nil _
  | cons x ends ih =>
    obtain ⟨d, o⟩ := x
    rw [addAll] at h
    have ho : o.Settles := by
      cases o with
      | returned t => exact trivial
      | interrupted m => simp [add] at h
      | failed f =>
        cases hc : f.isCancellation with
        | true =>
          have hk : f.kind? = some .expansionCancelled := by
            simpa [Failure.isCancellation] using hc
          simp [Outcome.Settles, Failure.isError, hk]
        | false =>
          cases hf : f.isError with
          | true => exact hf
          | false => simp [add, hc, hf] at h
    rw [add_settled r d ho] at h
    exact List.forall_mem_cons.mpr ⟨ho, ih h⟩

/-- The report on settled documents accounts for them. -/
theorem exists_accounts {ends : List (Document × Outcome Text)}
    (h : ∀ x ∈ ends, x.2.Settles) :
    ∃ r, addAll {} ends = .returned r ∧ r.Accounts ends := by
  refine ⟨_, addAll_settled {} h, h, by simp, by simp,
    nodup_foldl_enter (by simp) _, fun e => ?_⟩
  rw [mem_foldl_enter]
  simp

theorem accounts_of_addAll {ends : List (Document × Outcome Text)}
    {r : Report} (h : addAll {} ends = .returned r) : r.Accounts ends := by
  obtain ⟨r', hr', ha⟩ := exists_accounts (settled_of_addAll h)
  obtain rfl := Outcome.returned.inj (h.symm.trans hr')
  exact ha

namespace Accounts

variable {ends : List (Document × Outcome Text)} {r : Report}

/-- **Each document is one thing**: rendered, a failure or cancelled. -/
theorem length_eq (h : r.Accounts ends) :
    (texts ends).length + r.failures.length + r.cancelled.length
      = ends.length := by
  have hs := h.settled
  rw [h.failures, h.cancelled]
  clear h
  induction ends with
  | nil => rfl
  | cons x ends ih =>
    obtain ⟨hx, hrest⟩ := List.forall_mem_cons.mp hs
    have hone := x.1.length_entries hx
    have hmore := ih hrest
    rw [texts_cons, filterMap_cons_eq, filterMap_cons_eq]
    simp only [List.length_append, List.length_cons]
    omega

/-- All is well if and only if every document was rendered. -/
theorem ok_iff (h : r.Accounts ends) :
    r.ok = true ↔ ∀ x ∈ ends, ∃ t, x.2 = .returned t := by
  have hok : r.ok = true ↔ r.failures = [] ∧ r.cancelled = [] := by
    simp [ok]
  rw [hok, h.failures, h.cancelled, List.filterMap_eq_nil_iff,
    List.filterMap_eq_nil_iff, ← forall₂_and]
  refine forall₂_congr fun x hx => ?_
  have hs := h.settled x hx
  obtain ⟨d, o⟩ := x
  cases o with
  | interrupted => exact hs.elim
  | returned t => simp [Document.failure?, Document.cancelled?]
  | failed f =>
    cases hc : f.isCancellation <;>
      simp [Document.failure?, Document.cancelled?, hc]

/-- **There is an entry for every text** if and only if no source has two
of them. -/
theorem length_rendered_iff (h : r.Accounts ends) :
    r.rendered.length = (texts ends).length
      ↔ ((texts ends).map Prod.fst).Nodup := by
  have hperm : (r.rendered.map Prod.fst).Perm
      ((texts ends).map Prod.fst).dedup := by
    rw [List.perm_ext_iff_of_nodup h.sources (List.nodup_dedup _)]
    intro source
    rw [List.mem_dedup]
    constructor
    · rintro hs
      obtain ⟨e, he, rfl⟩ := List.mem_map.mp hs
      exact List.mem_map_of_mem ((h.rendered e).mp he).mem
    · intro hs
      obtain ⟨text, hlast⟩ := exists_isLast hs
      exact List.mem_map.mpr ⟨_, (h.rendered _).mpr hlast, rfl⟩
  have hlength := hperm.length_eq
  rw [List.length_map] at hlength
  rw [hlength, ← List.dedup_eq_self]
  constructor
  · intro heq
    exact (List.dedup_sublist _).eq_of_length (by rw [heq, List.length_map])
  · intro heq
    rw [heq, List.length_map]

/-- If no source has two texts, every text has its entry. -/
theorem mem_rendered (h : r.Accounts ends)
    (hd : ((texts ends).map Prod.fst).Nodup) {e : Text × Text}
    (he : e ∈ texts ends) : e ∈ r.rendered := by
  obtain ⟨before, behind, heq⟩ := List.mem_iff_append.mp he
  refine (h.rendered e).mpr ⟨before, behind, heq, fun x hx hsame => ?_⟩
  rw [heq, List.map_append, List.map_cons] at hd
  exact (List.nodup_cons.mp (List.nodup_append.mp hd).2.1).1
    (hsame ▸ List.mem_map_of_mem hx)

end Accounts

end Report

/-- A group has a run for each member. -/
theorem Group.length_members {α : Type} (limit : Nat) (first : Moment)
    (cancels : Option Moment) (ends : List Moment) (ms : List (Member α)) :
    (members limit first cancels ends ms).length = ms.length := by
  induction ms generalizing cancels ends with
  | nil => rfl
  | cons m ms ih => rw [members, List.length_cons, ih, List.length_cons]

namespace Pipeline

variable {p : Pipeline} {docs : List Document} {now : Moment}
  {cancels : Option Moment}

/-- What becomes of the documents of a build. -/
def ends (p : Pipeline) (docs : List Document) (now : Moment)
    (cancels : Option Moment) : List (Document × Outcome Text) :=
  docs.zip ((p.settledRuns now.next cancels docs).map Run.outcome)

theorem length_documentRuns (first : Moment) :
    (p.documentRuns first cancels docs).length = docs.length := by
  unfold documentRuns
  rw [Group.length_members, List.length_map]

theorem length_settledRuns (first : Moment) :
    (p.settledRuns first cancels docs).length = docs.length := by
  unfold settledRuns
  dsimp only
  split
  · exact length_documentRuns first
  · exact length_documentRuns first

theorem map_fst_ends (p : Pipeline) (docs : List Document) (now : Moment)
    (cancels : Option Moment) :
    (p.ends docs now cancels).map Prod.fst = docs := by
  refine List.map_fst_zip ?_
  rw [List.length_map, length_settledRuns]

/-- A build that has a report was not stopped, and reports what became of
its documents. -/
theorem addAll_of_build {r : Report}
    (h : (p.build docs now cancels).outcome = .returned r) :
    Report.addAll {} (p.ends docs now cancels) = .returned r := by
  unfold build at h
  dsimp only at h
  split at h
  · exact nomatch h
  · exact h

/-- **What the report of a build accounts for.** A build that ends with a
report, whatever its policy, and whoever cancelled it, has settled all its
documents. Each of them was rendered, or it failed, or it was cancelled,
and all is well if and only if all were rendered. Every failure and every
cancellation has its own entry, and each source that was rendered has the
last of its texts. So there is an entry for each document, and every text
is in the report, if and only if the rendered documents have different
sources. -/
theorem accounts_of_build {r : Report}
    (h : (p.build docs now cancels).outcome = .returned r) :
    let ends := p.ends docs now cancels
    let texts := Report.texts ends
    ends.map Prod.fst = docs
      ∧ r.Accounts ends
      ∧ texts.length + r.failures.length + r.cancelled.length = docs.length
      ∧ (r.ok = true ↔ ∀ x ∈ ends, ∃ t, x.2 = .returned t)
      ∧ (r.rendered.length + r.failures.length + r.cancelled.length
            = docs.length
          ↔ (texts.map Prod.fst).Nodup)
      ∧ ((texts.map Prod.fst).Nodup → ∀ x ∈ ends, ∀ t,
          x.2 = .returned t → (x.1.source, t) ∈ r.rendered) := by
  intro ends texts
  have hfst : ends.map Prod.fst = docs := map_fst_ends p docs now cancels
  have ha : r.Accounts ends := Report.accounts_of_addAll (addAll_of_build h)
  have hlength : texts.length + r.failures.length + r.cancelled.length
      = docs.length := by
    rw [← hfst, List.length_map]
    exact ha.length_eq
  refine ⟨hfst, ha, hlength, ha.ok_iff, ?_, fun hd x hx t ht => ?_⟩
  · have hiff : r.rendered.length = texts.length
        ↔ (texts.map Prod.fst).Nodup := ha.length_rendered_iff
    rw [← hiff]
    omega
  · refine ha.mem_rendered hd (List.mem_filterMap.mpr ⟨x, hx, ?_⟩)
    rw [ht]
    rfl

/-- A build of three documents, two of which have one source, and of which
one fails. -/
theorem accounts_of_build_lenient :
    let docs : List Document :=
      [⟨['a'], "x".toList, []⟩, ⟨['b'], "<%gone/%>".toList, []⟩,
        ⟨['a'], "y".toList, []⟩]
    ∃ r, (lenient.build docs ⟨0, 0⟩ none).outcome = .returned r
      ∧ r.rendered = [(['a'], ['y'])]
      ∧ r.rendered.length + r.failures.length + r.cancelled.length
          ≠ docs.length
      ∧ (Report.texts (lenient.ends docs ⟨0, 0⟩ none)).length
          + r.failures.length + r.cancelled.length = docs.length := by
  intro docs
  have hrendered : (lenient.build docs ⟨0, 0⟩ none).outcome.result?.map
      Report.rendered = some [(['a'], ['y'])] := by decide +kernel
  have hfailed : (lenient.build docs ⟨0, 0⟩ none).outcome.result?.map
      (fun r => r.failures.length + r.cancelled.length) = some 1 := by
    decide +kernel
  obtain ⟨r, hr, hentries⟩ := Option.map_eq_some_iff.mp hrendered
  rw [hr] at hfailed
  have h := Outcome.result?_eq_some_iff.mp hr
  obtain ⟨-, -, hlength, -⟩ := accounts_of_build h
  refine ⟨r, h, hentries, ?_, hlength⟩
  have hone : r.failures.length + r.cancelled.length = 1 :=
    Option.some.inj hfailed
  rw [hentries, Nat.add_assoc, hone]
  decide

/-- **A document can be lost**: two documents with the same source are both
rendered, the report says that all is well, and one of the texts is not in
it. -/
theorem exists_document_lost :
    let docs : List Document :=
      [⟨['a'], "x".toList, []⟩, ⟨['a'], "y".toList, []⟩]
    (lenient.ends docs ⟨0, 0⟩ none).map (fun x => x.2.result?)
        = [some ['x'], some ['y']]
      ∧ ∃ r, (lenient.build docs ⟨0, 0⟩ none).outcome = .returned r
        ∧ r.ok = true
        ∧ r.rendered.length + r.failures.length + r.cancelled.length
            ≠ docs.length
        ∧ ∀ e ∈ r.rendered, e.2 ≠ ['x'] := by
  intro docs
  exact ⟨by decide +kernel, _, rfl, by decide +kernel, by decide +kernel,
    by decide +kernel⟩

end Pipeline

end Shortcode
