import Shortcode.Proofs.Spelling

/-!
# Lookups

The arguments of a shortcode are asked in several ways: whether a key
occurs, for its value, for all its values, for all keys, for a map from
keys to values, and whether a flag is on. Each way goes through the
arguments by itself, one from the front, one from the back, one into a
map, and all of them tell one story (`Arguments.lookups_agree`).

The story is that of the occurrences, that is of arguments that stand at
places (`Placing`). `Arguments.AnswersFor` says what the lookups have to
tell of them. Two placings are told of in the same way: that of the items
of a list at their indices, and that of the arguments of a text at the
positions at which they are written. All that the lookups need of a placing
is that the arguments list it (`Placing.Lists.answersFor`).
-/

namespace Shortcode

/-! ## Things at places -/

/-- **Which things stand at which places.** -/
abbrev Placing (α : Type) := Nat → α → Prop

namespace Placing

variable {α β : Type} {P Q : Placing α} {l : List α} {x y : α} {n k : Nat}

/-- **A list gives what stands at places**: all of it, in the order of the
places. -/
def Lists (P : Placing α) (l : List α) : Prop :=
  ∃ placed : List (α × Nat), placed.map Prod.fst = l
    ∧ placed.Pairwise (fun x y => x.2 < y.2)
    ∧ ∀ n x, (x, n) ∈ placed ↔ P n x

/-- What stands at the last place. -/
def Last (P : Placing α) (x : α) : Prop :=
  ∃ n, IsGreatest {m | ∃ y, P m y} n ∧ P n x

/-- What stands at a place for the first time. -/
def firsts (P : Placing α) : Placing α :=
  fun n x => IsLeast {m | P m x} n

/-- **One thing more**, behind all others. -/
structure Extends (P Q : Placing α) (y : α) (k : Nat) : Prop where
  lt : ∀ n x, Q n x → n < k
  iff : ∀ n x, P n x ↔ Q n x ∨ (x = y ∧ n = k)

/-- The items of a list stand at their indices. -/
def ofList (l : List α) : Placing α :=
  fun n x => l[n]? = some x

/-- Keys stand where arguments stand. -/
def keys (P : Placing Argument) : Placing Text :=
  fun n key => ∃ value, P n ⟨key, value⟩

/-- The values of one key stand where the key stands. -/
def values (P : Placing Argument) (key : Text) : Placing (Option Text) :=
  fun n value => P n ⟨key, value⟩

theorem lists_ofList (l : List α) : (ofList l).Lists l := by
  refine ⟨l.zipIdx, List.zipIdx_map_fst 0 l, ?_,
    fun n x => List.mem_zipIdx_iff_getElem?⟩
  have hs : (l.zipIdx.map Prod.snd).Pairwise (· < ·) := by
    rw [List.zipIdx_map_snd]
    exact List.pairwise_lt_range'
  exact List.pairwise_map.mp hs

theorem Lists.mem_iff (h : P.Lists l) : x ∈ l ↔ ∃ n, P n x := by
  obtain ⟨placed, rfl, -, hP⟩ := h
  simp only [← hP, List.mem_map, Prod.exists, exists_and_right,
    exists_eq_right]

/-- What is picked out of a list stands where it was picked. -/
theorem Lists.filterMap (h : P.Lists l) (f : α → Option β) :
    Lists (fun n y => ∃ x, P n x ∧ f x = some y) (l.filterMap f) := by
  obtain ⟨placed, rfl, hs, hP⟩ := h
  refine ⟨placed.filterMap fun e => (f e.1).map (·, e.2), ?_, ?_, ?_⟩
  · rw [List.map_filterMap, List.filterMap_map]
    refine List.filterMap_congr fun e _ => ?_
    simp [Option.map_map, Function.comp_def]
  · refine hs.filterMap _ fun e e' hlt b hb b' hb' => ?_
    obtain ⟨_, -, rfl⟩ := Option.map_eq_some_iff.mp hb
    obtain ⟨_, -, rfl⟩ := Option.map_eq_some_iff.mp hb'
    exact hlt
  · intro n y
    simp [← hP]

/-- How a list ends: with one thing more than it gives in front. -/
theorem Lists.exists_extends (h : P.Lists (l ++ [y])) :
    ∃ (Q : Placing α) (k : Nat), Q.Lists l ∧ P.Extends Q y k := by
  obtain ⟨placed, hl, hs, hP⟩ := h
  obtain ⟨front, back, rfl, rfl, hback⟩ := List.map_eq_append_iff.mp hl
  obtain ⟨⟨_, k⟩, rfl, rfl⟩ := List.map_eq_singleton_iff.mp hback
  obtain ⟨hfront, -, hlt⟩ := List.pairwise_append.mp hs
  refine ⟨fun n x => (x, n) ∈ front, k, ⟨front, rfl, hfront, fun _ _ => .rfl⟩,
    ⟨fun n x hx => hlt _ hx _ (List.mem_singleton_self _), fun n x => ?_⟩⟩
  rw [← hP, List.mem_append, List.mem_singleton, Prod.mk.injEq]

theorem Extends.isGreatest (h : P.Extends Q y k) :
    IsGreatest {m | ∃ x, P m x} k := by
  refine ⟨⟨y, (h.iff k y).mpr (.inr ⟨rfl, rfl⟩)⟩, ?_⟩
  rintro m ⟨x, hm⟩
  rcases (h.iff m x).mp hm with hm | ⟨-, rfl⟩
  · exact (h.lt m x hm).le
  · exact le_rfl

theorem Extends.apply_iff (h : P.Extends Q y k) : P k x ↔ x = y := by
  have hnot : ¬Q k x := fun hq => lt_irrefl k (h.lt k x hq)
  simp [h.iff, hnot]

/-- **The last of a list stands at the last place.** -/
theorem Lists.getLast?_eq_some_iff (h : P.Lists l) :
    l.getLast? = some x ↔ P.Last x := by
  rcases l.eq_nil_or_concat with rfl | ⟨l, y, rfl⟩
  · have hnone : ¬∃ n, P n x := fun hx => by simpa using h.mem_iff.mpr hx
    refine iff_of_false (by simp) ?_
    rintro ⟨n, -, hn⟩
    exact hnone ⟨n, hn⟩
  · rw [List.concat_eq_append] at h ⊢
    obtain ⟨Q, k, -, hP⟩ := h.exists_extends
    rw [List.getLast?_concat, Option.some_inj, eq_comm, ← hP.apply_iff]
    constructor
    · exact fun hx => ⟨k, hP.isGreatest, hx⟩
    · rintro ⟨n, hn, hx⟩
      exact hP.isGreatest.unique hn ▸ hx

/-- What stood somewhere stands for the first time where it did, and what is
new does so at its place. -/
theorem Extends.firsts_iff (h : P.Extends Q y k) :
    P.firsts n x ↔ Q.firsts n x ∨ (x = y ∧ n = k ∧ ∀ m, ¬Q m y) := by
  constructor
  · rintro ⟨hn, hleast⟩
    rcases (h.iff n x).mp hn with hn | ⟨rfl, rfl⟩
    · exact .inl ⟨hn, fun m hm => hleast ((h.iff m x).mpr (.inl hm))⟩
    · refine .inr ⟨rfl, rfl, fun m hm => ?_⟩
      exact absurd (hleast ((h.iff m x).mpr (.inl hm))) (h.lt m x hm).not_ge
  · rintro (⟨hn, hleast⟩ | ⟨rfl, rfl, hnew⟩)
    · refine ⟨(h.iff n x).mpr (.inl hn), fun m hm => ?_⟩
      rcases (h.iff m x).mp hm with hm | ⟨-, rfl⟩
      · exact hleast hm
      · exact (h.lt n x hn).le
    · refine ⟨(h.iff n x).mpr (.inr ⟨rfl, rfl⟩), fun m hm => ?_⟩
      rcases (h.iff m x).mp hm with hm | ⟨-, rfl⟩
      · exact absurd hm (hnew m)
      · exact le_rfl

theorem Lists.congr (h : P.Lists l) (hP : ∀ n x, P n x ↔ Q n x) :
    Q.Lists l := by
  obtain ⟨placed, hl, hs, hmem⟩ := h
  exact ⟨placed, hl, hs, fun n x => (hmem n x).trans (hP n x)⟩

theorem Lists.concat (h : Q.Lists l) (hP : P.Extends Q y k) :
    P.Lists (l ++ [y]) := by
  obtain ⟨placed, rfl, hs, hQ⟩ := h
  refine ⟨placed ++ [(y, k)], by simp, ?_, fun n x => ?_⟩
  · refine List.pairwise_append.mpr ⟨hs, List.pairwise_singleton .., ?_⟩
    rintro ⟨x, n⟩ hx _ he
    obtain rfl := List.mem_singleton.mp he
    exact hP.lt n x ((hQ n x).mp hx)
  · rw [hP.iff, ← hQ, List.mem_append, List.mem_singleton, Prod.mk.injEq]

theorem eraseDups_concat [BEq α] [LawfulBEq α] (l : List α) (y : α)
    [Decidable (y ∈ l)] : (l ++ [y]).eraseDups
      = if y ∈ l then l.eraseDups else l.eraseDups ++ [y] := by
  rw [List.eraseDups_append]
  split <;> simp [List.removeAll, List.eraseDups_cons, *]

/-- **What stands at a place for the first time** is listed by a list from
which later duplicates are erased. -/
theorem Lists.firsts [BEq α] [LawfulBEq α] (h : P.Lists l) :
    P.firsts.Lists l.eraseDups := by
  induction l using List.reverseRecOn generalizing P with
  | nil =>
    refine ⟨[], rfl, .nil, fun n x => iff_of_false List.not_mem_nil ?_⟩
    rintro ⟨hn, -⟩
    exact List.not_mem_nil (h.mem_iff.mpr ⟨n, hn⟩)
  | append_singleton l y ih =>
    obtain ⟨Q, k, hQ, hP⟩ := h.exists_extends
    rw [eraseDups_concat]
    split
    · next hy =>
      obtain ⟨m, hm⟩ := hQ.mem_iff.mp hy
      have hold : ¬∀ m, ¬Q m y := fun hnew => hnew m hm
      exact (ih hQ).congr fun n x => by simp [hP.firsts_iff, hold]
    · next hy =>
      have hnew : ∀ m, ¬Q m y := fun m hm => hy (hQ.mem_iff.mpr ⟨m, hm⟩)
      exact (ih hQ).concat ⟨fun n x hx => hP.lt n x hx.1,
        fun n x => by simp [hP.firsts_iff, hnew]⟩

/-- A thing in front of what stands at places, which are moved behind it. -/
theorem Lists.cons (h : Q.Lists l) {d : Nat} (hk : k < d)
    (hP : ∀ n x, P n x ↔ (x = y ∧ n = k) ∨ ∃ m, n = d + m ∧ Q m x) :
    P.Lists (y :: l) := by
  obtain ⟨placed, rfl, hs, hQ⟩ := h
  refine ⟨(y, k) :: placed.map fun e => (e.1, d + e.2), by simp, ?_,
    fun n x => ?_⟩
  · refine List.pairwise_cons.mpr ⟨?_, ?_⟩
    · rintro _ he
      obtain ⟨e, -, rfl⟩ := List.mem_map.mp he
      exact Nat.lt_add_right e.2 hk
    · exact List.pairwise_map.mpr (hs.imp fun hlt => Nat.add_lt_add_left hlt d)
  · rw [hP, List.mem_cons, Prod.mk.injEq, List.mem_map]
    refine or_congr_right ⟨?_, ?_⟩
    · rintro ⟨⟨_, m⟩, he, hx⟩
      obtain ⟨rfl, rfl⟩ := Prod.mk.inj hx
      exact ⟨m, rfl, (hQ m _).mp he⟩
    · rintro ⟨m, rfl, hm⟩
      exact ⟨(x, m), (hQ m x).mpr hm, rfl⟩

/-- What stands at one place at most is listed once. -/
theorem Lists.nodup (h : P.Lists l)
    (hone : ∀ x n m, P n x → P m x → n = m) : l.Nodup := by
  obtain ⟨placed, rfl, hs, hP⟩ := h
  refine List.pairwise_map.mpr (hs.imp_of_mem ?_)
  rintro ⟨x, n⟩ ⟨y, m⟩ hn hm hlt rfl
  exact hlt.ne (hone x n m ((hP n x).mp hn) ((hP m x).mp hm))

end Placing

/-! ## Lookups in a list -/

namespace Arguments

variable {args : Arguments} {key : Text}

theorem has_iff_mem_keys : args.has key = true ↔ key ∈ args.keys := by
  simp [has, keys]

theorem getAll_ne_nil_iff : args.getAll key ≠ [] ↔ key ∈ args.keys := by
  simp [getAll, keys, List.filterMap_eq_nil_iff]

/-! ### One argument more at the end -/

theorem keys_concat (args : Arguments) (a : Argument) :
    keys (args ++ [a]) = args.keys ++ [a.key] := by
  unfold keys
  rw [List.map_append, List.map_singleton]

theorem getAll_concat (args : Arguments) (a : Argument) (key : Text) :
    getAll (args ++ [a]) key
      = args.getAll key ++ if a.key = key then [a.value] else [] := by
  unfold getAll
  rw [List.filterMap_append]
  split <;> simp [*]

theorem get_concat (args : Arguments) (a : Argument) (key : Text)
    (default : Option Text) :
    get (args ++ [a]) key default
      = if a.key = key then a.value else args.get key default := by
  unfold get
  rw [List.reverse_concat, List.find?_cons]
  by_cases h : a.key = key <;> simp [h]

/-- The entry of a key that has one is replaced where it is, and that of a
new key comes to the end. -/
theorem toMap_concat (args : Arguments) (a : Argument) :
    toMap (args ++ [a])
      = if a.key ∈ args.toMap.map Prod.fst then
          args.toMap.map fun e => if e.1 = a.key then (e.1, a.value) else e
        else args.toMap ++ [(a.key, a.value)] := by
  have hany : (args.toMap.any fun e => e.1 = a.key) = true
      ↔ a.key ∈ args.toMap.map Prod.fst := by
    rw [List.any_eq_true, List.mem_map]
    simp only [decide_eq_true_eq]
  have hstep : toMap (args ++ [a])
      = if (args.toMap.any fun e => e.1 = a.key) = true then
          args.toMap.map fun e => if e.1 = a.key then (e.1, a.value) else e
        else args.toMap ++ [(a.key, a.value)] := by
    unfold toMap
    rw [List.foldl_append]
    rfl
  rw [hstep]
  exact if_congr hany rfl rfl

/-! ### All arguments -/

/-- **The last value is the value.** -/
theorem get_eq (args : Arguments) (key : Text) (default : Option Text) :
    args.get key default = (args.getAll key).getLast?.getD default := by
  induction args using List.reverseRecOn with
  | nil => rfl
  | append_singleton args a ih =>
    rw [get_concat, getAll_concat, ih]
    by_cases h : a.key = key
    · rw [if_pos h, if_pos h, List.getLast?_concat, Option.getD_some]
    · rw [if_neg h, if_neg h, List.append_nil]

/-- **The map has each key once**, where it occurs first. -/
theorem map_fst_toMap (args : Arguments) :
    args.toMap.map Prod.fst = args.keys.eraseDups := by
  induction args using List.reverseRecOn with
  | nil => rfl
  | append_singleton args a ih =>
    rw [toMap_concat, keys_concat, Placing.eraseDups_concat, ih]
    simp only [List.mem_eraseDups]
    split
    · rw [← ih, List.map_map]
      refine List.map_congr_left fun e _ => ?_
      rw [Function.comp_apply]
      split <;> rfl
    · rw [List.map_append, ih]
      rfl

/-- **The map has the values that are got.** -/
theorem snd_eq_get {e : Text × Option Text} (he : e ∈ args.toMap) :
    e.2 = args.get e.1 := by
  induction args using List.reverseRecOn generalizing e with
  | nil => simp [toMap] at he
  | append_singleton args a ih =>
    rw [toMap_concat] at he
    rw [get_concat]
    split at he
    · obtain ⟨e', he', rfl⟩ := List.mem_map.mp he
      by_cases h : e'.1 = a.key
      · simp [h]
      · simpa [h, Ne.symm h] using ih he'
    · next hnew =>
      rcases List.mem_append.mp he with he | he
      · have h : a.key ≠ e.1 := fun h =>
          hnew (h ▸ List.mem_map_of_mem he)
        rw [if_neg h]
        exact ih he
      · obtain rfl := List.mem_singleton.mp he
        exact (if_pos rfl).symm

/-- **A flag is told by the last value.** -/
theorem flag_iff : args.flag key = true ↔ ∃ value,
    (args.getAll key).getLast? = some value
      ∧ ∀ v ∈ value, v.map Char.toLower ∈ switchedOn := by
  have hhas : args.has key = true ↔ (args.getAll key).getLast?.isSome := by
    rw [List.getLast?_isSome, getAll_ne_nil_iff, has_iff_mem_keys]
  unfold flag
  rw [Bool.and_eq_true, hhas, get_eq]
  cases (args.getAll key).getLast? with
  | none => simp
  | some value =>
    cases value with
    | none => simp
    | some v => simp

/-- **The lookups answer for what stands at places**, each for itself and all
alike. -/
structure AnswersFor (args : Arguments) (P : Placing Argument) : Prop where
  /-- Every lookup tells whether a key occurs. -/
  occurs (key : Text) : List.TFAE [args.has key = true, args.getAll key ≠ [],
    key ∈ args.keys, key ∈ args.toMap.map Prod.fst, ∃ n, P.keys n key]
  /-- Keys are given as often as they occur, and so are the values of one. -/
  keys : P.keys.Lists args.keys
  getAll (key : Text) : (P.values key).Lists (args.getAll key)
  /-- The last occurrence decides, also if it is bare. -/
  get (key : Text) (default : Option Text) :
    args.get key default = (args.getAll key).getLast?.getD default
  get_last (key : Text) {value : Option Text} (default : Option Text) :
    (P.values key).Last value → args.get key default = value
  /-- The map has a key once, in the order of first occurrences. -/
  toMap_nodup : (args.toMap.map Prod.fst).Nodup
  toMap_keys : P.keys.firsts.Lists (args.toMap.map Prod.fst)
  toMap_values : ∀ e ∈ args.toMap, e.2 = args.get e.1
  flag (key : Text) : args.flag key = true ↔
    ∃ value, (P.values key).Last value ∧ ∀ v ∈ value, v.map Char.toLower
      ∈ ["on".toList, "1".toList, "true".toList, "yes".toList]

end Arguments

namespace Placing

variable {P : Placing Argument} {args : Arguments}

theorem Lists.keys (h : P.Lists args) : P.keys.Lists args.keys := by
  have hkeys := h.filterMap fun a => some a.key
  rw [List.filterMap_eq_map'] at hkeys
  refine hkeys.congr fun n key => ⟨?_, ?_⟩
  · rintro ⟨⟨_, value⟩, ha, he⟩
    obtain rfl := Option.some.inj he
    exact ⟨value, ha⟩
  · rintro ⟨value, ha⟩
    exact ⟨⟨key, value⟩, ha, rfl⟩

theorem Lists.values (h : P.Lists args) (key : Text) :
    (P.values key).Lists (args.getAll key) := by
  refine (h.filterMap _).congr fun n value => ⟨?_, ?_⟩
  · rintro ⟨⟨k, v⟩, ha, he⟩
    split at he
    · next hk =>
      obtain rfl := Option.some.inj he
      exact hk ▸ ha
    · simp at he
  · exact fun ha => ⟨⟨key, value⟩, ha, if_pos rfl⟩

/-- **Arguments answer for what they list.** -/
theorem Lists.answersFor (h : P.Lists args) : args.AnswersFor P where
  occurs key := by
    tfae_have 1 ↔ 3 := Arguments.has_iff_mem_keys
    tfae_have 2 ↔ 3 := Arguments.getAll_ne_nil_iff
    tfae_have 4 ↔ 3 := by
      rw [Arguments.map_fst_toMap, List.mem_eraseDups]
    tfae_have 3 ↔ 5 := h.keys.mem_iff
    tfae_finish
  keys := h.keys
  getAll := h.values
  get := Arguments.get_eq args
  get_last key value default hlast := by
    rw [Arguments.get_eq, (h.values key).getLast?_eq_some_iff.mpr hlast]
    rfl
  toMap_nodup := by
    rw [Arguments.map_fst_toMap]
    exact h.keys.firsts.nodup fun _ _ _ hn hm => hn.unique hm
  toMap_keys := Arguments.map_fst_toMap args ▸ h.keys.firsts
  toMap_values _ he := Arguments.snd_eq_get he
  flag key := by
    simp only [← (h.values key).getLast?_eq_some_iff]
    exact Arguments.flag_iff

end Placing

/-! ## Arguments in a text -/

/-- **The arguments of a text stand where they are written**: behind arguments
with white space behind each, and with nothing or white space behind
them. -/
def Placing.ofText (text : Text) : Placing Argument := fun n a =>
  ∃ (before : Arguments) (front t rest : Text),
    text = front ++ (t ++ rest) ∧ n = front.length
      ∧ before.Spelled front ∧ Arguments.Closed front
      ∧ IsKey a.key ∧ a.Written t ∧ Text.Spaced rest

/-- White space ends where something else starts. -/
theorem Text.blank_unique {lead lead' t t' : Text} {c c' : Char}
    (hl : IsBlank lead) (hl' : IsBlank lead') (hc : isBlank c = false)
    (hc' : isBlank c' = false) (h : lead ++ c :: t = lead' ++ c' :: t') :
    lead = lead' ∧ c :: t = c' :: t' := by
  have ht : trimLeft (lead ++ c :: t) = c :: t :=
    trimLeft_append hl (by simp [hc])
  have ht' : trimLeft (lead' ++ c' :: t') = c' :: t' :=
    trimLeft_append hl' (by simp [hc'])
  have he : c :: t = c' :: t' := by rw [← ht, ← ht', h]
  exact ⟨List.append_cancel_right (he ▸ h), he⟩

/-- **An argument is written at the front of a text in one way.** -/
theorem Argument.Written.unique {a b : Argument}
    {lead lead' t t' rest rest' : Text} (hl : Text.IsBlank lead)
    (hl' : Text.IsBlank lead') (hk : IsKey a.key) (hk' : IsKey b.key)
    (hw : a.Written t) (hw' : b.Written t') (hr : Text.Spaced rest)
    (hr' : Text.Spaced rest')
    (h : lead ++ (t ++ rest) = lead' ++ (t' ++ rest')) :
    lead = lead' ∧ a = b ∧ t = t' ∧ rest = rest' := by
  obtain ⟨c, u, rfl, hc⟩ := hw.exists_cons hk
  obtain ⟨c', u', rfl, hc'⟩ := hw'.exists_cons hk'
  obtain ⟨hlead, he⟩ := Text.blank_unique hl hl' hc hc' h
  have hread := next?_written hw hk hr rfl 0
  have hread' := next?_written hw' hk' hr' he.symm 0
  obtain ⟨rfl, rfl⟩ := Prod.mk.inj (Except.ok.inj (hread.symm.trans hread'))
  exact ⟨hlead, rfl, List.append_cancel_right he, rfl⟩

namespace Arguments

variable {args : Arguments} {text : Text}

/-- In a text that starts with an argument stand this one and, moved behind
it, those of the rest. -/
theorem ofText_argument {a b : Argument} {lead t rest : Text} {n : Nat}
    (hl : Text.IsBlank lead) (hk : IsKey a.key) (hw : a.Written t)
    (hr : Text.Spaced rest) :
    Placing.ofText (lead ++ (t ++ rest)) n b ↔ (b = a ∧ n = lead.length)
      ∨ ∃ m, n = (lead ++ t).length + m ∧ Placing.ofText rest m b := by
  constructor
  · rintro ⟨before, front, u, behind, he, rfl, hs, hcl, hk', hw', hr'⟩
    cases hs with
    | blank hb =>
      obtain ⟨rfl, rfl, -⟩ := hw.unique hl hb hk hk' hw' hr hr' he
      exact .inl ⟨rfl, rfl⟩
    | @argument a' before lead' t' front hl' hka hwa hfront hs =>
      obtain ⟨hne, hcl'⟩ := hcl.of_argument hka hwa
      obtain ⟨c, front, rfl⟩ := List.exists_cons_of_ne_nil hne
      have he' : lead ++ (t ++ rest)
          = lead' ++ (t' ++ (c :: front ++ (u ++ behind))) := by
        rw [he]
        simp only [List.append_assoc]
      have hspaced : Text.Spaced (c :: front ++ (u ++ behind)) := hfront
      obtain ⟨rfl, rfl, rfl, rfl⟩ :=
        hw.unique hl hl' hk hka hwa hr hspaced he'
      exact .inr ⟨(c :: front).length, by simp [Nat.add_assoc], before,
        c :: front, u, behind, rfl, rfl, hs, hcl', hk', hw', hr'⟩
  · rintro (⟨rfl, rfl⟩ | ⟨m, rfl, before, front, u, behind, rfl, rfl, hs, hcl,
      hk', hw', hr'⟩)
    · exact ⟨[], lead, t, rest, rfl, rfl, .blank hl,
        fun c hc => hl c (List.mem_of_getLast? hc), hk, hw, hr⟩
    · obtain ⟨c, u, rfl, hc⟩ := hw'.exists_cons hk'
      obtain ⟨hs', hcl'⟩ := hs.behind_argument hl hk hw hr hc hcl
      exact ⟨a :: before, lead ++ (t ++ front), c :: u, behind, by simp,
        by simp [Nat.add_assoc], hs', hcl', hk', hw', hr'⟩

/-- **A text that spells arguments lists them.** -/
theorem Spelled.lists (h : Spelled args text) :
    (Placing.ofText text).Lists args := by
  induction h with
  | @blank text hb =>
    refine ⟨[], rfl, .nil, fun n a => iff_of_false List.not_mem_nil ?_⟩
    rintro ⟨-, front, t, rest, rfl, -, -, -, hk, hw, -⟩
    obtain ⟨c, u, rfl, hc⟩ := hw.exists_cons hk
    simp [hb c (by simp)] at hc
  | @argument a args lead t rest hl hk hw hr hs ih =>
    obtain ⟨c, u, rfl, -⟩ := hw.exists_cons hk
    exact ih.cons (by simp) fun n b => ofText_argument hl hk hw hr

end Arguments

/-! ## Words in lower case -/

/-- **A character in lower case**: one of ASCII is, as ASCII has it. Of the
others, the Kelvin sign has a letter of ASCII as its lower case, and every
other one something that is not of ASCII alone. -/
inductive LowersTo : Char → Text → Prop
  | ascii {c : Char} : c.toNat < 128 → LowersTo c [c.toLower]
  | kelvin : LowersTo '\u212A' ['k']
  | beyond {c d : Char} {t : Text} :
      128 ≤ c.toNat → d ∈ t → 128 ≤ d.toNat → LowersTo c t

/-- **A case map of texts**, whatever it does with characters that are not of
ASCII: their lower case may depend on what stands around them. -/
def Text.IsCaseMap (lower : Text → Text) : Prop :=
  ∀ t, ∃ parts, List.Forall₂ LowersTo t parts ∧ lower t = parts.flatten

/-- A map that takes each character to its lower case is one. -/
theorem Text.isCaseMap_flatMap {f : Char → Text} (h : ∀ c, LowersTo c (f c)) :
    IsCaseMap fun t => t.flatMap f := by
  refine fun t => ⟨t.map f, ?_, rfl⟩
  rw [List.forall₂_map_right_iff, List.forall₂_same]
  exact fun c _ => h c

theorem toLower_of_le {c : Char} (h : 128 ≤ c.toNat) : c.toLower = c := by
  unfold Char.toLower
  refine dif_neg fun hc => ?_
  have hle : c.toNat ≤ 90 := UInt32.le_iff_toNat_le.mp hc.2
  omega

/-- **A word of ASCII without a `k`** is the lower case of the same texts,
whichever the case map. -/
theorem Text.IsCaseMap.eq_iff {lower : Text → Text} (h : IsCaseMap lower)
    {word : Text} (hw : ∀ c ∈ word, c.toNat < 128 ∧ c ≠ 'k') (t : Text) :
    lower t = word ↔ t.map Char.toLower = word := by
  obtain ⟨parts, hparts, hlower⟩ := h t
  rw [hlower]
  clear hlower
  induction hparts generalizing word with
  | nil => rfl
  | @cons c p t parts hc _ ih =>
    -- a character that is not of ASCII has no place in the word
    have hbeyond : 128 ≤ c.toNat → ¬(c :: t).map Char.toLower = word := by
      rintro hle rfl
      have := (hw c (by simp [toLower_of_le hle])).1
      omega
    cases hc with
    | ascii =>
      cases word with
      | nil => simp
      | cons x word =>
        rw [List.flatten_cons, List.singleton_append, List.map_cons,
          List.cons.injEq, List.cons.injEq,
          ih fun y hy => hw y (List.mem_cons_of_mem x hy)]
    | kelvin =>
      refine iff_of_false ?_ (hbeyond (by decide))
      rintro rfl
      exact (hw 'k' (by simp)).2 rfl
    | @beyond _ d _ hle hd hdle =>
      refine iff_of_false ?_ (hbeyond hle)
      rintro rfl
      have := (hw d (by simp [hd])).1
      omega

namespace Arguments

/-- **No case map beyond ASCII switches a flag on or off.** -/
theorem lower_mem_switchedOn {lower : Text → Text}
    (h : Text.IsCaseMap lower) (t : Text) :
    lower t ∈ switchedOn ↔ t.map Char.toLower ∈ switchedOn := by
  have hwords : ∀ word ∈ switchedOn, ∀ c ∈ word, c.toNat < 128 ∧ c ≠ 'k' := by
    simp [switchedOn]
  constructor
  · exact fun ht => (h.eq_iff (hwords _ ht) t).mp rfl ▸ ht
  · exact fun ht => (h.eq_iff (hwords _ ht) t).mpr rfl ▸ ht

/-- **All lookups tell one story**: that of the items they are looked up in
and, where these were read from a text, that of the arguments that are written
there. A key occurs for all of them or for none; its value is the last of its
values, also if that is none because the last occurrence is bare, and the
default only where it does not occur; the map has each key once, where it
occurs first, with its value; a flag is on if the last occurrence of its key
is bare or has one of the words as its value, in any case. That is the case of
ASCII, but any other case map knows the same words. -/
theorem lookups_agree (args : Arguments) :
    args.AnswersFor (.ofList args)
      ∧ (∀ (text : Text) (name : Option Text) (base : Int),
          parse text name base = .ok args → args.AnswersFor (.ofText text))
      ∧ ∀ lower, Text.IsCaseMap lower → ∀ t,
          lower t ∈ switchedOn ↔ t.map Char.toLower ∈ switchedOn := by
  refine ⟨(Placing.lists_ofList args).answersFor, fun text name base h => ?_,
    fun lower h => lower_mem_switchedOn h⟩
  exact (parse_eq_ok_iff_spelled.mp h).lists.answersFor

/-- Keys that occur several times, with values and without: the last word for
`open` switches it off, and the last `tag` is bare. The case map is one that
goes beyond ASCII. -/
theorem lookups_agree_duplicates :
    let text := " tag='a' open=\"YES\"\ttag x='' open='off' tag ".toList
    let args : Arguments := [⟨"tag".toList, some ['a']⟩,
      ⟨"open".toList, some "YES".toList⟩, ⟨"tag".toList, none⟩,
      ⟨['x'], some []⟩, ⟨"open".toList, some "off".toList⟩,
      ⟨"tag".toList, none⟩]
    let lower : Text → Text := fun t => t.flatMap fun c =>
      if c = '\u212A' then ['k'] else if c = '\u0130' then ['i', '\u0307']
      else [c.toLower]
    (args.AnswersFor (.ofList args)
        ∧ args.toMap = [("tag".toList, none), ("open".toList, some "off".toList),
            (['x'], some [])]
        ∧ args.flag "tag".toList = true ∧ args.flag "open".toList = false)
      ∧ (parse text (some "post".toList) 6 = .ok args
          ∧ args.AnswersFor (.ofText text))
      ∧ (Text.IsCaseMap lower ∧ ∀ t,
          lower t ∈ switchedOn ↔ t.map Char.toLower ∈ switchedOn) := by
  intro text args lower
  have hparse : parse text (some "post".toList) 6 = .ok args := by
    unfold text args
    cbv
  have hlower : Text.IsCaseMap lower := by
    refine Text.isCaseMap_flatMap fun c => ?_
    split
    · next h => exact h ▸ .kelvin
    · split
      · next h =>
        have hdot : '\u0307' ∈ ['i', '\u0307'] := by simp
        exact .beyond (h ▸ by decide) hdot (by decide)
      · rcases Nat.lt_or_ge c.toNat 128 with h | h
        · exact .ascii h
        · exact .beyond h (by simp [toLower_of_le h]) h
  obtain ⟨hitems, htext, hcase⟩ := lookups_agree args
  exact ⟨⟨hitems, by decide, by decide, by decide⟩,
    ⟨hparse, htext text _ 6 hparse⟩, hlower, hcase lower hlower⟩

end Arguments

end Shortcode
