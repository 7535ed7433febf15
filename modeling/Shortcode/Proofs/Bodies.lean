import Shortcode.Proofs.Pieces

/-!
# Reading the bodies of blocks

The body of a block is not looked into when the text around it is read:
its tags are matched and that is all. It is read as a text of its own
when it is expanded, cut out of the text around it. Nothing then comes
to light that the first reading had not seen, apart from its arguments:
the body has the tags that it has inside the text, they are brackets
that match, so only an argument can be wrong
(`Segment.parse_body`). This goes on into the bodies of its own
blocks, to any depth.

`Segment.Occupies` is what carries this downwards: some pieces of a text
are also the pieces of a part of it that stands alone.
-/

namespace Shortcode

/-! ## Derivations at other positions -/

/-- Those of some tags that stand between two positions. -/
def PlacedTag.within (start stop : Nat) (tags : List PlacedTag) :
    List PlacedTag :=
  tags.filter fun t => start ≤ t.start ∧ t.stop ≤ stop

theorem PlacedTag.within_append (start stop : Nat) (ts us : List PlacedTag) :
    within start stop (ts ++ us)
      = within start stop ts ++ within start stop us :=
  List.filter_append ..

/-- Tags that differ in their positions at most. -/
def PlacedTag.Same (s t : PlacedTag) : Prop :=
  s.form = t.form ∧ s.name = t.name

/-- Where tags stand does not matter to a derivation. -/
theorem Derives.exists_of_same {ts us : List PlacedTag}
    {ps : List Production} (h : Derives ts ps)
    (hs : List.Forall₂ PlacedTag.Same us ts) : ∃ qs, Derives us qs := by
  induction h generalizing us with
  | nil =>
    cases hs
    exact ⟨[], .nil⟩
  | single hf _ ih =>
    cases hs with
    | cons ht hrest =>
      obtain ⟨qs, hq⟩ := ih hrest
      exact ⟨_, .single (ht.1.trans hf) hq⟩
  | @block o c inner ts _ _ ho hc hn _ _ ihi ih =>
    cases hs with
    | @cons o' _ us _ hto hrest =>
      obtain ⟨qs, hq⟩ := ihi (List.forall₂_take_append _ _ _ hrest)
      have hdrop := List.forall₂_drop_append _ _ _ hrest
      generalize hd : us.drop inner.length = behind at hdrop
      cases hdrop with
      | @cons c' _ us' _ htc hrest' =>
        obtain ⟨rs, hr⟩ := ih hrest'
        have hname : o'.name = c'.name := by rw [hto.2, hn, htc.2]
        rw [← List.take_append_drop inner.length us, hd]
        exact ⟨_, .block (hto.1.trans ho) (htc.1.trans hc) hname hq hr⟩

namespace Lexeme

/-- The tags among pieces are the same wherever the pieces stand. -/
theorem same_placed (n m : Nat) (ls : List Lexeme) :
    List.Forall₂ PlacedTag.Same (placed n ls) (placed m ls) := by
  induction ls generalizing n m with
  | nil => exact .nil
  | cons l ls ih =>
    cases l with
    | literal t => exact ih _ _
    | tag t => exact .cons ⟨rfl, rfl⟩ (ih _ _)

/-- Pieces derive wherever they stand. -/
theorem derives_placed {n : Nat} {ls : List Lexeme} {ps : List Production}
    (h : Derives (placed n ls) ps) (m : Nat) :
    ∃ qs, Derives (placed m ls) qs :=
  h.exists_of_same (same_placed m n ls)

theorem size_append (ls rest : List Lexeme) :
    size (ls ++ rest) = size ls + size rest := by
  unfold size
  rw [List.flatMap_append, List.length_append]

/-- Tags among proper pieces stand where the pieces do, and are not
empty. -/
theorem bounds_of_mem_placed {d : Delimiters} {n : Nat} {ls : List Lexeme}
    (hp : ∀ l ∈ ls, l.Proper d) {t : PlacedTag} (ht : t ∈ placed n ls) :
    n ≤ t.start ∧ t.start < t.stop ∧ t.stop ≤ n + size ls := by
  induction ls generalizing n with
  | nil => simp [placed] at ht
  | cons l ls ih =>
    obtain ⟨hl, hls⟩ := List.forall_mem_cons.mp hp
    have hpos := hl.length_pos
    rw [size_cons]
    cases l with
    | literal t' =>
      have := ih hls ht
      simp only [source]
      omega
    | tag t' =>
      rcases List.mem_cons.mp ht with rfl | ht
      · simp only [source] at *
        simp only [Tag.placed]
        omega
      · have := ih hls ht
        simp only [source] at *
        omega

/-- Among the tags of proper pieces, those that stand where some of the
pieces do are those of these pieces. -/
theorem within_placed {d : Delimiters} {pre body post : List Lexeme}
    (hp : ∀ l ∈ pre ++ (body ++ post), l.Proper d) :
    PlacedTag.within (size pre) (size pre + size body)
        (placed 0 (pre ++ (body ++ post))) = placed (size pre) body := by
  obtain ⟨hpre, hp⟩ := List.forall_mem_append.mp hp
  obtain ⟨hbody, hpost⟩ := List.forall_mem_append.mp hp
  have hfront : PlacedTag.within (size pre) (size pre + size body)
      (placed 0 pre) = [] := by
    refine List.filter_eq_nil_iff.mpr fun t ht => ?_
    have := bounds_of_mem_placed hpre ht
    simp only [decide_eq_true_eq]
    omega
  have hinside : PlacedTag.within (size pre) (size pre + size body)
      (placed (size pre) body) = placed (size pre) body := by
    refine List.filter_eq_self.mpr fun t ht => ?_
    have := bounds_of_mem_placed hbody ht
    simp only [decide_eq_true_eq]
    omega
  have hback : PlacedTag.within (size pre) (size pre + size body)
      (placed (size pre + size body) post) = [] := by
    refine List.filter_eq_nil_iff.mpr fun t ht => ?_
    have := bounds_of_mem_placed hpost ht
    simp only [decide_eq_true_eq]
    omega
  rw [placed_append, placed_append, Nat.zero_add, PlacedTag.within_append,
    PlacedTag.within_append, hfront, hinside, hback, List.nil_append,
    List.append_nil]

end Lexeme

/-! ## Faults in arguments -/

namespace Argument

variable {position : Nat} {fault : ArgumentFault} {a : Argument}

theorem kind_of_separated {rest : Text}
    (h : separated position a rest = .error fault) :
    fault.cause.kind = .malformedArgument := by
  unfold separated at h
  split at h
  · simp at h
  · split at h
    · simp at h
    · obtain rfl := Except.error.inj h
      rfl

theorem kind_of_quotedValue {key rest : Text} {q : Char}
    (h : quotedValue position key q rest = .error fault) :
    fault.cause.kind = .malformedArgument := by
  unfold quotedValue at h
  split at h
  · obtain rfl := Except.error.inj h
    rfl
  · exact kind_of_separated h

theorem kind_of_next? {c : Char} {text : Text}
    (h : next? position c text = .error fault) :
    fault.cause.kind = .malformedArgument := by
  rw [next?_eq] at h
  split at h
  · dsimp only at h
    split at h
    · exact kind_of_quotedValue h
    · exact kind_of_quotedValue h
    · obtain rfl := Except.error.inj h
      rfl
    · exact kind_of_separated h
  · obtain rfl := Except.error.inj h
    rfl

end Argument

/-- **What is wrong with arguments is an argument.** -/
theorem Arguments.kind_of_parse {text : Text} {name : Option Text}
    {offset : Int} {e : Error} (h : parse text name offset = .error e) :
    e.kind = .malformedArgument := by
  have hfrom : ∀ {position : Nat} {text : Text} {fault : ArgumentFault},
      parseFrom position text = .error fault →
      fault.cause.kind = .malformedArgument := by
    intro position text fault h
    fun_induction parseFrom position text with
    | case1 => simp at h
    | case2 _ _ _ _ ih => exact ih h
    | case3 _ _ _ _ _ hn =>
      obtain rfl := Except.error.inj h
      exact Argument.kind_of_next? hn
    | case4 _ _ _ _ _ _ _ _ hr ih =>
      obtain rfl := Except.error.inj h
      exact ih hr
    | case5 => simp at h
  unfold parse at h
  split at h
  · simp at h
  · next fault hf =>
    obtain rfl := Except.error.inj h
    exact hfrom hf

namespace Segment

/-! ## Pieces that derive -/

/-- **Only arguments can be wrong** with pieces whose tags derive. -/
theorem kind_of_assemble {origin : Int} {n m : Nat} {ls : List Lexeme}
    {ps : List Production} (hd : Derives (Lexeme.placed m ls) ps)
    {e : Error} (h : assemble origin none none n ls = .error e) :
    e.kind = .malformedArgument := by
  -- as in `assembled_of_assemble`, a block is one step
  induction hk : ls.length using Nat.strong_induction_on
    generalizing ls n m ps with
  | _ k ih =>
    subst hk
    match ls with
    | [] => simp [assemble, atEnd] at h
    | .literal t :: rest =>
      rw [Lexeme.placed] at hd
      rw [assemble, map_eq_error_iff] at h
      exact ih rest.length (by simp) hd h rfl
    | .tag t :: rest =>
      rw [Lexeme.placed] at hd
      rw [assemble] at h
      cases hf : t.form with
      | closing => exact absurd hd (not_derives_closing hf)
      | selfClosing =>
        obtain ⟨qs, hd, -⟩ := (derives_selfClosing hf).mp hd
        simp only [hf] at h
        split at h
        · next e' hp =>
          obtain rfl := Except.error.inj h
          exact Arguments.kind_of_parse hp
        · exact ih rest.length (by simp) hd (map_eq_error_iff.mp h) rfl
      | opening =>
        obtain ⟨inner, c, ts, qs, he, hc, hn, ⟨rs, hi⟩, hd, -⟩ :=
          (derives_opening hf).mp hd
        obtain ⟨body, c, behind, rfl, rfl, rfl, rfl⟩ :=
          Lexeme.exists_of_placed_eq he
        simp only [hf] at h
        split at h
        · next e' hp =>
          obtain rfl := Except.error.inj h
          exact Arguments.kind_of_parse hp
        · next args hp =>
          let b : OpenBlock :=
            ⟨t.name, args, n, n + t.source.length, [], []⟩
          have hu : Unwinds [] (Lexeme.placed (n + t.source.length) body) :=
            Lexeme.derives_placed hi _
          rw [assemble_open_eq (b := b) hu hc hn, map_eq_error_iff] at h
          refine ih behind.length ?_ hd h rfl
          simp only [List.length_cons, List.length_append]
          omega

/-- **The body of a block among pieces** that start at a position: it is
written in the pieces between two tags, and their tags derive. -/
def BodyAt (n : Nat) (ls : List Lexeme) (b : Body) : Prop :=
  ∃ pre o body c post, ls = pre ++ .tag o :: (body ++ .tag c :: post)
    ∧ b.text = body.flatMap Lexeme.source
    ∧ b.start = n + Lexeme.size (pre ++ [.tag o])
    ∧ ∃ ps, Derives (Lexeme.placed b.start body) ps

theorem BodyAt.append {n m : Nat} {ls : List Lexeme} {b : Body}
    (part : List Lexeme) (hm : m = n + Lexeme.size part)
    (h : BodyAt m ls b) : BodyAt n (part ++ ls) b := by
  obtain ⟨pre, o, body, c, post, rfl, ht, hs, hd⟩ := h
  refine ⟨part ++ pre, o, body, c, post, by simp, ht, ?_, hd⟩
  rw [hs, hm, List.append_assoc, Lexeme.size_append part, Nat.add_assoc]

/-- The blocks that pieces are put together to have their bodies among
the pieces. -/
theorem Assembled.bodyAt {origin : Int} {n : Nat} {ls : List Lexeme}
    {segments : List Segment} {inv : Invocation} {b : Body}
    (h : Assembled origin n ls segments)
    (hi : inv ∈ invocations segments) (hb : inv.block = some b) :
    inv.origin = origin ∧ BodyAt n ls b := by
  induction h with
  | nil => simp [invocations] at hi
  | @literal n t ls segments _ ih =>
    exact (ih hi).imp_right (BodyAt.append [.literal t] (by
      simp [Lexeme.size, Lexeme.source]))
  | @single n t args ls segments _ ih =>
    rcases List.mem_cons.mp hi with rfl | hi
    · simp at hb
    exact (ih hi).imp_right (BodyAt.append [.tag t] (by
      simp [Lexeme.size, Lexeme.source]))
  | @block n m o c args body ls segments hm hd _ ih =>
    rcases List.mem_cons.mp hi with rfl | hi
    · obtain rfl := Option.some.inj hb
      refine ⟨rfl, [], o, body, c, ls, rfl, rfl, ?_, hd⟩
      rw [hm]
      simp [Lexeme.size, Lexeme.source]
    · have h := (ih hi).imp_right
        (BodyAt.append (n := n) (.tag o :: (body ++ [.tag c])) (by
          rw [hm]
          simp [Lexeme.size, Lexeme.source]
          omega))
      simpa using h

/-! ## Parts that stand for themselves -/

/-- **A part of a text with pieces of its own**, at a position: standing
alone it has the pieces that it has there, and their tags derive. -/
def Occupies (d : Delimiters) (text : Text) (k : Nat) (part : Text) : Prop :=
  ∃ pre body post,
    Lexeme.scan d text = ⟨pre ++ (body ++ post), none⟩
      ∧ k = Lexeme.size pre
      ∧ Lexeme.scan d part = ⟨body, none⟩
      ∧ ∃ ps, Derives (Lexeme.placed k body) ps

section

variable {d : Delimiters} {text part : Text} {origin : Int} {k : Nat}
  {segments : List Segment} {inv : Invocation} {b : Body}

/-- A text that is read occupies itself. -/
theorem occupies_of_parse (h : parse d text origin = .ok segments) :
    Occupies d text 0 text := by
  obtain ⟨hf, ps, -, hd, -⟩ := parse_eq_ok_iff_derived.mp h
  have hs : Lexeme.scan d text = ⟨(Lexeme.scan d text).lexemes, none⟩ := by
    rw [← hf]
  refine ⟨[], _, [], ?_, rfl, hs, ps, hd⟩
  rw [List.append_nil]
  exact hs

/-- **The body of a block** occupies what it takes up of a part that
does. -/
theorem Occupies.body (h : Occupies d text k part)
    (hp : parse d part origin = .ok segments)
    (hi : inv ∈ invocations segments) (hb : inv.block = some b) :
    inv.origin = origin ∧ Occupies d text (k + b.start) b.text := by
  obtain ⟨pre, ls, post, hscan, rfl, hpart, -⟩ := h
  obtain ⟨hf, -, ha⟩ := assembled_of_parse hp
  obtain ⟨ho, pre', o, body, c, post', hls, ht, hs, ps, hd⟩ :=
    ha.bodyAt hi hb
  -- the body is what stands behind its opening tag, up to its closing one
  obtain ⟨behind, hbehind, -⟩ := Lexeme.exists_of_scan_eq hls
  have hbody := Lexeme.scan_sources (Lexeme.opening_ne_nil hf) hbehind
  rw [hpart] at hls
  subst hls
  rw [← ht] at hbody
  refine ⟨ho, pre ++ (pre' ++ [.tag o]), body, .tag c :: (post' ++ post),
    ?_, ?_, hbody, Lexeme.derives_placed hd _⟩
  · rw [hscan]
    simp
  · rw [hs, Lexeme.size_append pre, Nat.zero_add]

/-- A part is the text where it stands. -/
theorem Occupies.slice_eq (h : Occupies d text k part) :
    text.slice k (k + part.length) = part := by
  obtain ⟨pre, body, post, hscan, rfl, hpart, -⟩ := h
  have ht := Lexeme.sources_of_scan_eq hscan
  rw [List.flatMap_append, List.flatMap_append,
    ← Lexeme.sources_of_scan_eq hpart] at ht
  exact Text.slice_append ht rfl rfl

/-- Only the arguments in a part can be wrong. -/
theorem Occupies.kind_of_parse (h : Occupies d text k part) {e : Error}
    (hp : parse d part origin = .error e) : e.kind = .malformedArgument := by
  obtain ⟨pre, body, post, -, -, hpart, ps, hd⟩ := h
  unfold parse at hp
  rw [hpart] at hp
  exact kind_of_assemble hd hp

/-- **The tags of a part** are those that the text has in it. -/
theorem Occupies.tags (h : Occupies d text k part) :
    ∃ tags, TagsFrom d 0 text tags
      ∧ TagsFrom d k part (PlacedTag.within k (k + part.length) tags) := by
  obtain ⟨pre, body, post, hscan, rfl, hpart, -⟩ := h
  refine ⟨_, tagsFrom_iff.mpr ⟨by rw [hscan], rfl⟩,
    tagsFrom_iff.mpr ⟨by rw [hpart], ?_⟩⟩
  have hproper : ∀ l ∈ pre ++ (body ++ post), l.Proper d := by
    rw [show pre ++ (body ++ post) = (Lexeme.scan d text).lexemes by
      rw [hscan]]
    exact fun _ => Lexeme.proper_of_mem_scan
  have hlen : part.length = Lexeme.size body :=
    congrArg List.length (Lexeme.sources_of_scan_eq hpart)
  rw [hscan, hpart, hlen]
  exact Lexeme.within_placed hproper

/-! ## Bodies in bodies -/

/-- **The invocations that reading finds** in a text at a position of
the document: those at its top level, and those at the top level of
bodies it found, each read where it stands. -/
inductive Found (d : Delimiters) (text : Text) (origin : Int) :
    Invocation → Prop
  | top {segments : List Segment} {inv : Invocation} :
      parse d text origin = .ok segments → inv ∈ invocations segments →
      Found d text origin inv
  | inside {outer inv : Invocation} {b : Body} {off : Int}
      {segments : List Segment} :
      Found d text origin outer →
      outer.block = some b → outer.bodyOffset = some off →
      parse d b.text off = .ok segments → inv ∈ invocations segments →
      Found d text origin inv

/-- Bodies at any depth occupy some of the text. -/
theorem Found.occupies (h : Found d text origin inv)
    (hb : inv.block = some b) :
    ∃ k : Nat, inv.bodyOffset = some (origin + k)
      ∧ Occupies d text k b.text := by
  have hoffset : ∀ {inv : Invocation} {b : Body}, inv.block = some b →
      inv.bodyOffset = some (inv.origin + b.start) := by
    intro inv b hb
    rw [Invocation.bodyOffset, hb]
    rfl
  induction h generalizing b with
  | top hp hi =>
    obtain ⟨ho, hocc⟩ := (occupies_of_parse hp).body hp hi hb
    rw [Nat.zero_add] at hocc
    exact ⟨b.start, by rw [hoffset hb, ho], hocc⟩
  | inside _ houter hat hp hi ih =>
    obtain ⟨k, hk, hocc⟩ := ih houter
    obtain rfl := Option.some.inj (hk.symm.trans hat)
    obtain ⟨ho, hocc⟩ := hocc.body hp hi hb
    refine ⟨k + b.start, ?_, hocc⟩
    rw [hoffset hb, ho, Int.natCast_add, Int.add_assoc]

/-- **Reading the body of a block.** Let reading find a block in a text
at a position of the document, at its top level or in bodies inside
bodies. The body stands in the text, where the block says. To read it
goes wrong with arguments only, and the tags in it are those of the text
between the block's own, in their places. -/
theorem parse_body (h : Found d text origin inv)
    (hb : inv.block = some b) :
    ∃ k : Nat, inv.bodyOffset = some (origin + k)
      ∧ text.slice k (k + b.text.length) = b.text
      ∧ (∀ e, parse d b.text (origin + k) = .error e →
          e.kind = .malformedArgument)
      ∧ ∃ tags, TagsFrom d 0 text tags
          ∧ TagsFrom d k b.text
              (PlacedTag.within k (k + b.text.length) tags) := by
  obtain ⟨k, hk, hocc⟩ := h.occupies hb
  exact ⟨k, hk, hocc.slice_eq, fun _ he => hocc.kind_of_parse he, hocc.tags⟩

/-- A block in a block, with an argument that is wrong in its body: the
body of each is read where it stands in the text. -/
theorem parse_body_nested :
    let d : Delimiters := ⟨['{'], ['}']⟩
    let text : Text := "a{b}x{c}{d e=}y{/d}{/c}{/b}".toList
    let b : Body := ⟨"{d e=}y{/d}".toList, 4⟩
    let inv : Invocation := ⟨['c'], [], some b, 1, 19, 11⟩
    (Found d text 7 inv ∧ inv.block = some b)
      ∧ ∃ k : Nat, inv.bodyOffset = some (7 + k)
        ∧ text.slice k (k + b.text.length) = b.text
        ∧ (∀ e, parse d b.text (7 + k) = .error e →
            e.kind = .malformedArgument)
        ∧ ∃ tags, TagsFrom d 0 text tags
            ∧ TagsFrom d k b.text
                (PlacedTag.within k (k + b.text.length) tags) := by
  intro d text b inv
  let outer : Invocation :=
    ⟨['b'], [], some ⟨"x{c}{d e=}y{/d}{/c}".toList, 4⟩, 1, 27, 7⟩
  have houter : parse d text 7
      = .ok [.literal ['a'] 0, .invocation outer] :=
    parse_eq_ok_of_toOption (by decide +kernel)
  have hinner : parse d "x{c}{d e=}y{/d}{/c}".toList 11
      = .ok [.literal ['x'] 0, .invocation inv] :=
    parse_eq_ok_of_toOption (by decide +kernel)
  have h : Found d text 7 inv :=
    .inside (.top houter (List.mem_singleton_self outer)) rfl rfl hinner
      (List.mem_singleton_self inv)
  exact ⟨⟨h, rfl⟩, parse_body h rfl⟩

end

end Segment

end Shortcode
