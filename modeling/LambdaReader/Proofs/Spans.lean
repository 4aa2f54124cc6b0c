import LambdaReader.Proofs.Yield

/-!
# `Proofs.Spans` — where the nodes of a tree stand in the source

The tokens of a source stand in ascending order (`Scanner.ascending_drain`). A node is `Placed` at some
of them if it and all nodes below it have spans with ends at these tokens, children lie inside their
parent one behind the other, and leaves stand at the token they are made from. A `Row` is a list of
such nodes one behind the other.

Every reading gives a row (`Reads.laid`): what it takes stands behind the trees it starts from, and each
form of node covers the tokens of its parts, whichever way its span is made. Only the root is no form
like the others, since it starts where the source starts and not at a token.

## Main result
- `Source.spans_of_parse`: the spans of the tree that a source is read as.
-/

namespace LambdaReader

open TokenSource

/-! ## Tokens in ascending order -/

/-- Every token starts behind the start of the one before it. -/
def Token.Ascending (ts : List Token) : Prop :=
  ts.Pairwise fun t u => t.location.offset < u.location.offset

/-- A scan goes forward. -/
theorem Scanner.ascending_drain (s : Scanner) : Token.Ascending (drain s).1 ∧
    ∀ t ∈ (drain s).1, s.location.offset ≤ t.location.offset := by
  refine drain_induction (P := fun s d => Token.Ascending d.1 ∧
    ∀ t ∈ d.1, s.location.offset ≤ t.location.offset) ?_ ?_ ?_ s
  · intro s s' t hscan ⟨hascending, hbehind⟩
    have htakes := readNext_some hscan
    have hstop : s'.location = t.stop := htakes.location
    obtain ⟨run, _, hd, ht, _⟩ := htakes
    have hpos : 0 < t.lexeme.toList.length := by
      rw [ht, String.toList_ofList]
      exact List.length_pos_iff.mpr hd.ne_nil
    have hlt : t.location.offset < s'.location.offset := by
      rw [hstop, Token.stop, Location.advance_offset]
      omega
    have hle : s.location.offset ≤ t.location.offset := by
      rw [ht, after_location, Location.advance_offset]
      omega
    refine ⟨List.pairwise_cons.mpr ⟨fun u hu => ?_, hascending⟩,
      List.forall_mem_cons.mpr ⟨hle, fun u hu => ?_⟩⟩
    · exact Int.lt_of_lt_of_le hlt (hbehind u hu)
    · have hu := hbehind u hu
      omega
  · intro s s' _
    exact ⟨.nil, List.forall_mem_nil _⟩
  · intro s s' f _
    exact ⟨.nil, List.forall_mem_nil _⟩

/-! ## Spans -/

namespace Span

/-- The one lies inside the other. -/
def Within (a b : Span) : Prop := b.first.offset ≤ a.first.offset ∧ a.last.offset ≤ b.last.offset

/-- The one ends before the other starts. -/
def Before (a b : Span) : Prop := a.last.offset < b.first.offset

/-- The one does not start behind the start of the other. -/
def StartsBy (a b : Span) : Prop := a.first.offset ≤ b.first.offset

/-- The ends are at tokens, in their order. -/
structure Anchored (ts : List Token) (a : Span) : Prop where
  first : ∃ t ∈ ts, t.location = a.first
  last : ∃ t ∈ ts, t.location = a.last
  le : a.first.offset ≤ a.last.offset

theorem Anchored.mono {ts us : List Token} {a : Span} (h : a.Anchored ts) (hsub : ts ⊆ us) :
    a.Anchored us := by
  obtain ⟨⟨t, ht, hfirst⟩, ⟨u, hu, hlast⟩, hle⟩ := h
  exact ⟨⟨t, hsub ht, hfirst⟩, ⟨u, hsub hu, hlast⟩, hle⟩

end Span

namespace Node

/-- Both nodes have spans, which are related. -/
def Spanning (R : Span → Span → Prop) (n m : Node) : Prop :=
  ∃ a b, n.span = some a ∧ m.span = some b ∧ R a b

/-- A leaf that is made from one token. -/
def isLeaf : Node → Bool
  | number .. | string .. | reference .. | operator .. => true
  | _ => false

/-- The spans of the children lie inside that of the node, one behind the other. -/
structure Nested (n : Node) : Prop where
  within : ∀ c ∈ n.children, c.Spanning Span.Within n
  before : n.children.Pairwise (Spanning Span.Before)

/-- The node and all nodes below it have their spans from these tokens. -/
inductive Placed (ts : List Token) : Node → Prop where
  | intro {n : Node} {a : Span} : n.span = some a → a.Anchored ts →
    (n.isLeaf = true → ∃ t ∈ ts, t.leaf? = some n) → n.Nested →
    (∀ c ∈ n.children, Placed ts c) → Placed ts n

/-- Trees with spans from these tokens, one behind the other. -/
structure Row (ts : List Token) (ns : List Node) : Prop where
  placed : ∀ n ∈ ns, n.Placed ts
  before : ns.Pairwise (Spanning Span.Before)

variable {ts us : List Token} {n m : Node} {ns ms : List Node}

theorem Placed.mono (h : n.Placed ts) (hsub : ts ⊆ us) : n.Placed us := by
  induction h with
  | intro hspan ha hleaf hnested _ ih =>
    refine .intro hspan (ha.mono hsub) (fun hn => ?_) hnested ih
    obtain ⟨t, ht, hn⟩ := hleaf hn
    exact ⟨t, hsub ht, hn⟩

theorem Row.mono (h : Row ts ns) (hsub : ts ⊆ us) : Row us ns :=
  ⟨fun n hn => (h.placed n hn).mono hsub, h.before⟩

theorem Placed.anchored (h : n.Placed ts) : ∃ a, n.span = some a ∧ a.Anchored ts := by
  cases h with
  | intro hspan ha => exact ⟨_, hspan, ha⟩

theorem Row.nil (ts : List Token) : Row ts [] := ⟨nofun, .nil⟩

theorem Row.single : Row ts [n] ↔ n.Placed ts :=
  ⟨fun h => h.placed n (List.mem_singleton_self n),
    fun h => ⟨List.forall_mem_singleton.mpr h, List.pairwise_singleton _ _⟩⟩

/-- What is read from tokens further behind stands further behind. -/
theorem Row.append (h : Row ts ms) (h' : Row us ns) (hts : Token.Ascending (ts ++ us)) :
    Row (ts ++ us) (ms ++ ns) := by
  obtain ⟨_, _, hlt⟩ := List.pairwise_append.mp hts
  refine ⟨fun n hn => ?_, List.pairwise_append.mpr ⟨h.before, h'.before, fun m hm n hn => ?_⟩⟩
  · rcases List.mem_append.mp hn with hn | hn
    · exact (h.placed n hn).mono (List.subset_append_left _ _)
    · exact (h'.placed n hn).mono (List.subset_append_right _ _)
  · obtain ⟨a, ha, _, ⟨t, ht, hlast⟩, _⟩ := (h.placed m hm).anchored
    obtain ⟨b, hb, ⟨u, hu, hfirst⟩, _⟩ := (h'.placed n hn).anchored
    refine ⟨a, b, ha, hb, ?_⟩
    rw [Span.Before, ← hlast, ← hfirst]
    exact hlt t ht u hu

/-! ### Walks -/

theorem Placed.of_mem_walk (h : n.Placed ts) : ∀ m ∈ n.walk, m.Placed ts := by
  induction h with
  | @intro n a hspan ha hleaf hnested hchildren ih =>
    intro m hm
    rw [walk_eq_cons, List.mem_cons, List.mem_flatMap] at hm
    obtain rfl | ⟨c, hc, hm⟩ := hm
    · exact .intro hspan ha hleaf hnested hchildren
    · exact ih c hc m hm

/-- All nodes below a node lie inside it. -/
theorem Placed.within (h : n.Placed ts) : ∀ m ∈ n.walk, m.Spanning Span.Within n := by
  induction h with
  | @intro n a hspan ha _ hnested _ ih =>
    intro m hm
    rw [walk_eq_cons, List.mem_cons, List.mem_flatMap] at hm
    obtain rfl | ⟨c, hc, hm⟩ := hm
    · exact ⟨a, a, hspan, hspan, Int.le_refl _, Int.le_refl _⟩
    · obtain ⟨x, y, hx, hy, hfirst, hlast⟩ := ih c hc m hm
      obtain ⟨y', b, hy', hb, hfirst', hlast'⟩ := hnested.within c hc
      obtain rfl : y = y' := Option.some.inj (hy.symm.trans hy')
      exact ⟨x, b, hx, hb, Int.le_trans hfirst' hfirst, Int.le_trans hlast hlast'⟩

/-- Walks of nodes one behind the other. -/
theorem startsBy_of_before (h : n.Placed ts) (h' : m.Placed us) (hbefore : n.Spanning Span.Before m)
    {x y : Node} (hx : x ∈ n.walk) (hy : y ∈ m.walk) : x.Spanning Span.StartsBy y := by
  obtain ⟨a, ha, _, _, hle⟩ := (h.of_mem_walk x hx).anchored
  obtain ⟨a', b, ha', hb, _, hin⟩ := h.within x hx
  obtain ⟨c, d, hc, hd, hin', _⟩ := h'.within y hy
  obtain ⟨b', d', hb', hd', hlt⟩ := hbefore
  obtain rfl : a = a' := Option.some.inj (ha.symm.trans ha')
  obtain rfl : b = b' := Option.some.inj (hb.symm.trans hb')
  obtain rfl : d = d' := Option.some.inj (hd.symm.trans hd')
  refine ⟨a, c, ha, hc, ?_⟩
  unfold Span.Before at hlt
  unfold Span.StartsBy
  omega

theorem Placed.walk_sorted (h : n.Placed ts) : n.walk.Pairwise (Spanning Span.StartsBy) := by
  induction h with
  | @intro n a hspan ha hleaf hnested hchildren ih =>
    rw [walk_eq_cons, List.pairwise_cons, List.pairwise_flatMap]
    refine ⟨fun m hm => ?_, ih, hnested.before.imp_of_mem ?_⟩
    · have hwalk : m ∈ n.walk := by
        rw [walk_eq_cons]
        exact List.mem_cons_of_mem n hm
      have hn := Placed.intro hspan ha hleaf hnested hchildren
      obtain ⟨x, y, hx, hy, hfirst, _⟩ := hn.within m hwalk
      exact ⟨y, x, hy, hx, hfirst⟩
    · intro c d hc hd hbefore x hx y hy
      exact startsBy_of_before (hchildren c hc) (hchildren d hd) hbefore hx hy

theorem Row.walk_sorted (h : Row ts ns) : (ns.flatMap walk).Pairwise (Spanning Span.StartsBy) := by
  rw [List.pairwise_flatMap]
  refine ⟨fun n hn => (h.placed n hn).walk_sorted, h.before.imp_of_mem ?_⟩
  intro c d hc hd hbefore x hx y hy
  exact startsBy_of_before (h.placed c hc) (h.placed d hd) hbefore hx hy

end Node

/-! ## Nodes of the forms -/

theorem Token.Ascending.le_getLast {ts : List Token} (h : Ascending ts) (hne : ts ≠ []) {t : Token}
    (ht : t ∈ ts) : t.location.offset ≤ (ts.getLast hne).location.offset := by
  have hsplit := List.dropLast_append_getLast hne
  rw [← hsplit] at h ht
  obtain ⟨_, _, hlt⟩ := List.pairwise_append.mp h
  rcases List.mem_append.mp ht with ht | ht
  · exact Int.le_of_lt (hlt t ht _ (List.mem_singleton_self _))
  · exact Int.le_of_eq (congrArg (·.location.offset) (List.mem_singleton.mp ht))

/-- The span goes from the first of the tokens to the last. -/
structure Span.Covers (ts : List Token) (a : Span) : Prop where
  anchored : a.Anchored ts
  first_le : ∀ t ∈ ts, a.first.offset ≤ t.location.offset
  le_last : ∀ t ∈ ts, t.location.offset ≤ a.last.offset

namespace Spot

variable {s s' : Spot} {ts : List Token}

theorem Takes.ascending (h : s.Takes ts s') (hs : Token.Ascending s.rest) :
    Token.Ascending ts ∧ Token.Ascending s'.rest := by
  rw [h.1] at hs
  obtain ⟨hts, hrest, _⟩ := List.pairwise_append.mp hs
  exact ⟨hts, hrest⟩

theorem Takes.last_eq (h : s.Takes ts s') (hne : ts ≠ []) : s'.last = some (ts.getLast hne) := by
  rw [h.2, List.getLast?_eq_some_getLast hne]
  rfl

/-- The span from the next token to the last one that is taken. -/
theorem Takes.covers (h : s.Takes ts s') (hts : Token.Ascending ts) (hne : ts ≠ []) :
    ∃ a, s.spanTo s' = some a ∧ a.Covers ts := by
  obtain ⟨t, us, rfl⟩ := List.exists_cons_of_ne_nil hne
  have hlast := h.last_eq hne
  have hspan : s.spanTo s' = some ⟨t.location, ((t :: us).getLast hne).location⟩ := by
    unfold Spot.spanTo
    rw [h.1]
    show some (s'.spanFrom t.location) = _
    rw [Spot.spanFrom, hlast]
    rfl
  have hfirst : ∀ u ∈ t :: us, t.location.offset ≤ u.location.offset :=
    List.forall_mem_cons.mpr
      ⟨Int.le_refl _, fun u hu => Int.le_of_lt ((List.pairwise_cons.mp hts).1 u hu)⟩
  refine ⟨_, hspan, ⟨⟨t, List.mem_cons_self, rfl⟩, ⟨_, List.getLast_mem hne, rfl⟩, ?_⟩, hfirst, ?_⟩
  · exact hfirst _ (List.getLast_mem hne)
  · exact fun u hu => hts.le_getLast hne hu

end Spot

namespace Node

variable {ts us : List Token} {n l r callee : Node} {args : List Node} {s s' : Spot}

/-- A node with its children from the tokens that its span covers. -/
theorem Row.covered {a : Span} (h : Row ts n.children) (hn : n.isLeaf = false)
    (hspan : n.span = some a) (ha : a.Covers ts) : n.Placed ts := by
  refine .intro hspan ha.anchored (fun hleaf => ?_) ⟨fun c hc => ?_, h.before⟩ h.placed
  · rw [hn] at hleaf
    cases hleaf
  · obtain ⟨b, hb, ⟨t, ht, hfirst⟩, ⟨u, hu, hlast⟩, _⟩ := (h.placed c hc).anchored
    refine ⟨b, a, hb, hspan, ?_, ?_⟩
    · rw [← hfirst]
      exact ha.first_le t ht
    · rw [← hlast]
      exact ha.le_last u hu

/-- The node of an operator goes from the start of the one operand to the end of the other. -/
theorem Row.joined (h : Row ts [l, r]) (x : String) : (Node.joined x l r).Placed ts := by
  obtain ⟨a, ha, hl⟩ := (h.placed l (by simp)).anchored
  obtain ⟨b, hb, hr⟩ := (h.placed r (by simp)).anchored
  obtain ⟨a', b', ha', hb', hlt⟩ := List.pairwise_pair.mp h.before
  obtain rfl : a = a' := Option.some.inj (ha.symm.trans ha')
  obtain rfl : b = b' := Option.some.inj (hb.symm.trans hb')
  have hspan : (Node.joined x l r).span = some ⟨a.first, b.last⟩ := by
    rw [Node.joined, ha, hb]
    split <;> rfl
  have hchildren : (Node.joined x l r).children = [l, r] := by
    rw [Node.joined]
    split <;> rfl
  have hleaf : (Node.joined x l r).isLeaf = false := by
    rw [Node.joined]
    split <;> rfl
  have hle := hl.le
  have hle' := hr.le
  unfold Span.Before at hlt
  rw [← hchildren] at h
  refine .intro hspan ⟨hl.first, hr.last, by dsimp only; omega⟩ (fun hn => ?_)
    ⟨fun c hc => ?_, h.before⟩ h.placed
  · rw [hleaf] at hn
    cases hn
  · rw [hchildren, List.mem_pair] at hc
    obtain rfl | rfl := hc
    · exact ⟨a, _, ha, hspan, Int.le_refl _, by dsimp only; omega⟩
    · exact ⟨b, _, hb, hspan, by dsimp only; omega, Int.le_refl _⟩

/-- A call goes from the start of what is called to the mark behind the arguments. -/
theorem Placed.called (h : callee.Placed ts) (hargs : Row us args) (hasc : Token.Ascending (ts ++ us))
    (hus : s.Takes us s') (hne : us ≠ []) : (Node.called callee args s').Placed (ts ++ us) := by
  have hrow : Row (ts ++ us) (callee :: args) := (Row.single.mpr h).append hargs hasc
  obtain ⟨a, ha, hfirst, ⟨t, ht, hlast⟩, hle⟩ := h.anchored
  have hspan : (Node.called callee args s').span = some ⟨a.first, (us.getLast hne).location⟩ := by
    rw [Node.called, ha]
    show some (s'.spanFrom a.first) = _
    rw [Spot.spanFrom, hus.last_eq hne]
    rfl
  -- Whatever the tokens are, the last one is behind all that stands below the call.
  have hends : ∀ c ∈ callee :: args, ∀ b, c.span = some b →
      b.last.offset ≤ (us.getLast hne).location.offset := by
    intro c hc b hb
    obtain ⟨b', hb', _, ⟨v, hv, hend⟩, _⟩ := (hrow.placed c hc).anchored
    obtain rfl : b = b' := Option.some.inj (hb.symm.trans hb')
    have hle := hasc.le_getLast (List.append_ne_nil_of_right_ne_nil ts hne) hv
    rw [List.getLast_append_of_ne_nil _ hne] at hle
    rw [← hend]
    exact hle
  have hstarts : ∀ c ∈ callee :: args, ∀ b, c.span = some b → a.first.offset ≤ b.first.offset := by
    intro c hc b hb
    obtain rfl | hc := List.mem_cons.mp hc
    · obtain rfl : a = b := Option.some.inj (ha.symm.trans hb)
      exact Int.le_refl _
    · obtain ⟨a', b', ha', hb', hlt⟩ := (List.pairwise_cons.mp hrow.before).1 c hc
      obtain rfl : a = a' := Option.some.inj (ha.symm.trans ha')
      obtain rfl : b = b' := Option.some.inj (hb.symm.trans hb')
      exact Int.le_trans hle (Int.le_of_lt hlt)
  have hmem : us.getLast hne ∈ ts ++ us := List.mem_append_right ts (List.getLast_mem hne)
  refine .intro hspan ⟨?_, ⟨_, hmem, rfl⟩, ?_⟩ Bool.noConfusion ⟨fun c hc => ?_, hrow.before⟩ hrow.placed
  · obtain ⟨u, hu, hstart⟩ := hfirst
    exact ⟨u, List.mem_append_left us hu, hstart⟩
  · exact Int.le_trans hle (hends callee List.mem_cons_self a ha)
  · obtain ⟨b, hb, _⟩ := (hrow.placed c hc).anchored
    exact ⟨b, _, hb, hspan, hstarts c hc b hb, hends c hc b hb⟩

/-- A node with its parts from tokens that its span goes over. -/
theorem Row.formed (h : Row ts n.children) (hn : n.isLeaf = false) (hts : s.Takes ts s')
    (hs : Token.Ascending s.rest) (hne : ts ≠ []) (hspan : n.span = s.spanTo s') : n.Placed ts := by
  obtain ⟨a, ha, hcovers⟩ := hts.covers (hts.ascending hs).1 hne
  exact h.covered hn (hspan.trans ha) hcovers

end Node

theorem Token.placed_leaf {t : Token} {a : Node} (h : t.leaf? = some a) :
    a.span = some ⟨t.location, t.location⟩ ∧ a.Placed [t] := by
  have hshape : a.span = some ⟨t.location, t.location⟩ ∧ a.children = [] := by
    have hleaf := h
    unfold Token.leaf? at hleaf
    cases hk : t.kind <;> rw [hk] at hleaf
    case punctuation | keyword => cases hleaf
    case number =>
      obtain ⟨x, _, rfl⟩ := Option.map_eq_some_iff.mp hleaf
      exact ⟨rfl, rfl⟩
    all_goals
      obtain rfl := Option.some.inj hleaf
      exact ⟨rfl, rfl⟩
  obtain ⟨hspan, hchildren⟩ := hshape
  have hmem := List.mem_singleton_self t
  refine ⟨hspan, .intro hspan ⟨⟨t, hmem, rfl⟩, ⟨t, hmem, rfl⟩, Int.le_refl _⟩
    (fun _ => ⟨t, hmem, h⟩) ?_ ?_⟩
  · exact ⟨by rw [hchildren]; nofun, by rw [hchildren]; exact .nil⟩
  · rw [hchildren]
    nofun

/-! ## Every reading gives a row -/

namespace Node

/-- From one place to another these trees are laid out, in a row with what was made from the tokens
`vs` before them. -/
def Laid (vs : List Token) (s : Spot) (ns : List Node) (s' : Spot) : Prop :=
  Token.Ascending (vs ++ s.rest) → ∃ ts, s.Takes ts s' ∧ Row (vs ++ ts) ns

section Rules

variable {o : ParseOptions} {kind : TokenKind} {x stop separator : String} {params : List String}
  {vs : List Token} {s s₁ s' : Spot} {l r m n callee : Node} {ms ns args body : List Node}

/-- Where nothing is taken, what is there is a row already. -/
theorem Row.laid (h : Row vs ns) (s : Spot) : Laid vs s ns s := by
  intro _
  refine ⟨[], .nil s, ?_⟩
  rwa [List.append_nil]

/-- A row of its own is one behind other tokens. -/
theorem Laid.ahead (h : Laid [] s ns s') : Laid vs s ns s' := by
  intro hasc
  obtain ⟨ts, hts, hrow⟩ := h (List.pairwise_append.mp hasc).2.1
  exact ⟨ts, hts, hrow.mono (List.subset_append_right vs ts)⟩

theorem Laid.append (h : Laid vs s ms s₁) (h' : Laid [] s₁ ns s') : Laid vs s (ms ++ ns) s' := by
  intro hasc
  obtain ⟨ts, hts, hms⟩ := h hasc
  rw [hts.1, ← List.append_assoc] at hasc
  obtain ⟨us, hus, hns⟩ := h' (List.pairwise_append.mp hasc).2.1
  rw [hus.1, ← List.append_assoc] at hasc
  have hrow := hms.append hns (List.pairwise_append.mp hasc).1
  rw [List.append_assoc] at hrow
  exact ⟨_, hts.append hus, hrow⟩

/-- What starts from a tree goes on behind the tokens of that tree. -/
theorem Laid.goOn (h : Laid vs s [m] s₁) (h' : ∀ {ws}, m.Placed ws → Laid ws s₁ ns s') :
    Laid vs s ns s' := by
  intro hasc
  obtain ⟨ts, hts, hm⟩ := h hasc
  rw [hts.1, ← List.append_assoc] at hasc
  obtain ⟨us, hus, hns⟩ := h' (Row.single.mp hm) hasc
  rw [List.append_assoc] at hns
  exact ⟨_, hts.append hus, hns⟩

/-- Tokens that are only passed over. -/
theorem laid_nil {ts : List Token} (h : s.Takes ts s') : Laid vs s [] s' := fun _ => ⟨ts, h, .nil _⟩

theorem laid_of_passes (h : s.Passes kind x s') : Laid vs s [] s' := by
  obtain ⟨t, _, ht⟩ := h.takes
  exact laid_nil ht

theorem laid_of_then (h : s.Then s') : Laid vs s [] s' := by
  obtain ⟨ts, hts⟩ := h.takes
  exact laid_nil hts

theorem laid_of_params {first : Bool} (h : Sequence o Spot.Names stop separator first s params s') :
    Laid vs s [] s' := by
  obtain ⟨ts, hts⟩ := h.takes fun hx => by
    obtain ⟨t, _, _, ht⟩ := hx.takes
    exact ⟨_, ht⟩
  exact laid_nil hts

theorem laid_of_leaf? {last : Option Token} {t : Token} {rest : List Token} (h : t.leaf? = some n) :
    Laid vs ⟨last, t :: rest⟩ [n] ⟨some t, rest⟩ :=
  Laid.ahead fun _ => ⟨[t], .one last t rest, Row.single.mpr (Token.placed_leaf h).2⟩

/-- The node of a form that starts with a token of its own and goes to the last token of its parts. -/
theorem Laid.formed (hfirst : s.Passes kind x s₁) (h : Laid [] s₁ n.children s') (hn : n.isLeaf = false)
    (hspan : n.span = s.spanTo s') : Laid vs s [n] s' := by
  refine Laid.ahead fun hasc => ?_
  obtain ⟨t, _, ht⟩ := hfirst.takes
  obtain ⟨ts, hts, hrow⟩ := h ((ht.ascending hasc).2)
  have htake := ht.append hts
  have hparts : Row ([t] ++ ts) n.children := hrow.mono (List.subset_append_right [t] ts)
  exact ⟨_, htake, Row.single.mpr (hparts.formed hn htake hasc (List.cons_ne_nil t ts) hspan)⟩

/-- Of the one expression of a block the braces are no part. -/
theorem Laid.blocked (hopen : s.Passes .punctuation "\x7b" s₁) (h : Laid [] s₁ body s') :
    Laid vs s [.blocked body (s.spanTo s')] s' := by
  match body, h with
  | [], h => exact Laid.formed hopen h rfl rfl
  | [_], h => exact (laid_of_passes hopen).append h
  | _ :: _ :: _, h => exact Laid.formed hopen h rfl rfl

/-- An operator between what was there before it and what is laid out behind it. -/
theorem Laid.folded {last : Option Token} {t : Token} {rest : List Token} (hleft : l.Placed vs)
    (h : Laid [] ⟨some t, rest⟩ [r] s') : Laid vs ⟨last, t :: rest⟩ [.joined t.text l r] s' := by
  intro hasc
  have hsymbol : Laid [] ⟨last, t :: rest⟩ [] ⟨some t, rest⟩ := laid_nil (.one last t rest)
  obtain ⟨ts, hts, hboth⟩ := ((Row.single.mpr hleft).laid _).append (hsymbol.append h) hasc
  exact ⟨ts, hts, Row.single.mpr (hboth.joined t.text)⟩

/-- The arguments of a call behind what is called. -/
theorem Laid.called (hcallee : callee.Placed vs) (hopen : s.Passes .punctuation "(" s₁)
    (h : Laid [] s₁ args s') : Laid vs s [.called callee args s'] s' := by
  intro hasc
  obtain ⟨t, _, ht⟩ := hopen.takes
  obtain ⟨ts, hts, hargs⟩ := h (ht.ascending (List.pairwise_append.mp hasc).2.1).2
  have htake := ht.append hts
  rw [htake.1, ← List.append_assoc] at hasc
  have hargs : Row ([t] ++ ts) args := hargs.mono (List.subset_append_right [t] ts)
  exact ⟨_, htake, Row.single.mpr
    (hcallee.called hargs (List.pairwise_append.mp hasc).1 htake (List.cons_ne_nil t ts))⟩

end Rules

end Node

open Node in
/-- A reading lays out its trees one behind the other, with their spans from the tokens it takes and from
those of the trees it starts from. -/
theorem Reads.laid {o : ParseOptions} {task : Task} {s s' : Spot} {ns : List Node}
    (h : Reads o task s ns s') {vs : List Token} (hgiven : ∀ n ∈ task.given, n.Placed vs) :
    Laid vs s ns s' := by
  induction h generalizing vs with
  | done => exact (Row.nil vs).laid _
  | last _ _ ih => exact ih nofun
  | next _ hsep _ ihe ih => exact (ihe nofun).append ((laid_of_passes hsep).append (ih nofun))
  | expression _ _ _ iha iho ihs =>
    exact ((iha nofun).goOn fun hatom => iho (List.forall_mem_singleton.mpr hatom)).goOn
      fun hwhole => ihs (List.forall_mem_singleton.mpr hwhole)
  | operand _ _ iha iho => exact (iha nofun).goOn fun hatom => iho (List.forall_mem_singleton.mpr hatom)
  | settled | bare => exact (Row.single.mpr (List.forall_mem_singleton.mp hgiven)).laid _
  | fold _ _ _ ihr iho =>
    exact (Laid.folded (List.forall_mem_singleton.mp hgiven) (ihr nofun)).goOn
      fun hjoined => iho (List.forall_mem_singleton.mpr hjoined)
  | atom _ _ ihp ihs => exact (ihp nofun).goOn fun hfirst => ihs (List.forall_mem_singleton.mpr hfirst)
  | call hopen _ ih => exact .called (List.forall_mem_singleton.mp hgiven) hopen (ih nofun)
  | group hopen _ hclose ih =>
    exact (laid_of_passes hopen).append ((ih nofun).append (laid_of_passes hclose))
  | block hopen _ ih => exact .blocked hopen (ih nofun)
  | ifThen hif _ hthen _ _ ihc ihp =>
    exact .formed hif (((ihc nofun).append (laid_of_then hthen)).append (ihp nofun)) rfl rfl
  | ifElse hif _ hthen _ helse _ ihc ihp ihq =>
    exact .formed hif ((((ihc nofun).append (laid_of_then hthen)).append (ihp nofun)).append
      ((laid_of_passes helse).append (ihq nofun))) rfl rfl
  | lambda hword hopen hparams _ ihb =>
    exact .formed hword (((laid_of_passes hopen).append (laid_of_params hparams)).append (ihb nofun))
      rfl rfl
  | truth h => exact .formed h ((Row.nil []).laid _) rfl rfl
  | leaf hleaf => exact laid_of_leaf? hleaf
  | seqClose hstop => exact laid_of_passes hstop
  | seqTrailing _ hsep hstop => exact (laid_of_passes hsep).append (laid_of_passes hstop)
  | seqFirst _ _ ihe ih => exact (ihe nofun).append (ih nofun)
  | seqMore hsep _ _ ihe ih =>
    exact (laid_of_passes hsep).append ((ihe nofun).append (ih nofun))

/-! ## Spans of a program -/

namespace Node

variable {ts : List Token} {body : List Node} {first : Location}

/-- The span of a whole program, from the start of the source to the last token. -/
def rootSpan (first : Location) (ts : List Token) : Span :=
  ⟨first, (ts.getLast?.map Token.location).getD first⟩

theorem first_le_rootSpan (hfirst : ∀ t ∈ ts, first.offset ≤ t.location.offset) :
    first.offset ≤ (rootSpan first ts).last.offset := by
  unfold rootSpan
  cases hlast : ts.getLast? with
  | none => exact Int.le_refl _
  | some t => exact hfirst t (List.mem_of_getLast? hlast)

theorem le_rootSpan (hts : Token.Ascending ts) {t : Token} (ht : t ∈ ts) :
    t.location.offset ≤ (rootSpan first ts).last.offset := by
  have hne := List.ne_nil_of_mem ht
  unfold rootSpan
  rw [List.getLast?_eq_some_getLast hne]
  exact hts.le_getLast hne ht

/-- The root is like any other node, except that it starts where the source starts. -/
theorem Row.root (h : Row ts body) (hts : Token.Ascending ts)
    (hfirst : ∀ t ∈ ts, first.offset ≤ t.location.offset) :
    (program body (some (rootSpan first ts))).Nested ∧
      (program body (some (rootSpan first ts))).walk.Pairwise (Spanning Span.StartsBy) := by
  have hwithin (m : Node) (hm : m ∈ body.flatMap walk) :
      ∃ b, m.span = some b ∧ b.Within (rootSpan first ts) := by
    obtain ⟨c, hc, hm⟩ := List.mem_flatMap.mp hm
    obtain ⟨b, hb, ⟨t, ht, hstart⟩, ⟨u, hu, hend⟩, _⟩ := ((h.placed c hc).of_mem_walk m hm).anchored
    refine ⟨b, hb, ?_, ?_⟩
    · rw [← hstart]
      exact hfirst t ht
    · rw [← hend]
      exact le_rootSpan hts hu
  refine ⟨⟨fun c hc => ?_, h.before⟩, ?_⟩
  · have hwalk : c ∈ body.flatMap walk :=
      List.mem_flatMap.mpr ⟨c, hc, by rw [walk_eq_cons]; exact List.mem_cons_self⟩
    obtain ⟨b, hb, hin⟩ := hwithin c hwalk
    exact ⟨b, _, hb, rfl, hin⟩
  · rw [walk_eq_cons, List.pairwise_cons]
    refine ⟨fun m hm => ?_, h.walk_sorted⟩
    obtain ⟨b, hb, hin⟩ := hwithin m hm
    exact ⟨_, b, rfl, hb, hin.1⟩

end Node

/-- Spans are ordered, nested and anchored at tokens. -/
theorem Source.spans_of_parse {s : Source} {o : ParseOptions} {n : Node} (h : s.parse o = .ok n) :
    ∃ ts, s.tokens = .ok ts ∧
      n.span = some (Node.rootSpan (.start s.file) ts) ∧
      (∀ m ∈ n.walk, ∃ a, m.span = some a ∧ a.first.offset ≤ a.last.offset) ∧
      (∀ m ∈ n.walk.tail, ∃ a, m.span = some a ∧ a.Anchored ts) ∧
      (∀ m ∈ n.walk, m.isLeaf = true →
        ∃ t ∈ ts, t.leaf? = some m ∧ m.span = some ⟨t.location, t.location⟩) ∧
      (∀ m ∈ n.walk, m.Nested) ∧
      n.walk.Pairwise (Node.Spanning Span.StartsBy) := by
  obtain ⟨l, hdone⟩ := s.drain_of_parse h
  obtain ⟨body, s', hbody, rfl⟩ := (TokenSource.read_eq_ok_iff hdone n).mp h
  have htokens : s.tokens = .ok (drain s.scanner).1 := by rw [Source.tokens_eq, hdone]
  obtain ⟨hascending, hfirst⟩ := Scanner.ascending_drain s.scanner
  obtain ⟨ts, hts, hrow⟩ : ∃ ts, Spot.Takes _ ts s' ∧ Node.Row ([] ++ ts) body :=
    hbody.laid nofun hascending
  have hall : (drain s.scanner).1 = ts := by
    have hrest := hts.1
    rw [hbody.rest_of_statements, List.append_nil] at hrest
    exact hrest
  rw [hall] at htokens hascending hfirst
  have hspan : s'.spanFrom (location s.scanner) = Node.rootSpan (.start s.file) ts := by
    rw [Spot.spanFrom, hts.2, Option.or_none]
    rfl
  rw [hspan]
  have hfirst : ∀ t ∈ ts, (Location.start s.file).offset ≤ t.location.offset := hfirst
  obtain ⟨hnested, hsorted⟩ := hrow.root hascending hfirst
  have hbelow (m : Node) (hm : m ∈ body.flatMap Node.walk) : m.Placed ts := by
    obtain ⟨c, hc, hm⟩ := List.mem_flatMap.mp hm
    exact (hrow.placed c hc).of_mem_walk m hm
  have hwalk : (Node.program body (some (Node.rootSpan (.start s.file) ts))).walk =
      .program body (some (Node.rootSpan (.start s.file) ts)) :: body.flatMap Node.walk :=
    Node.walk_eq_cons _
  refine ⟨ts, htokens, rfl, ?_, ?_, ?_, ?_, hsorted⟩
  · rw [hwalk]
    refine List.forall_mem_cons.mpr ⟨⟨_, rfl, Node.first_le_rootSpan hfirst⟩, fun m hm => ?_⟩
    obtain ⟨a, ha, _, _, hle⟩ := (hbelow m hm).anchored
    exact ⟨a, ha, hle⟩
  · rw [hwalk]
    exact fun m hm => (hbelow m hm).anchored
  · rw [hwalk]
    refine List.forall_mem_cons.mpr ⟨nofun, fun m hm hleaf => ?_⟩
    cases hbelow m hm with
    | intro _ _ hmade =>
      obtain ⟨t, ht, hm⟩ := hmade hleaf
      exact ⟨t, ht, hm, (Token.placed_leaf hm).1⟩
  · rw [hwalk]
    refine List.forall_mem_cons.mpr ⟨hnested, fun m hm => ?_⟩
    cases hbelow m hm with
    | intro _ _ _ hm => exact hm

/-- The law for `{f(a, 1); b = "c"}`, whose parts have their spans in four ways. -/
theorem Source.spans_of_parse_block :
    let s : Source := ⟨"\x7bf(a, 1); b = \"c\"\x7d", "x", false⟩
    ∃ n ts, s.parse {} = .ok n ∧ s.tokens = .ok ts ∧ n.span = some (Node.rootSpan (.start "x") ts) ∧
      (∀ m ∈ n.walk.tail, ∃ a, m.span = some a ∧ a.Anchored ts) ∧ ∀ m ∈ n.walk, m.Nested := by
  intro s
  have hok : (s.parse {}).isOk = true := by decide +kernel
  cases hn : s.parse {} with
  | error e => rw [hn] at hok; cases hok
  | ok n =>
    obtain ⟨ts, hts, hspan, _, hanchored, _, hnested, _⟩ := Source.spans_of_parse hn
    exact ⟨n, ts, rfl, hts, hspan, hanchored, hnested⟩

end LambdaReader
