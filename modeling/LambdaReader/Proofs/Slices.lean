import LambdaReader.Proofs.Excerpt
import LambdaReader.Proofs.Stretches

/-!
# `Proofs.Slices` — what the text of a span is read as

The text that the span of a node covers can be parsed by itself. For a conditional, a function, a block
or a leaf it is read as that node, with the same options. For an operator or a call it need not be: the
span leaves out parentheses and braces around its first or last part. There the text of all its tokens is
read as the node, and the text of the span is so only if nothing is left out, and is refused otherwise,
since its brackets do not match.

## Main results
- `Source.own_slices`: the text of a conditional, a function, a block or a leaf;
- `Source.chain_slices`: the text of an operator or a call.
-/

namespace LambdaReader

open Token TokenSource

/-- The source is read as one expression, which is equal to the node. -/
def Source.ReadsAs (s : Source) (o : ParseOptions) (m : Node) : Prop :=
  ∃ e span, s.parse o = .ok (.program [e] span) ∧ (e == m) = true

/-! ## The text of a stretch -/

/-- What is read as a program of one tree, without spans. -/
theorem Node.IsProgram.eq_of_bare {n m : Node} {span : Option Span} (h : n.IsProgram)
    (hbare : n.bare = (Node.program [m] span).bare) :
    ∃ e span', n = .program [e] span' ∧ (e == m) = true := by
  cases h with
  | @program body span' hbody =>
    have hall : bareAll body = bareAll [m] := (Node.program.inj hbare).1
    match body, hbody, hall with
    | [], _, hall => cases hall
    | [e], hbody, hall =>
      have he : e.bare = m.bare := (List.cons.inj hall).1
      exact ⟨e, span', rfl, (hbody e (List.mem_singleton_self e)).same_of_bare he⟩
    | _ :: _ :: _, _, hall => cases (List.cons.inj hall).2

theorem Source.isLexeme_of_stretch {s : Source} {before ts after : List Token}
    (h : s.tokens = .ok (before ++ (ts ++ after))) : ∀ t ∈ ts, t.IsLexeme := fun t ht =>
  (Source.parse_eq_replay h {}).1 t (List.mem_append_right _ (List.mem_append_left _ ht))

/-- A stretch of the tokens that is read as a node has a text that is. -/
theorem Source.readsAs_excerpt {s : Source} {o : ParseOptions} {before ts after : List Token}
    {t u : Token} {m : Node} {l : Option Token} (htokens : s.tokens = .ok (before ++ (ts ++ after)))
    (ht : ts.head? = some t) (hu : ts.getLast? = some u)
    (h : Reads o (.expression o.maxDepth.toNat) ⟨none, ts⟩ [m] ⟨l, []⟩) :
    (s.excerpt t.location.offset u.stop.offset).ReadsAs o m := by
  obtain ⟨us, hus, hsame⟩ := Source.tokens_excerpt htokens ht hu
  have hlexemes := Source.isLexeme_of_stretch htokens
  -- The record of the stretch is read as the node, and so is every source with its tokens.
  let record : Replay := ⟨ts, .done t.location, t.location⟩
  have hdone : (drain record).2 = .done t.location := by rw [Replay.drain_done]
  have hbody : Reads o (.statements o.maxDepth.toNat) ⟨none, (drain record).1⟩ [m] ⟨l, []⟩ := by
    rw [Replay.drain_done]
    exact .last h rfl
  have hrecord := (TokenSource.read_eq_ok_iff hdone _).mpr ⟨[m], _, hbody, rfl⟩
  obtain ⟨n, hn, hbare⟩ := Source.parse_of_spelling hus hlexemes hsame hrecord
  obtain ⟨e, span, rfl, he⟩ := (Source.isProgram_of_parse hn).eq_of_bare hbare
  exact ⟨e, span, hn, he⟩

/-! ## Brackets of a text -/

theorem Token.map_bracket_scatter (i : Nat) (ts : List Token) :
    (scatter i ts).map bracket = ts.map bracket := by
  induction ts generalizing i with
  | nil => rfl
  | cons t ts ih =>
    rw [scatter, List.map_cons, List.map_cons, ih]
    rfl

/-- Brackets are told by their spelling. -/
theorem Token.Balanced.of_spelling {ts us : List Token} (h : Balanced us) (hts : ∀ t ∈ ts, t.IsLexeme)
    (hus : ∀ t ∈ us, t.IsLexeme) (hsame : us.map spelling = ts.map spelling) : Balanced ts := by
  have hbrackets : us.map bracket = ts.map bracket := by
    rw [← map_bracket_scatter 0 us, scatter_eq hus hts hsame, map_bracket_scatter]
  refine ⟨?_, fun vs hvs => ?_⟩
  · rw [brackets, ← hbrackets]
    exact h.total
  · rw [List.prefix_iff_eq_take.mp hvs, brackets, List.map_take, ← hbrackets, ← List.map_take]
    exact h.front _ (List.take_prefix _ _)

/-- A stretch of the tokens that is not balanced has a text that is refused. -/
theorem Source.excerpt_refused {s : Source} (o : ParseOptions) {before ts after : List Token}
    {t u : Token} (htokens : s.tokens = .ok (before ++ (ts ++ after))) (ht : ts.head? = some t)
    (hu : ts.getLast? = some u) (h : ¬Balanced ts) :
    ∃ e, (s.excerpt t.location.offset u.stop.offset).parse o = .error e := by
  obtain ⟨us, hus, hsame⟩ := Source.tokens_excerpt htokens ht hu
  have hlexemes := Source.isLexeme_of_stretch htokens
  cases hparse : (s.excerpt t.location.offset u.stop.offset).parse o with
  | error e => exact ⟨e, rfl⟩
  | ok n =>
    have hbalanced := Source.balanced_of_parse hus hparse
    exact absurd (hbalanced.of_spelling hlexemes (Source.parse_eq_replay hus o).1 hsame) h

/-! ## The nodes of a tree -/

/-- All nodes below the root of a tree stand among the tokens. -/
theorem Source.standsIn_of_parse {s : Source} {o : ParseOptions} {n : Node} (h : s.parse o = .ok n) :
    ∃ ts, s.tokens = .ok ts ∧ Ascending ts ∧ n.kind = .program ∧
      ∀ m ∈ n.walk.tail, m.StandsIn o o.maxDepth.toNat ts := by
  obtain ⟨l, hdone⟩ := s.drain_of_parse h
  have htokens : s.tokens = .ok (drain s.scanner).1 := by rw [Source.tokens_eq, hdone]
  obtain ⟨body, s', hbody, rfl⟩ := (TokenSource.read_eq_ok_iff hdone n).mp h
  refine ⟨_, htokens, (Scanner.ascending_drain s.scanner).1, rfl, fun m hm => ?_⟩
  rw [Node.walk_eq_cons, List.tail_cons, List.mem_flatMap] at hm
  obtain ⟨e, he, hm⟩ := hm
  exact hbody.stands (Nat.le_refl _) rfl e he m hm

/-- Tokens in ascending order stand at different places. -/
theorem Token.Ascending.index_unique {ts : List Token} (h : Ascending ts) {i j : Nat} {t u : Token}
    (ht : ts[i]? = some t) (hu : ts[j]? = some u) (hsame : t.location = u.location) : i = j := by
  obtain ⟨hi, rfl⟩ := List.getElem?_eq_some_iff.mp ht
  obtain ⟨hj, rfl⟩ := List.getElem?_eq_some_iff.mp hu
  have hlt := List.pairwise_iff_getElem.mp h
  rcases Nat.lt_trichotomy i j with hij | hij | hij
  · have hoffset := hlt i j hi hj hij
    rw [hsame] at hoffset
    exact absurd hoffset (Int.lt_irrefl _)
  · exact hij
  · have hoffset := hlt j i hj hi hij
    rw [hsame] at hoffset
    exact absurd hoffset (Int.lt_irrefl _)

/-- The text of the span of a conditional, a function, a block or a leaf, up to the end of the token at
the end of the span, is read as that node. And behind a conditional without `else` no `else` follows. -/
theorem Source.own_slices {s : Source} {o : ParseOptions} {n : Node} (h : s.parse o = .ok n) :
    ∃ ts, s.tokens = .ok ts ∧ ∀ m ∈ n.walk.tail, m.isChain = false →
      ∃ (a : Span) (i : Nat) (u : Token), m.span = some a ∧ ts[i]? = some u ∧ u.location = a.last ∧
        (∀ j v, ts[j]? = some v → v.location = a.last → j = i) ∧
        (s.excerpt a.first.offset u.stop.offset).ReadsAs o m ∧
        ∀ c p b, m = .ifThen c p b → ∀ v, ts[i + 1]? = some v → v.is .keyword "else" = false := by
  obtain ⟨ts, htokens, hascending, _, hstands⟩ := Source.standsIn_of_parse h
  refine ⟨ts, htokens, fun m hm hchain => ?_⟩
  cases hstands m hm with
  | @intro before opening inner closing after l hts henclosed hreads _ hwhole helse =>
    obtain ⟨rfl, rfl⟩ := hwhole hchain
    obtain ⟨t, u, ht, hu, hspan⟩ := henclosed.spansOver
    rw [List.nil_append, List.append_nil] at hts hreads
    -- The last token of the stretch has the tokens of `after` behind it.
    obtain ⟨vs, rfl⟩ := List.getLast?_eq_some_iff.mp hu
    have hlast : ts = (before ++ vs) ++ u :: after := by simp [hts]
    have hu' : ts[(before ++ vs).length]? = some u := by
      rw [hlast, List.getElem?_append_right (Nat.le_refl _), Nat.sub_self]
      rfl
    have hafter : ts[(before ++ vs).length + 1]? = after.head? := by
      rw [hlast, List.getElem?_append_right (Nat.le_succ _), Nat.succ_sub (Nat.le_refl _), Nat.sub_self,
        List.getElem?_cons_succ, List.head?_eq_getElem?]
    refine ⟨_, _, u, hspan, hu', rfl, fun j v hv hplace => ?_, ?_, fun c p b hm v hv => ?_⟩
    · exact hascending.index_unique hv hu' hplace
    · rw [hts] at htokens
      exact Source.readsAs_excerpt htokens ht hu hreads
    · rw [hafter] at hv
      exact helse c p b hm v hv

/-- The conditional and the block in the arguments of a call. -/
theorem Source.own_slices_argument :
    let s : Source := ⟨"f(if a then \x7bb; c\x7d)", "x", false⟩
    ∃ n ts, s.parse {} = .ok n ∧ s.tokens = .ok ts ∧ ∀ m ∈ n.walk.tail, m.isChain = false →
      ∃ (a : Span) (u : Token), m.span = some a ∧ u ∈ ts ∧ u.location = a.last ∧
        (s.excerpt a.first.offset u.stop.offset).ReadsAs {} m := by
  intro s
  have hok : (s.parse {}).isOk = true := by decide +kernel
  cases hn : s.parse {} with
  | error e => rw [hn] at hok; cases hok
  | ok n =>
    obtain ⟨ts, hts, hall⟩ := Source.own_slices hn
    refine ⟨n, ts, rfl, hts, fun m hm hchain => ?_⟩
    obtain ⟨a, i, u, hspan, hu, hlast, _, hreads, _⟩ := hall m hm hchain
    exact ⟨a, u, hspan, List.mem_of_getElem? hu, hlast, hreads⟩

/-- Operators and calls are read from a stretch of tokens, brackets around those that the span goes over
included: the text of the stretch is read as the node. The text of the span is so if there are no brackets
around it, and is refused if there are. -/
theorem Source.chain_slices {s : Source} {o : ParseOptions} {n : Node} (h : s.parse o = .ok n) :
    ∀ m ∈ n.walk, m.isChain = true → ∃ before opening inner closing after first last t u,
      s.tokens = .ok (before ++ ((opening ++ (inner ++ closing)) ++ after)) ∧
      (∀ t ∈ opening, t.IsOpening) ∧ Closers closing ∧
      (opening ++ (inner ++ closing)).head? = some first ∧
      (opening ++ (inner ++ closing)).getLast? = some last ∧
      (s.excerpt first.location.offset last.stop.offset).ReadsAs o m ∧
      inner.head? = some t ∧ inner.getLast? = some u ∧ m.span = some ⟨t.location, u.location⟩ ∧
      (opening = [] ∧ closing = [] → (s.excerpt t.location.offset u.stop.offset).ReadsAs o m) ∧
      (¬(opening = [] ∧ closing = []) →
        ∃ e, (s.excerpt t.location.offset u.stop.offset).parse o = .error e) := by
  obtain ⟨ts, htokens, _, hroot, hstands⟩ := Source.standsIn_of_parse h
  intro m hm hchain
  have hbelow : m ∈ n.walk.tail := by
    rw [Node.walk_eq_cons, List.mem_cons] at hm
    obtain rfl | hm := hm
    · rw [Node.isChain, hroot] at hchain
      cases hchain
    · rw [Node.walk_eq_cons]
      exact hm
  cases hstands m hbelow with
  | @intro before opening inner closing after l hts henclosed hreads hbalanced _ _ =>
    subst hts
    obtain ⟨t, u, ht, hu, hspan⟩ := henclosed.spansOver
    have hne : opening ++ (inner ++ closing) ≠ [] :=
      List.append_ne_nil_of_right_ne_nil _ (List.append_ne_nil_of_left_ne_nil henclosed.spansOver.ne_nil _)
    have hfirst := List.head?_eq_some_head hne
    have hlast := List.getLast?_eq_some_getLast hne
    have hwhole := Source.readsAs_excerpt htokens hfirst hlast hreads
    refine ⟨before, opening, inner, closing, after, _, _, t, u, htokens, henclosed.opens, henclosed.closes,
      hfirst, hlast, hwhole, ht, hu, hspan, ?_, fun hbrackets => ?_⟩
    · rintro ⟨rfl, rfl⟩
      rw [List.nil_append, List.append_nil] at htokens hreads
      exact Source.readsAs_excerpt htokens ht hu hreads
    · have hinner : s.tokens = .ok ((before ++ opening) ++ (inner ++ (closing ++ after))) := by
        rw [htokens]
        simp
      exact Source.excerpt_refused o hinner ht hu fun hinner => hbrackets (hbalanced hinner)

/-- The sum of a name in parentheses and a name is read from a part of the text. -/
theorem Source.chain_slices_group :
    let s : Source := ⟨"(a)+b", "x", false⟩
    ∃ n m, s.parse {} = .ok n ∧ m ∈ n.walk ∧ m.isChain = true ∧
      ∃ first last, (s.excerpt first last).ReadsAs {} m := by
  intro s
  have hok : (s.parse {}).toOption.any (fun n => n.walk.any Node.isChain) = true := by decide +kernel
  cases hn : s.parse {} with
  | error e => rw [hn] at hok; cases hok
  | ok n =>
    rw [hn] at hok
    obtain ⟨m, hm, hchain⟩ := List.any_eq_true.mp hok
    obtain ⟨_, _, _, _, _, first, last, _, _, _, _, _, _, _, hreads, _⟩ := Source.chain_slices hn m hm hchain
    exact ⟨n, m, rfl, hm, hchain, _, _, hreads⟩

/-- The text of its span begins behind the parenthesis, and is refused at the second one. -/
theorem Source.span_inside_group :
    let s : Source := ⟨"(a)+b", "x", false⟩
    ∃ n m ts u, s.parse {} = .ok n ∧ m ∈ n.walk ∧ m.isChain = true ∧ s.tokens = .ok ts ∧ u ∈ ts ∧
      m.span = some ⟨⟨"x", 1, 1, 1⟩, u.location⟩ ∧ ¬(s.excerpt 1 u.stop.offset).ReadsAs {} m := by
  intro s
  let a : Span := ⟨⟨"x", 1, 1, 1⟩, ⟨"x", 1, 4, 4⟩⟩
  have hparse : (s.parse {}).toOption.map (fun n => n.walk.map fun m => (m.isChain, m.span)) =
      some [(false, some ⟨⟨"x", 1, 0, 0⟩, ⟨"x", 1, 4, 4⟩⟩), (true, some a),
        (false, some ⟨⟨"x", 1, 1, 1⟩, ⟨"x", 1, 1, 1⟩⟩), (false, some ⟨⟨"x", 1, 4, 4⟩, ⟨"x", 1, 4, 4⟩⟩)] := by
    decide +kernel
  have htokens : s.tokens.toOption.bind (fun ts => ts[4]?.map fun u => (u.location, u.stop.offset)) =
      some (a.last, 5) := by
    decide +kernel
  have hrefused : ((s.excerpt 1 5).parse {}).isOk = false := by decide +kernel
  cases hn : s.parse {} with
  | error e => rw [hn] at hparse; cases hparse
  | ok n =>
    cases hts : s.tokens with
    | error e => rw [hts] at htokens; cases htokens
    | ok ts =>
      rw [hn] at hparse
      rw [hts] at htokens
      obtain ⟨u, hu, hlast⟩ := Option.map_eq_some_iff.mp htokens
      have hnode : (true, some a) ∈ n.walk.map fun m => (m.isChain, m.span) := by
        have hnodes := Option.some.inj hparse
        dsimp only at hnodes
        rw [hnodes]
        exact .tail _ (.head _)
      obtain ⟨m, hm, hmap⟩ := List.mem_map.mp hnode
      obtain ⟨hchain, hspan⟩ := Prod.mk.inj hmap
      obtain ⟨hlocation, hoffset⟩ := Prod.mk.inj hlast
      refine ⟨n, m, ts, u, rfl, hm, hchain, rfl, List.mem_of_getElem? hu, ?_, ?_⟩
      · rw [hspan, hlocation]
      · rintro ⟨e, span, hread, -⟩
        rw [hoffset] at hread
        rw [hread] at hrefused
        cases hrefused

end LambdaReader
