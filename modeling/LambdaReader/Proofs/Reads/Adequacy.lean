import LambdaReader.Proofs.Reads.Forms

/-!
# `Proofs.Reads.Adequacy` — the parser reads what `Reads` says

A parser succeeds exactly where `Reads` has a rule for it, with the nodes and the place that the rule
gives, if the source does not fail before that place. Expressions, operands and operators follow by
induction on the levels that are left, which `Reads` counts as the parser does; programs follow by
induction on the fuel of their loop.
-/

namespace LambdaReader

open TokenSource Step Spot

namespace Parser

variable {σ α β : Type} [TokenSource σ] [LawfulTokenSource σ]

/-! ## Operators -/

section Operators

variable {o : ParseOptions} {n : Nat} {s : Spot}

/-- Before an operator that binds tighter the parser sees its symbol, and otherwise none. -/
theorem tighterThan_bind {bound : Int} {f : Option String → Parse σ α} {R : α → Spot → Prop}
    (htight : ∀ t, s.rest.head? = some t → t.Tighter bound → ExactAt o n s (f (some t.text)) R)
    (hsettled : ¬ s.Tighter bound → ExactAt o n s (f none) R) :
    ExactAt o n s (tighterThan bound >>= f) R := by
  rw [tighterThan, bind_assoc]
  refine ExactAt.peek_bind ?_
  cases hs : s.rest.head? with
  | none =>
    dsimp only
    rw [pure_bind]
    refine hsettled ?_
    rintro ⟨t, ht, _⟩
    rw [hs] at ht
    cases ht
  | some t =>
    dsimp only
    by_cases ht : t.kind = .operator ∧ bound < (Precedence.ofSymbol t.text).strength
    · rw [if_pos ht, pure_bind]
      exact htight t hs ht
    · rw [if_neg ht, pure_bind]
      refine hsettled ?_
      rintro ⟨u, hu, hut⟩
      rw [hs] at hu
      cases hu
      exact ht hut

omit [TokenSource σ] [LawfulTokenSource σ] in
theorem join_eq {symbol : String} {left right : Node} (hl : left.span.isSome = true)
    (hr : right.span.isSome = true) :
    join (σ := σ) symbol left right = pure (Node.joined symbol left right) := by
  obtain ⟨a, ha⟩ := Option.isSome_iff_exists.mp hl
  obtain ⟨b, hb⟩ := Option.isSome_iff_exists.mp hr
  by_cases h : symbol = Node.assignSymbol
  · simp only [join, spanOf, Node.joined, ha, hb, pure_bind, Option.bind_some, Option.map_some,
      if_pos h]
  · simp only [join, spanOf, Node.joined, ha, hb, pure_bind, Option.bind_some, Option.map_some,
      if_neg h]

theorem reads_operators_succ_iff {left e : Node} {bound : Int} {l : Option Token} {t : Token}
    {rest : List Token} {s' : Spot} (ht : t.Tighter bound) :
    Reads o (.operators (n + 1) left bound) ⟨l, t :: rest⟩ [e] s' ↔ ∃ right s₁,
      Reads o (.operand n (rightBound o t.text)) ⟨some t, rest⟩ [right] s₁ ∧
      Reads o (.operators n (.joined t.text left right) bound) s₁ [e] s' := by
  constructor
  · intro h
    cases h with
    | settled h => exact absurd ⟨t, rfl, ht⟩ h
    | fold _ hright hrest => exact ⟨_, _, hright, hrest⟩
  · rintro ⟨right, s₁, hright, hrest⟩
    exact .fold ht hright hrest

theorem reads_operators_settled_iff {left e : Node} {bound : Int} {s' : Spot}
    (hs : ¬ s.Tighter bound) :
    Reads o (.operators n left bound) s [e] s' ↔ e = left ∧ s' = s := by
  constructor
  · intro h
    cases h with
    | settled => exact ⟨rfl, rfl⟩
    | fold ht => exact absurd ⟨_, rfl, ht⟩ hs
  · rintro ⟨rfl, rfl⟩
    exact .settled hs

/-- The three mutually recursive forms, by induction on the levels. -/
theorem levels_exact (o : ParseOptions) (n : Nat) :
    (∀ s, ExactAt (σ := σ) o n s (expressionAt o n) fun e s' => Reads o (.expression n) s [e] s') ∧
    (∀ bound s, ExactAt (σ := σ) o n s (operandAt o n bound) fun e s' =>
      Reads o (.operand n bound) s [e] s') ∧
    ∀ left bound s, left.span.isSome = true → ExactAt (σ := σ) o n s (operatorsAt o n left bound)
      fun e s' => Reads o (.operators n left bound) s [e] s' := by
  induction n with
  | zero =>
    refine ⟨fun s => ?_, fun bound s => ?_, fun left bound s _ => ?_⟩
    · exact ExactAt.exhausted.congr fun e s' => ⟨False.elim, nofun⟩
    · exact ExactAt.exhausted.congr fun e s' => ⟨False.elim, nofun⟩
    · refine tighterThan_bind (fun t hs ht => ?_) fun hs => ?_
      · -- Without a level left no operator can be folded, though one comes next.
        obtain ⟨l, _ | ⟨u, rest⟩⟩ := s
        · cases hs
        · cases hs
          refine ExactAt.advance_bind (ExactAt.exhausted.congr fun e s' => ⟨False.elim, fun h => ?_⟩)
          cases h with
          | settled h => exact h ⟨t, rfl, ht⟩
      · exact (ExactAt.pure left).congr fun e s' => (reads_operators_settled_iff hs).symm
  | succ n ih =>
    obtain ⟨ihe, iho, ihr⟩ := ih
    refine ⟨fun s => ?_, fun bound s => ?_, fun left bound s hleft => ?_⟩
    · refine ExactAt.nested ((ExactAt.bind (atomWith_exact ihe s) fun first s₁ hfirst =>
        ExactAt.bind (ihr first _ s₁ (hfirst.spanned trivial)) fun whole s₂ hwhole =>
          maybeCallWith_exact ihe (hwhole.spanned (hfirst.spanned trivial)) s₂).congr
        fun e s' => ⟨?_, fun h => ?_⟩)
      · rintro ⟨first, s₁, hfirst, whole, s₂, hwhole, he⟩
        exact .expression hfirst hwhole he
      · cases h with
        | expression hfirst hwhole he => exact ⟨_, _, hfirst, _, _, hwhole, he⟩
    · refine ExactAt.nested ((ExactAt.bind (atomWith_exact ihe s) fun first s₁ hfirst =>
        ihr first bound s₁ (hfirst.spanned trivial)).congr
        fun e s' => ⟨?_, fun h => ?_⟩)
      · rintro ⟨first, s₁, hfirst, he⟩
        exact .operand hfirst he
      · cases h with
        | operand hfirst he => exact ⟨_, _, hfirst, he⟩
    · refine tighterThan_bind (fun t hs ht => ?_) fun hs => ?_
      · obtain ⟨l, _ | ⟨u, rest⟩⟩ := s
        · cases hs
        · cases hs
          refine ExactAt.advance_bind (ExactAt.nested ((ExactAt.bind (iho _ _)
            fun right s₁ hright => ?_).congr
            fun e s' => (reads_operators_succ_iff ht).symm))
          have hspan := hright.spanned trivial
          rw [join_eq hleft hspan, pure_bind]
          exact ihr _ bound s₁ (Node.span_joined _ hleft hspan)
      · exact (ExactAt.pure left).congr fun e s' => (reads_operators_settled_iff hs).symm

end Operators

/-! ## The forms on their own -/

section Forms

variable {o : ParseOptions} {n : Nat}

theorem expression_exact (s : Spot) :
    ExactAt (σ := σ) o n s (expression o) fun e s' => Reads o (.expression n) s [e] s' := by
  refine ((levels_exact o n).1 s).of_run fun p hn _ => ?_
  rw [expression, hn]

theorem operators_exact {left : Node} (hleft : left.span.isSome = true) (bound : Int) (s : Spot) :
    ExactAt (σ := σ) o n s (operators o left bound) fun e s' =>
      Reads o (.operators n left bound) s [e] s' := by
  refine ((levels_exact o n).2.2 left bound s hleft).of_run fun p hn _ => ?_
  rw [operators, hn]

theorem atom_exact (s : Spot) :
    ExactAt (σ := σ) o n s (atom o) fun e s' => Reads o (.atom n) s [e] s' :=
  atomWith_exact expression_exact s

end Forms

/-! ## Programs -/

section Programs

variable {o : ParseOptions} {n : Nat} {s s' : Spot}

theorem reads_statements_end_iff {es : List Node} (hs : s.rest = []) :
    Reads o (.statements n) s es s' ↔ es = [] ∧ s' = s := by
  have noExpression : ∀ {e s'}, ¬ Reads o (.expression n) s [e] s' := by
    intro e s' h
    have hlt := h.length_lt trivial
    rw [hs] at hlt
    exact Nat.not_lt_zero _ hlt
  constructor
  · intro h
    cases h with
    | done => exact ⟨rfl, rfl⟩
    | last he => exact absurd he noExpression
    | next he => exact absurd he noExpression
  · rintro ⟨rfl, rfl⟩
    exact .done hs

theorem reads_statements_iff {es : List Node} (hs : s.rest ≠ []) :
    Reads o (.statements n) s es s' ↔ ∃ e s₁, Reads o (.expression n) s [e] s₁ ∧
      ∃ s₂, (if s₁.rest = [] then s₂ = s₁ else s₁.Passes .punctuation ";" s₂) ∧
      ∃ es', Reads o (.statements n) s₂ es' s' ∧ es = e :: es' := by
  constructor
  · intro h
    cases h with
    | done h => exact absurd h hs
    | last he hend => exact ⟨_, _, he, _, by rw [if_pos hend], [], .done hend, rfl⟩
    | next he hsep hes =>
      refine ⟨_, _, he, _, ?_, _, hes, rfl⟩
      obtain ⟨hsep⟩ := hsep
      rw [if_neg (List.cons_ne_nil _ _)]
      exact ⟨hsep⟩
  · rintro ⟨e, s₁, he, s₂, hsep, es', hes, rfl⟩
    split at hsep
    · next hend =>
      subst hsep
      obtain ⟨rfl, rfl⟩ := (reads_statements_end_iff hend).mp hes
      exact .last he hend
    · exact .next he hsep hes

theorem skipSeparator_exact (s : Spot) :
    ExactAt (σ := σ) o n s skipSeparator fun _ s' =>
      if s.rest = [] then s' = s else s.Passes .punctuation ";" s' := by
  refine ExactAt.atEnd_bind ?_
  obtain ⟨l, _ | ⟨t, rest⟩⟩ := s
  · refine (ExactAt.pure ()).congr fun _ s' => ?_
    rw [if_pos rfl]
    exact ⟨fun h => h.2, fun h => ⟨rfl, h⟩⟩
  · refine ExactAt.skip.congr fun _ s' => ?_
    rw [if_neg (List.cons_ne_nil t rest)]

/-- The expressions up to the end, if the fuel exceeds the number of tokens left. -/
theorem statements_exact (fuel : Nat) (s : Spot) (hfuel : s.rest.length < fuel) :
    ExactAt (σ := σ) o n s (statements o fuel) fun es s' => Reads o (.statements n) s es s' := by
  induction fuel generalizing s with
  | zero => exact absurd hfuel (Nat.not_lt_zero _)
  | succ fuel ih =>
    refine ExactAt.atEnd_bind ?_
    cases hs : s.rest with
    | nil => exact (ExactAt.pure []).congr fun es s' => (reads_statements_end_iff hs).symm
    | cons t rest =>
      rw [List.isEmpty_cons, if_neg Bool.false_ne_true]
      refine (ExactAt.bind (expression_exact s) fun e s₁ he => ExactAt.note_bind
        (ExactAt.unit_bind (skipSeparator_exact s₁) fun s₂ hsep =>
          ExactAt.bind (ih s₂ ?_) fun es s₃ _ => ExactAt.pure (e :: es))).congr fun es s' => ?_
      · -- The expression took a token, and the separator took no token back.
        have hlt := he.length_lt trivial
        have hle : s₂.rest.length ≤ s₁.rest.length := by
          split at hsep
          · obtain rfl := hsep
            exact Nat.le_refl _
          · obtain ⟨_⟩ := hsep
            exact Nat.le_succ _
        omega
      · rw [reads_statements_iff (by rw [hs]; exact List.cons_ne_nil t rest)]
        constructor
        · rintro ⟨e, s₁, he, s₂, hsep, es, s₃, hes, rfl, rfl⟩
          exact ⟨e, s₁, he, s₂, hsep, es, hes, rfl⟩
        · rintro ⟨e, s₁, he, s₂, hsep, es, hes, rfl⟩
          exact ⟨e, s₁, he, s₂, hsep, es, s', hes, rfl, rfl⟩

/-- A whole program, started at a location. -/
theorem program_exact (start : Location) (fuel : Nat) (s : Spot) (hfuel : s.rest.length < fuel) :
    ExactAt (σ := σ) o n s
      (do
        let body ← statements o fuel
        let span ← spanFrom start
        onTokens (Lookahead.note (.finished body.length start.file))
        return Node.program body (some span))
      fun e s' => ∃ body, Reads o (.statements n) s body s' ∧
        e = .program body (some (s'.spanFrom start)) := by
  refine (ExactAt.bind (statements_exact fuel s hfuel) fun body s₁ _ => ExactAt.spanFrom_bind
    (ExactAt.note_bind (ExactAt.pure (Node.program body (some (s₁.spanFrom start)))))).congr
    fun e s' => ⟨?_, ?_⟩
  · rintro ⟨body, s₁, hbody, rfl, rfl⟩
    exact ⟨body, hbody, rfl⟩
  · rintro ⟨body, hbody, rfl⟩
    exact ⟨body, s', hbody, rfl, rfl⟩

end Programs

end Parser

/-- A source that does not fail is read as the program that its tokens denote, and as nothing else. -/
theorem TokenSource.read_eq_ok_iff {σ : Type} [TokenSource σ] [LawfulTokenSource σ] {o : ParseOptions}
    {source : σ} {l : Location} (hdone : (drain source).2 = .done l) (e : Node) :
    (TokenSource.read o source).result = .ok e ↔
      ∃ body s', Reads o (.statements o.maxDepth.toNat) ⟨none, (drain source).1⟩ body s' ∧
        e = .program body (some (s'.spanFrom (location source))) := by
  have hstart : (Parser.ofSource source).spot = ⟨none, (drain source).1⟩ := rfl
  have hlevels : (Parser.ofSource source).levels o = o.maxDepth.toNat := by
    show (o.maxDepth - (0 : Nat)).toNat = o.maxDepth.toNat
    rw [Int.natCast_zero, Int.sub_zero]
  let p := Parser.ofSource source
  have hfuel : p.spot.rest.length < p.tokens.bound + 1 := Nat.lt_succ_of_le (Parser.length_spot_le p)
  have hexact := Parser.program_exact (σ := σ) (o := o) (n := o.maxDepth.toNat) (location source) _
    p.spot hfuel
  have hresult : ∀ e, (TokenSource.read o source).result = .ok e ↔
      ∃ p', Parser.program o (Parser.ofSource source) = .ok e p' := by
    intro e
    unfold TokenSource.read
    cases Parser.program o (Parser.ofSource source) with
    | ok e' p' => simp
    | error f p' => simp
  rw [hresult]
  constructor
  · rintro ⟨p', h⟩
    obtain ⟨⟨body, hbody, he⟩, _⟩ := hexact.sound hlevels rfl h
    exact ⟨body, _, hbody, he⟩
  · rintro ⟨body, s', hbody, rfl⟩
    obtain ⟨p', h, _⟩ := hexact.complete hlevels rfl ⟨body, hbody, rfl⟩ fun _ => ⟨l, hdone⟩
    exact ⟨p', h⟩

/-- What is read as an expression up to the end of the tokens is, with every limit from there on, the
program of that expression. -/
theorem TokenSource.read_of_reads {σ : Type} [TokenSource σ] [LawfulTokenSource σ] {o : ParseOptions}
    {source : σ} {ts : List Token} {finish : Location} (hdrain : drain source = (ts, .done finish))
    {k : Nat} {e : Node} {l : Option Token} (h : Reads o (.expression k) ⟨none, ts⟩ [e] ⟨l, []⟩)
    {d : Int} (hd : k ≤ d) :
    ∃ span, (TokenSource.read { o with maxDepth := d } source).result = .ok (.program [e] span) := by
  obtain ⟨j, hj⟩ : ∃ j, d.toNat = j + k := ⟨d.toNat - k, by omega⟩
  have hreads := h.relax j d
  rw [Task.raise, ← hj] at hreads
  have hdone : (drain source).2 = .done finish := by rw [hdrain]
  have hread := TokenSource.read_eq_ok_iff (o := { o with maxDepth := d }) hdone
  rw [hdrain] at hread
  exact ⟨_, (hread _).mpr ⟨[e], _, .last hreads rfl, rfl⟩⟩

end LambdaReader
