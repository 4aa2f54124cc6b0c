import LambdaReader.Proofs.Compositional

/-!
# `Proofs.Depth` — what calls of a parser leave behind

The depth of a parser is changed by nesting only, and nesting undoes the change however its step ends. So
after any calls of a parser, each of which may have failed, its depth is what it was at first.

What else they leave behind is the last token taken. It is asked for at the end of a span only, and every
span but that of a program starts with a token that is taken after the span is begun. So a program that
is read after such calls is what a new parser makes of the same tokens.

## Main results
- `Offered.inherits`: what every call of a parser has by the single steps it is put together from;
- `Offered.keepsDepth`: however a call ends, the depth is then what it was before;
- `program_after_history`: a program is read as by a new parser, whatever was read before.
-/

namespace LambdaReader
namespace Parser

open Step

section Depth

variable {σ α β : Type} {o : ParseOptions}

/-! ## Depth -/

/-- The parser that a run ends with, whether it succeeds or fails. -/
def after (m : Parse σ α) (p : Parser σ) : Parser σ :=
  match m p with
  | .ok _ q => q
  | .error _ q => q

theorem after_of_ok {m : Parse σ α} {p q : Parser σ} {a : α} (h : m p = .ok a q) : after m p = q := by
  rw [after, h]

theorem after_of_error {m : Parse σ α} {p q : Parser σ} {e : Failure} (h : m p = .error e q) :
    after m p = q := by
  rw [after, h]

theorem depth_after_onTokens (step : EStateM Failure (Lookahead σ) α) (p : Parser σ) :
    (after (onTokens step) p).depth = p.depth := by
  unfold after onTokens
  cases step p.tokens with
  | ok a ts => rfl
  | error e ts => rfl

/-- A sequence ends where its second step ends, or where its first one fails. -/
theorem depth_after_bind {x : Parse σ α} {f : α → Parse σ β} {p : Parser σ} {d : Nat}
    (hx : (after x p).depth = d) (hf : ∀ a q, q.depth = d → (after (f a) q).depth = d) :
    (after (x >>= f) p).depth = d := by
  cases hrun : x p with
  | ok a q =>
    rw [after_of_ok hrun] at hx
    rw [after, bind_of_ok hrun]
    exact hf a q hx
  | error e q =>
    rw [after_of_error hrun] at hx
    rw [after, bind_apply, hrun]
    exact hx

/-- However it ends, the step leaves the depth as it was. -/
def KeepsDepth ⦃α : Type⦄ (x : Parse σ α) : Prop := ∀ p, (after x p).depth = p.depth

protected theorem KeepsDepth.bind {x : Parse σ α} {f : α → Parse σ β} (hx : KeepsDepth x)
    (hf : ∀ a, KeepsDepth (f a)) : KeepsDepth (x >>= f) :=
  fun p => depth_after_bind (hx p) fun a q hq => (hf a q).trans hq

variable [TokenSource σ]

theorem KeepsDepth.peek : KeepsDepth (peek (σ := σ)) := fun p => depth_after_onTokens _ p

theorem KeepsDepth.advance : KeepsDepth (advance (σ := σ)) := by
  intro p
  refine depth_after_bind (depth_after_onTokens _ p) fun found q hq => ?_
  cases found with
  | none => exact hq
  | some t => exact hq

theorem KeepsDepth.reject (cause : GrammarCause) : KeepsDepth (reject cause : Parse σ α) :=
  .bind .peek fun _ _ => rfl

theorem KeepsDepth.exhausted : KeepsDepth (exhausted o : Parse σ α) := by
  rw [exhausted_eq]
  exact .reject _

/-- At the limit the level is left before the step, and below it after the step. -/
theorem KeepsDepth.nested {x : Parse σ α} (h : KeepsDepth x) : KeepsDepth (nested o x) := by
  intro p
  by_cases hlimit : o.maxDepth < (p.depth : Int) + 1
  · rw [after, nested_of_lt hlimit]
    exact KeepsDepth.reject _ p
  · have hx := h p.deeper
    rw [after, nested_of_le (by omega)]
    cases hrun : x p.deeper with
    | ok a q =>
      rw [after_of_ok hrun] at hx
      show q.depth - 1 = p.depth
      rw [hx]
      rfl
    | error e q =>
      rw [after_of_error hrun] at hx
      show q.depth - 1 = p.depth
      rw [hx]
      rfl

theorem KeepsDepth.compositional : Compositional (Itself (KeepsDepth (σ := σ))) where
  pure _ := ⟨rfl, fun _ => rfl⟩
  bind := Itself.bind KeepsDepth.bind
  get := ⟨rfl, fun _ => rfl⟩
  peek := ⟨rfl, .peek⟩
  advance := ⟨rfl, .advance⟩
  note _ := ⟨rfl, fun p => depth_after_onTokens _ p⟩
  fail _ _ := ⟨rfl, fun _ => rfl⟩
  misuse _ := ⟨rfl, fun _ => rfl⟩

/-! ## Calls from outside -/

/-- What a parser offers, and what its callers put together from that. -/
inductive Offered (o : ParseOptions) : {α : Type} → Parse σ α → Prop where
  | pure {α : Type} (a : α) : Offered o (pure a)
  | bind {α β : Type} {x : Parse σ α} {f : α → Parse σ β} :
    Offered o x → (∀ a, Offered o (f a)) → Offered o (x >>= f)
  | isAtKind (kind : TokenKind) : Offered o (isAtKind kind)
  | isAt (kind : TokenKind) (text : String) : Offered o (isAt kind text)
  | skip (kind : TokenKind) (text : String) : Offered o (skip kind text)
  | delimited {α : Type} {item : Parse σ α} (start stop separator : String) :
    Offered o item → Offered o (delimited o start stop separator item)
  | operators (left : Node) (bound : Int) : Offered o (operators o left bound)
  | maybeCall (callee : Node) : Offered o (maybeCall o callee)
  | call (callee : Node) : Offered o (call o callee)
  | variableName : Offered o variableName
  | conditional : Offered o (conditional o)
  | function : Offered o (function o)
  | boolean : Offered o boolean
  | atom : Offered o (atom o)
  | expression : Offered o (expression o)
  | block : Offered o (block o)
  | program : Offered o (program o)

/-- What single steps have and sequences inherit, every call has, if nesting keeps it and running out of
levels has it. -/
theorem Offered.inherits {P : ∀ ⦃α : Type⦄, Parse σ α → Prop} (hP : Compositional (Itself P))
    (hnested : ∀ ⦃x : Parse σ Node⦄, P x → P (Parser.nested o x))
    (hexhausted : P (Parser.exhausted (α := Node) o)) {m : Parse σ α} (h : Offered o m) : P m := by
  have hR := hP.hereditary
  have hlevels := hR.levels (o := o) (fun _ _ hx => hx.imp fun h => hnested h) ⟨rfl, hexhausted⟩
  -- How many levels are left is asked of the state.
  have hexpr : Itself P (Parser.expression o) (Parser.expression o) :=
    hP.bind hP.get fun p => (hlevels (p.levels o)).1
  induction h with
  | pure a => exact (hP.pure a).2
  | bind _ _ ihx ihf => exact (hP.bind ⟨rfl, ihx⟩ fun a => ⟨rfl, ihf a⟩).2
  | isAtKind kind => exact (hR.isAtKind kind).2
  | isAt kind text => exact (hR.isAt kind text).2
  | skip kind text => exact (hR.skip kind text).2
  | delimited start stop separator _ ih => exact (hR.delimited rfl ⟨rfl, ih⟩ start stop separator).2
  | operators left bound => exact (hP.bind hP.get fun p => (hlevels (p.levels o)).2.2 left bound).2
  | maybeCall callee => exact (hR.maybeCallWith rfl hexpr callee).2
  | call callee => exact (hR.callWith rfl hexpr callee).2
  | variableName => exact hR.variableName.2
  | conditional => exact (hR.conditionalWith hexpr).2
  | function => exact (hR.functionWith rfl hexpr).2
  | boolean => exact hR.boolean.2
  | atom => exact (hR.atomWith rfl hexpr).2
  | expression => exact hexpr.2
  | block => exact (hR.blockWith rfl hexpr).2
  | program => exact (hR.program hexpr).2

/-- However a call ends, it leaves the depth as it was. -/
theorem Offered.keepsDepth {m : Parse σ α} (h : Offered o m) : KeepsDepth m :=
  h.inherits KeepsDepth.compositional (fun _ hx => hx.nested) .exhausted

/-- The parsers that a parser can become by calls of what it offers, each of which may fail. -/
inductive History (o : ParseOptions) (p : Parser σ) : Parser σ → Prop where
  | start : History o p p
  | call {α : Type} {q : Parser σ} {m : Parse σ α} :
    History o p q → Offered o m → History o p (after m q)

theorem History.depth_eq {p q : Parser σ} (h : History o p q) : q.depth = p.depth := by
  induction h with
  | start => rfl
  | call _ hm ih => exact (hm.keepsDepth _).trans ih

end Depth

/-! ## Parsers that differ in the last token taken -/

section Heedless

variable {σ α β : Type} {o : ParseOptions}

/-- The same but for the last token taken. -/
def Twins (p q : Parser σ) : Prop := ∃ last, q = { p with last }

/-- Both fail with the same failure at the same tokens, or both succeed with the same value and end in
states that `E` relates. -/
inductive Agree (E : Parser σ → Parser σ → Prop) :
    EStateM.Result Failure (Parser σ) α → EStateM.Result Failure (Parser σ) α → Prop where
  | ok {a : α} {p q : Parser σ} : E p q → Agree E (.ok a p) (.ok a q)
  | error {e : Failure} {p q : Parser σ} : q.tokens = p.tokens → Agree E (.error e p) (.error e q)

/-- From states where `pre` holds of the tokens, the step does not ask which token was taken last. -/
def Heedless (pre : Lookahead σ → Prop) (E : Parser σ → Parser σ → Prop) (m : Parse σ α) : Prop :=
  ∀ p last, pre p.tokens → Agree E (m p) (m { p with last })

/-- A token is held back. -/
def Seen (ts : Lookahead σ) : Prop := ∃ t, ts.ahead = some t

namespace Heedless

variable {pre : Lookahead σ → Prop} {E : Parser σ → Parser σ → Prop} {x : Parse σ α}

theorem weaken {pre' : Lookahead σ → Prop} (h : Heedless pre E x) (hpre : ∀ ts, pre' ts → pre ts) :
    Heedless pre' E x :=
  fun p last hp => h p last (hpre p.tokens hp)

theorem any (h : Heedless anyTokens E x) : Heedless pre E x := h.weaken fun _ _ => trivial

protected theorem pure (a : α) : Heedless pre Twins (pure a : Parse σ α) :=
  fun _ last _ => .ok ⟨last, rfl⟩

protected theorem bind {f : α → Parse σ β} (hx : Heedless pre Twins x)
    (hf : ∀ a, Heedless anyTokens E (f a)) : Heedless pre E (x >>= f) := by
  intro p last hp
  have hagree := hx p last hp
  rw [bind_apply, bind_apply]
  generalize x p = rx, x { p with last } = ry at hagree
  cases hagree with
  | error htokens => exact .error htokens
  | @ok a q q' htwins =>
    obtain ⟨last', rfl⟩ := htwins
    exact hf a q last' trivial

/-- Once the states are equal, what follows cannot tell one run from the other. -/
theorem settled {f : α → Parse σ β} (hE : ∀ p, E p p) (hx : Heedless pre Eq x) :
    Heedless pre E (x >>= f) := by
  intro p last hp
  have hagree := hx p last hp
  rw [bind_apply, bind_apply]
  generalize x p = rx, x { p with last } = ry at hagree
  cases hagree with
  | error htokens => exact .error htokens
  | @ok a q q' heq =>
    subst heq
    show Agree E (f a q) (f a q)
    cases f a q with
    | ok b q => exact .ok (hE q)
    | error e q => exact .error rfl

/-- A step of the tokens neither knows nor changes the last token taken. -/
theorem onTokens (step : EStateM Failure (Lookahead σ) α) : Heedless pre Twins (onTokens step) := by
  intro p last _
  unfold Parser.onTokens
  cases step p.tokens with
  | ok a ts => exact .ok ⟨last, rfl⟩
  | error e ts => exact .error rfl

/-- What the state says, but for the last token taken, is the same for both. -/
theorem get_bind {f : Parser σ → Parse σ β} (hsame : ∀ p last, f { p with last } = f p)
    (hf : ∀ p, Heedless pre E (f p)) : Heedless pre E (get >>= f) := by
  intro p last hp
  have hlast : f { p with last } { p with last } = f p { p with last } := by rw [hsame]
  rw [bind_of_ok (get_apply p), bind_of_ok (get_apply _), hlast]
  exact hf p p last hp

variable [TokenSource σ]

theorem fail (cause : GrammarCause) (found : Option Token) :
    Heedless pre E (Parser.fail cause found : Parse σ α) :=
  fun _ _ _ => .error rfl

/-! ### Single tokens -/

theorem peek_bind {f : Option Token → Parse σ β}
    (hsome : ∀ t, Heedless (fun ts => ts.ahead = some t) E (f (some t)))
    (hnone : Heedless anyTokens E (f none)) : Heedless pre E (peek >>= f) := by
  rintro ⟨⟨r, ahead, j⟩, l, d⟩ last _
  cases ahead with
  | some t =>
    rw [bind_apply, bind_apply, peek, Parser.onTokens, Parser.onTokens, Lookahead.peek_of_ahead rfl]
    exact hsome t _ last rfl
  | none =>
    rw [bind_apply, bind_apply, peek, Parser.onTokens, Parser.onTokens, Lookahead.peek_of_none]
    cases TokenSource.scan r with
    | error e r' => exact .error rfl
    | ok found r' =>
      cases found with
      | none => exact hnone _ last trivial
      | some t => exact hsome t _ last rfl

/-- Two runs that take the token they have both looked at have taken the same token last. -/
theorem advance : Heedless Seen Eq (advance (σ := σ)) := by
  rintro p last ⟨t, ht⟩
  have htaken : Parser.advance { p with last } =
      .ok (some t) { p with tokens := p.tokens.forget, last := some t } :=
    advance_of_ahead ht
  rw [advance_of_ahead ht, htaken]
  exact .ok rfl

theorem isAt_bind {kind : TokenKind} {text : String} {f : Bool → Parse σ β}
    (htrue : Heedless Seen E (f true)) (hfalse : Heedless anyTokens E (f false)) :
    Heedless pre E (isAt kind text >>= f) := by
  rw [isAt, bind_assoc]
  refine peek_bind (fun t => ?_) ?_
  · rw [pure_bind]
    cases (some t).any fun t => t.kind = kind && t.hasText text with
    | true => exact htrue.weaken fun _ ht => ⟨t, ht⟩
    | false => exact hfalse.any
  · rw [pure_bind]
    exact hfalse

theorem reject (cause : GrammarCause) : Heedless pre E (Parser.reject cause : Parse σ α) :=
  peek_bind (fun t => fail cause (some t)) (fail cause none)

theorem skip (kind : TokenKind) (text : String) : Heedless pre Eq (Parser.skip (σ := σ) kind text) :=
  isAt_bind (settled (fun _ => rfl) advance) (reject _)

theorem startLocation : Heedless pre Twins (startLocation (σ := σ)) := by
  refine peek_bind (fun t => .pure _) ?_
  exact get_bind (fun _ _ => rfl) fun _ => .pure _

theorem nested (h : Heedless anyTokens Eq x) : Heedless pre Eq (nested o x) := by
  intro p last hp
  by_cases hlimit : o.maxDepth < (p.depth : Int) + 1
  · rw [nested_of_lt hlimit, nested_of_lt (p := { p with last }) hlimit]
    exact reject _ p last hp
  · have hle : (p.depth : Int) + 1 ≤ o.maxDepth := by omega
    rw [nested_of_le hle, nested_of_le (p := { p with last }) hle]
    have hagree := h p.deeper last trivial
    show Agree Eq _ (match x { p.deeper with last } with
      | .ok a q => .ok a q.ascend
      | .error e q => .error e q.ascend)
    generalize x p.deeper = rx, x { p.deeper with last } = ry at hagree
    cases hagree with
    | ok heq => exact .ok (congrArg ascend heq)
    | error htokens => exact .error htokens

/-! ### Expressions -/

theorem delimited (start stop separator : String) (item : Parse σ α) :
    Heedless pre Eq (delimited o start stop separator item) :=
  settled (fun _ => rfl) (skip _ _)

/-- Every primary starts with a token that is taken before anything else is asked for. -/
theorem primaryWith (expr : Parse σ Node) : Heedless pre Eq (primaryWith o expr) := by
  have hrefl : ∀ p : Parser σ, p = p := fun _ => rfl
  -- A group, a block, a conditional, a truth value of either kind, a function, or else a leaf.
  refine isAt_bind (settled hrefl advance) ?_
  refine isAt_bind (startLocation.any.bind fun _ => settled hrefl (delimited _ _ _ _)) ?_
  refine isAt_bind (startLocation.any.bind fun _ => settled hrefl (skip _ _)) ?_
  refine isAt_bind (settled hrefl advance) ?_
  refine isAt_bind (settled hrefl advance) ?_
  refine isAt_bind (startLocation.any.bind fun _ => settled hrefl (skip _ _)) ?_
  refine peek_bind (fun t => ?_) (reject _)
  dsimp only
  split
  · exact reject _
  · exact settled hrefl (advance.weaken fun _ ht => ⟨t, ht⟩)

theorem expressionAt (n : Nat) : Heedless pre Eq (expressionAt (σ := σ) o n) := by
  cases n with
  | zero => exact nested (reject _)
  | succ n => exact nested (settled (fun _ => rfl) (settled (fun _ => rfl) (primaryWith _)))

theorem expression : Heedless pre Eq (expression (σ := σ) o) :=
  fun p last hp => expressionAt (p.levels o) p last hp

theorem statements (n : Nat) : Heedless pre Twins (statements (σ := σ) o n) := by
  cases n with
  | zero => exact .pure []
  | succ n =>
    refine (onTokens _).bind fun done => ?_
    split
    · exact .pure []
    · exact settled (fun p => ⟨p.last, rfl⟩) expression

end Heedless

/-! ## Programs after a history -/

/-- A program is its statements, and only its span needs the last token taken. -/
theorem program_apply [TokenSource σ] (p : Parser σ) :
    program o p = match statements o (p.tokens.bound + 1) p with
      | .ok body q =>
        .ok (.program body (some ⟨p.location, (q.last.map Token.location).getD p.location⟩))
          { q with tokens.journal := q.tokens.journal.push (.finished body.length p.location.file) }
      | .error e q => .error e q := by
  rw [program, bind_of_ok (get_apply p), bind_of_ok (get_apply p), bind_apply]
  cases statements o (p.tokens.bound + 1) p with
  | ok body q => rfl
  | error e q => rfl

/-- Which token was taken last matters to the span of a program only. -/
theorem program_twins [TokenSource σ] (p : Parser σ) (last : Option Token) :
    (∃ e p' q', program o p = .error e p' ∧ program o { p with last } = .error e q' ∧
      q'.tokens = p'.tokens) ∨
    ∃ body span span' p' q', program o p = .ok (.program body span) p' ∧
      program o { p with last } = .ok (.program body span') q' ∧ q'.tokens = p'.tokens := by
  have hheedless : Heedless anyTokens Twins (statements (σ := σ) o (p.tokens.bound + 1)) :=
    .statements _
  have hagree := hheedless p last trivial
  rw [program_apply, program_apply { p with last }]
  dsimp only
  generalize statements o (p.tokens.bound + 1) p = rx,
    statements o (p.tokens.bound + 1) { p with last } = ry at hagree
  cases hagree with
  | error htokens => exact .inl ⟨_, _, _, rfl, rfl, htokens⟩
  | @ok body p' q' htwins =>
    obtain ⟨last', rfl⟩ := htwins
    exact .inr ⟨body, _, _, _, _, rfl, rfl, rfl⟩

/-- Calls of what a parser offers leave its depth as it was, however they end; so after any such calls a
program is read as by a new parser on the same tokens: both fail alike, or both give the same program,
and the tokens are then the same. -/
theorem program_after_history [TokenSource σ] (o : ParseOptions) :
    (∀ {α : Type} (m : Parse σ α), Offered o m → ∀ p, (after m p).depth = p.depth) ∧
    ∀ (tokens : Lookahead σ) (q : Parser σ), History o ⟨tokens, none, 0⟩ q →
      (∃ e p' q', program o ⟨q.tokens, none, 0⟩ = .error e p' ∧ program o q = .error e q' ∧
        q'.tokens = p'.tokens) ∨
      ∃ body span span' p' q', program o ⟨q.tokens, none, 0⟩ = .ok (.program body span) p' ∧
        program o q = .ok (.program body span') q' ∧ q'.tokens = p'.tokens := by
  refine ⟨fun m hm p => hm.keepsDepth p, ?_⟩
  intro tokens q hq
  have hdepth : q.depth = 0 := hq.depth_eq
  have hq : q = { (⟨q.tokens, none, 0⟩ : Parser σ) with last := q.last } := by
    rw [← hdepth]
  rw [hq]
  exact program_twins ⟨q.tokens, none, 0⟩ q.last

/-- A group without its closing mark is given up, and the program behind it is read as if there had been
nothing before it. -/
theorem program_after_history_group :
    let tokens := Lookahead.ofSource (Source.scanner ⟨"(a b = 1", "x", false⟩)
    let q := after (expression {}) ⟨tokens, none, 0⟩
    (∃ e, expression {} ⟨tokens, none, 0⟩ = .error e q) ∧ q.depth = 0 ∧
    ∃ body span span' p' q', program {} ⟨q.tokens, none, 0⟩ = .ok (.program body span) p' ∧
      program {} q = .ok (.program body span') q' ∧ q'.tokens = p'.tokens := by
  intro tokens q
  have hgroup : (match expression {} ⟨tokens, none, 0⟩ with
      | .ok _ _ => false
      | .error _ _ => true) = true := by
    decide +kernel
  have hok : (match program {} q with
      | .ok _ _ => true
      | .error _ _ => false) = true := by
    decide +kernel
  obtain ⟨hdepth, hprogram⟩ := program_after_history (σ := Scanner) {}
  refine ⟨?_, hdepth (expression {}) .expression _, ?_⟩
  · cases hrun : expression {} ⟨tokens, none, 0⟩ with
    | ok n p => rw [hrun] at hgroup; cases hgroup
    | error e p => exact ⟨e, congrArg (EStateM.Result.error e) (after_of_error hrun).symm⟩
  · rcases hprogram tokens q (.call .start .expression) with ⟨e, p', q', _, hq, _⟩ | hsame
    · rw [hq] at hok
      cases hok
    · exact hsame

end Heedless

end Parser
end LambdaReader
