import LambdaReader.Proofs.Limit

/-!
# `Proofs.Pace` — levels of nesting are paid for with tokens

An expression needs one level before it has taken a token. From there on two levels at most are needed
for each token that is taken: a bracket or a keyword before another expression needs one, and an operator
needs one for the fold and one for its right operand. So the depth never runs ahead of the tokens, and a
limit of twice their number and one is never reached.

`Paced` says that of a step, with the levels `c` that it may need in advance. A token that is taken first
is worth two levels for all that follows it; otherwise the parts of a form need no more in advance than
the form, which is what makes `Paced` compositional.

## Main results
- `paced_program`: a program needs one level in advance;
- `Source.limit_decides`: what the limit of nesting decides.
-/

namespace LambdaReader

/-- The tokens that were scanned for a reading. -/
def Reading.scanned (r : Reading) : List Token := r.journal.filterMap Note.token?

/-- The number of tokens that were scanned and are not held back. -/
def Lookahead.taken {σ : Type} (l : Lookahead σ) : Int :=
  (l.journal.toList.filterMap Note.token?).length - l.ahead.toList.length

namespace Lookahead

variable {σ : Type}

theorem taken_push_scanned (r : σ) (ahead : Option Token) (j : Array Note) (t : Token) :
    taken ⟨r, ahead, j.push (.scanned t)⟩ = taken ⟨r, ahead, j⟩ + 1 := by
  simp only [taken, Array.toList_push, List.filterMap_append, List.filterMap_cons, Note.token?,
    List.filterMap_nil, List.length_append, List.length_cons, List.length_nil]
  omega

theorem taken_some (r : σ) (j : Array Note) (t : Token) :
    taken ⟨r, some t, j⟩ = taken ⟨r, none, j⟩ - 1 := by
  simp only [taken, Option.toList_some, Option.toList_none, List.length_cons, List.length_nil]
  omega

theorem taken_push_le (r : σ) (ahead : Option Token) (j : Array Note) (n : Note) :
    taken ⟨r, ahead, j⟩ ≤ taken ⟨r, ahead, j.push n⟩ := by
  simp only [taken, Array.toList_push, List.filterMap_append, List.length_append]
  omega

theorem taken_le (l : Lookahead σ) : l.taken ≤ (l.journal.toList.filterMap Note.token?).length := by
  unfold taken
  omega

end Lookahead

namespace Parser

open Step TokenSource

variable {α β : Type} {o : ParseOptions} {d c : Nat}

/-! ## The judgement -/

/-- The outcome of a run from depth `d` with `taken` tokens taken: success keeps the depth, and nesting is
too deep only for a limit below `c` levels and two more for each token that was taken since. -/
inductive Pace (o : ParseOptions) (d c : Nat) (taken : Int) :
    EStateM.Result Failure (Parser Scanner) α → Prop where
  | ok {a : α} {q : Parser Scanner} :
    q.depth = d → taken ≤ q.tokens.taken → Pace o d c taken (.ok a q)
  | failed {e : Failure} {q : Parser Scanner} :
    (e.IsTooDeep → o.maxDepth < d + c + 2 * (q.tokens.taken - taken)) → Pace o d c taken (.error e q)

/-- From depth `d`, where `pre` holds of the tokens, the step needs `c` levels in advance at most. -/
def Paced (o : ParseOptions) (d c : Nat) (pre : Lookahead Scanner → Prop) (x : Parse Scanner α) : Prop :=
  ∀ p, p.depth = d → pre p.tokens → Pace o d c p.tokens.taken (x p)

namespace Paced

variable {pre : Lookahead Scanner → Prop} {x : Parse Scanner α}

theorem any (h : Paced o d c anyTokens x) : Paced o d c pre x :=
  fun p hd _ => h p hd trivial

/-- What needs fewer levels in advance needs no more. -/
theorem mono {c' : Nat} (h : Paced o d c pre x) (hc : c ≤ c') : Paced o d c' pre x := by
  intro p hd hp
  have hpace := h p hd hp
  generalize x p = r at hpace
  cases hpace with
  | ok hd hle => exact .ok hd hle
  | failed hdeep =>
    refine .failed fun he => ?_
    have hlt := hdeep he
    omega

protected theorem bind {f : α → Parse Scanner β} (hx : Paced o d c pre x)
    (hf : ∀ a, Paced o d c anyTokens (f a)) : Paced o d c pre (x >>= f) := by
  intro p hd hp
  have hpace := hx p hd hp
  rw [bind_apply]
  generalize x p = r at hpace
  cases hpace with
  | failed hdeep => exact .failed hdeep
  | @ok a q hq hle =>
    have hpace' := hf a q hq trivial
    dsimp only
    generalize f a q = r' at hpace'
    cases hpace' with
    | ok hd' hle' => exact .ok hd' (Int.le_trans hle hle')
    | failed hdeep =>
      refine .failed fun he => ?_
      have hlt := hdeep he
      omega

/-! ## Single tokens -/

/-- Looking at the next token takes none, and a failure to scan it has nothing to do with nesting. -/
theorem peek_bind {f : Option Token → Parse Scanner β}
    (hsome : ∀ t, Paced o d c (fun ts => ts.ahead = some t) (f (some t)))
    (hnone : Paced o d c anyTokens (f none)) : Paced o d c pre (peek >>= f) := by
  rintro ⟨⟨r, ahead, j⟩, last, depth⟩ hd _
  cases ahead with
  | some t =>
    rw [bind_apply, peek, onTokens, Lookahead.peek_of_ahead rfl]
    exact hsome t _ hd rfl
  | none =>
    rw [bind_apply, peek, onTokens, Lookahead.peek_of_none]
    cases hscan : scan r with
    | error e r' =>
      refine .failed fun he => ?_
      obtain ⟨cause, l, rfl, _⟩ := Scanner.readNext_error hscan
      obtain ⟨_, _, _, hgrammar⟩ := Failure.isTooDeep_iff.mp he
      cases hgrammar
    | ok found r' =>
      cases found with
      | none => exact hnone ⟨⟨r', none, j⟩, last, depth⟩ hd trivial
      | some t =>
        have htaken : Lookahead.taken ⟨r', some t, j.push (.scanned t)⟩ =
            Lookahead.taken ⟨r, none, j⟩ := by
          rw [Lookahead.taken_push_scanned, Lookahead.taken_some]
          exact Int.sub_add_cancel _ 1
        have hpace := hsome t ⟨⟨r', some t, j.push (.scanned t)⟩, last, depth⟩ hd rfl
        rw [htaken] at hpace
        exact hpace

/-- A token that is taken is worth two levels for what follows. -/
theorem advance_bind {t : Token} {f : Option Token → Parse Scanner β}
    (hf : Paced o d (c + 2) anyTokens (f (some t))) :
    Paced o d c (fun ts => ts.ahead = some t) (advance >>= f) := by
  rintro ⟨⟨r, ahead, j⟩, last, depth⟩ hd ht
  obtain rfl : ahead = some t := ht
  have htaken := Lookahead.taken_some r j t
  have hpace := hf ⟨⟨r, none, j⟩, some t, depth⟩ hd trivial
  rw [bind_of_ok (advance_of_ahead rfl)]
  show Pace o d c (Lookahead.taken ⟨r, some t, j⟩) (f (some t) ⟨⟨r, none, j⟩, some t, depth⟩)
  generalize f (some t) _ = result at hpace
  rw [htaken]
  cases hpace with
  | ok hd' hle => exact .ok hd' (by dsimp only at hle; omega)
  | failed hdeep =>
    refine .failed fun he => ?_
    have hlt := hdeep he
    dsimp only at hlt
    omega

protected theorem pure (a : α) : Paced o d c pre (pure a) :=
  fun _ hd _ => .ok hd (Int.le_refl _)

/-- A failure for another cause is none of nesting, and nothing follows it. -/
theorem fail_bind {cause : GrammarCause} (found : Option Token) (h : ∀ limit, cause ≠ .tooDeep limit)
    (f : α → Parse Scanner β) : Paced o d c pre (fail cause found >>= f) := by
  intro p _ _
  refine Pace.failed fun he => ?_
  obtain ⟨limit, _, _, hgrammar⟩ := Failure.isTooDeep_iff.mp he
  injection hgrammar with hcause
  exact absurd hcause (h limit)

protected theorem advance : Paced o d c pre (advance (σ := Scanner)) := by
  rw [advance_eq_peek_bind]
  refine peek_bind (fun t => ?_) (.pure _)
  rw [← bind_pure Parser.advance]
  exact advance_bind (.pure _)

theorem compositional :
    Compositional (Itself fun ⦃α⦄ (x : Parse Scanner α) => Paced o d c anyTokens x) where
  pure _ := ⟨rfl, .pure _⟩
  bind := Itself.bind Paced.bind
  get := ⟨rfl, fun _ hd _ => .ok hd (Int.le_refl _)⟩
  peek := by
    refine ⟨rfl, ?_⟩
    rw [← bind_pure Parser.peek]
    exact peek_bind (fun _ => .pure _) (.pure _)
  advance := ⟨rfl, .advance⟩
  note _ := ⟨rfl, fun _ hd _ => .ok hd (Lookahead.taken_push_le _ _ _ _)⟩
  fail _ h := by
    refine ⟨rfl, ?_⟩
    rw [← bind_pure (Parser.fail _ _)]
    exact fail_bind _ h _
  misuse _ := ⟨rfl, fun _ _ _ => .failed fun he => by
    obtain ⟨_, _, _, hgrammar⟩ := Failure.isTooDeep_iff.mp he
    cases hgrammar⟩

theorem hereditary :
    Hereditary (Itself fun ⦃α⦄ (x : Parse Scanner α) => Paced o d c anyTokens x) :=
  compositional.hereditary

theorem isAt_bind {kind : TokenKind} {text : String} {f : Bool → Parse Scanner β}
    (htrue : ∀ t, Paced o d c (fun ts => ts.ahead = some t) (f true))
    (hfalse : Paced o d c anyTokens (f false)) : Paced o d c pre (isAt kind text >>= f) := by
  rw [isAt, bind_assoc]
  refine peek_bind (fun t => ?_) ?_
  · rw [pure_bind]
    cases (some t).any fun t => t.kind = kind && t.hasText text with
    | true => exact htrue t
    | false => exact hfalse.any
  · rw [pure_bind]
    exact hfalse

/-- What stands behind a certain token has two levels more. -/
theorem skip_bind {kind : TokenKind} {text : String} {f : Unit → Parse Scanner β}
    (hf : Paced o d (c + 2) anyTokens (f ())) : Paced o d c pre (skip kind text >>= f) := by
  rw [skip, bind_assoc]
  refine isAt_bind (fun t => ?_) ?_
  · rw [if_pos rfl, bind_assoc]
    refine advance_bind ?_
    rw [pure_bind]
    exact hf
  · have hcause : ∀ limit, GrammarCause.expected kind text ≠ .tooDeep limit := nofun
    rw [if_neg nofun, reject, bind_assoc]
    exact peek_bind (fun _ => fail_bind _ hcause f) (fail_bind _ hcause f)

/-! ## Nesting -/

/-- Failing for nesting that is too deep takes no token, so the levels were needed in advance. -/
theorem reject_tooDeep (h : o.maxDepth < d + c) :
    Paced o d c pre (reject (.tooDeep o.maxDepth) : Parse Scanner α) := by
  have hfail : ∀ found pre', Paced o d c pre' (fail (.tooDeep o.maxDepth) found : Parse Scanner α) := by
    intro found pre' p _ _
    refine Pace.failed fun _ => ?_
    rw [Int.sub_self]
    omega
  exact peek_bind (fun t => hfail (some t) _) (hfail none _)

theorem exhausted (h : o.maxDepth ≤ d) : Paced o d 1 pre (exhausted o : Parse Scanner α) := by
  rw [exhausted_eq]
  exact reject_tooDeep (by omega)

/-- One level is needed now, and then those that the step needs in advance. -/
protected theorem nested (h : Paced o (d + 1) c anyTokens x) : Paced o d (c + 1) pre (nested o x) := by
  intro p hd hp
  by_cases hlimit : o.maxDepth < (p.depth : Int) + 1
  · have hreject : Paced o d (c + 1) pre (Parser.reject (.tooDeep o.maxDepth) : Parse Scanner α) :=
      reject_tooDeep (by omega)
    rw [nested_of_lt hlimit]
    exact hreject p hd hp
  · rw [nested_of_le (by omega)]
    have hpace := h p.deeper (congrArg (· + 1) hd) trivial
    generalize x p.deeper = result at hpace
    cases hpace with
    | ok hd' hle => exact .ok (by rw [ascend, hd']; rfl) hle
    | @failed e q hdeep =>
      refine .failed fun he => ?_
      have hlt : o.maxDepth < ((d + 1 : Nat) : Int) + c + 2 * (q.tokens.taken - p.tokens.taken) :=
        hdeep he
      show o.maxDepth < (d : Int) + ((c + 1 : Nat) : Int) + 2 * (q.tokens.taken - p.tokens.taken)
      push_cast at hlt ⊢
      omega

/-! ## Forms, given expressions that need one level in advance -/

section Forms

variable {expr : Parse Scanner Node}

/-- The first token of a form is worth the level that the expressions in it need. -/
theorem afterFirst (h : Paced o d 1 anyTokens expr) : Paced o d (c + 2) anyTokens expr :=
  h.mono (by omega)

theorem delimited (h : Paced o d 1 anyTokens expr) (start stop separator : String) :
    Paced o d c pre (delimited o start stop separator expr) := by
  have hR := hereditary (o := o) (d := d) (c := c + 2)
  refine skip_bind (.bind compositional.get.2 fun _ => ?_)
  refine .bind (hR.items rfl ⟨rfl, afterFirst h⟩ _ _ _ _).2 fun _ => ?_
  exact .bind (hR.skip _ _).2 fun _ => .pure _

theorem callWith (h : Paced o d 1 anyTokens expr) (callee : Node) :
    Paced o d c pre (callWith o expr callee) := by
  have hR := hereditary (o := o) (d := d) (c := c)
  refine .bind (delimited h _ _ _) fun _ => .bind (hR.spanOf _).2 fun _ => ?_
  exact .bind (hR.spanFrom _).2 fun _ => .pure _

theorem maybeCallWith (h : Paced o d 1 anyTokens expr) (callee : Node) :
    Paced o d c pre (maybeCallWith o expr callee) :=
  isAt_bind (fun _ => callWith h callee) (.pure _)

theorem groupWith (h : Paced o d 1 anyTokens expr) {t : Token} :
    Paced o d c (fun ts => ts.ahead = some t) (groupWith expr) :=
  advance_bind (.bind (afterFirst h) fun _ => .bind (hereditary.skip _ _).2 fun _ => .pure _)

theorem blockWith (h : Paced o d 1 anyTokens expr) : Paced o d c anyTokens (blockWith o expr) := by
  have hR := hereditary (o := o) (d := d) (c := c)
  refine .bind hR.startLocation.2 fun _ => .bind (delimited h _ _ _) fun body => ?_
  refine .bind (hR.spanFrom _).2 fun _ => ?_
  match body with
  | [] | [_] | _ :: _ :: _ => exact .pure _

theorem conditionalWith (h : Paced o d 1 anyTokens expr) :
    Paced o d c anyTokens (conditionalWith expr) := by
  have hR := hereditary (o := o) (d := d) (c := c + 2)
  refine .bind hereditary.startLocation.2 fun _ => skip_bind ?_
  refine .bind (afterFirst h) fun _ => .bind hR.skipThen.2 fun _ => .bind (afterFirst h) fun _ => ?_
  refine .bind (hR.isAt _ _).2 fun negative => ?_
  cases negative with
  | true =>
    refine .bind .advance fun _ => .bind (afterFirst h) fun _ => ?_
    exact .bind (hR.spanFrom _).2 fun _ => .pure _
  | false => exact .bind (hR.spanFrom _).2 fun _ => .pure _

theorem functionWith (h : Paced o d 1 anyTokens expr) :
    Paced o d c anyTokens (functionWith o expr) := by
  have hR := hereditary (o := o) (d := d) (c := c + 2)
  refine .bind hereditary.startLocation.2 fun _ => skip_bind ?_
  refine .bind (hR.delimited rfl hR.variableName _ _ _).2 fun _ => .bind (afterFirst h) fun _ => ?_
  exact .bind (hR.spanFrom _).2 fun _ => .pure _

theorem primaryWith (h : Paced o d 1 anyTokens expr) :
    Paced o d c pre (primaryWith o expr) := by
  have hR := hereditary (o := o) (d := d) (c := c)
  refine isAt_bind (fun _ => groupWith h) ?_
  refine isAt_bind (fun _ => (blockWith h).any) ?_
  refine isAt_bind (fun _ => (conditionalWith h).any) ?_
  refine isAt_bind (fun _ => hR.boolean.2.any) ?_
  refine isAt_bind (fun _ => hR.boolean.2.any) ?_
  exact isAt_bind (fun _ => (functionWith h).any) hR.leaf.2

theorem atomWith (h : Paced o d 1 anyTokens expr) : Paced o d c pre (atomWith o expr) :=
  .bind (primaryWith h) fun first => maybeCallWith h first

end Forms

/-! ## Expressions -/

/-- An operator is a token, worth the level of its fold and that of its right operand. -/
theorem tighterThan_bind {bound : Int} {f : Option String → Parse Scanner β}
    (hsome : ∀ symbol t, Paced o d c (fun ts => ts.ahead = some t) (f (some symbol)))
    (hnone : Paced o d c anyTokens (f none)) : Paced o d c pre (tighterThan bound >>= f) := by
  rw [tighterThan, bind_assoc]
  refine peek_bind (fun t => ?_) ?_
  · dsimp only
    split
    · rw [pure_bind]
      exact hsome _ t
    · rw [pure_bind]
      exact hnone.any
  · dsimp only
    rw [pure_bind]
    exact hnone

/-- With as many levels as the limit leaves, an expression needs one in advance and operators none. -/
theorem expressionAt (n : Nat) (h : o.maxDepth ≤ d + n) :
    Paced o d 1 anyTokens (expressionAt o n) ∧ (∀ bound, Paced o d 1 anyTokens (operandAt o n bound)) ∧
      ∀ left bound, Paced o d 0 anyTokens (operatorsAt o n left bound) := by
  induction n generalizing d with
  | zero =>
    have hle : o.maxDepth ≤ d := by omega
    refine ⟨exhausted hle, fun _ => exhausted hle, fun left bound => ?_⟩
    refine tighterThan_bind (fun symbol t => ?_) (.pure left)
    exact advance_bind ((exhausted hle).mono (by omega))
  | succ n ih =>
    obtain ⟨hexpr, hoperand, hoperators⟩ := ih (d := d + 1) (by push_cast at h ⊢; omega)
    have hR := hereditary (o := o) (d := d + 1) (c := 1)
    refine ⟨.nested ?_, fun bound => .nested ?_, fun left bound => ?_⟩
    · refine .bind (atomWith hexpr) fun first => .bind (hoperators first _) fun whole => ?_
      exact maybeCallWith hexpr whole
    · exact .bind (atomWith hexpr) fun first => hoperators first bound
    · refine tighterThan_bind (fun symbol t => advance_bind (.nested ?_)) (.pure left)
      refine .bind (hoperand _) fun right => .bind (hR.join _ _ _).2 fun whole => ?_
      exact (hoperators whole bound).mono (by omega)

theorem expression : Paced o d 1 anyTokens (expression (σ := Scanner) o) := by
  intro p hd hp
  have hlevels : o.maxDepth ≤ d + (p.levels o : Nat) := by
    rw [levels, hd]
    omega
  exact (expressionAt (p.levels o) hlevels).1 p hd hp

/-- A program needs one level in advance. -/
theorem program : Paced o d 1 anyTokens (program (σ := Scanner) o) :=
  (hereditary.program ⟨rfl, expression⟩).2

end Paced
end Parser

/-- Nesting that is too deep takes half as many tokens as the limit has levels. -/
theorem Source.le_scanned_of_tooDeep {s : Source} {o : ParseOptions} {e : Failure}
    (h : s.parse o = .error e) (he : e.IsTooDeep) : o.maxDepth ≤ 2 * (s.read o).scanned.length := by
  have hpace := Parser.Paced.program (o := o) (d := 0) (Parser.ofSource s.scanner) rfl trivial
  unfold Source.parse at h
  unfold Source.read TokenSource.read at h ⊢
  generalize Parser.program o (Parser.ofSource s.scanner) = result at hpace h
  cases hpace with
  | ok => cases h
  | @failed e' q hdeep =>
    obtain rfl : e' = e := Except.error.inj h
    have hlt := hdeep he
    have htaken := Lookahead.taken_le q.tokens
    have hstart : (Parser.ofSource s.scanner).tokens.taken = 0 := rfl
    show o.maxDepth ≤ 2 * ((q.tokens.journal.toList.filterMap Note.token?).length : Int)
    omega

/-- The limit of nesting decides only whether a source is nested too deeply. With a lower limit it is, or
all is as with a higher one; and it never is with a limit of twice its tokens and one. -/
theorem Source.limit_decides (s : Source) (o : ParseOptions) :
    (∀ d d' : Int, d ≤ d' → (∃ e, s.parse (o.within d) = .error e ∧ e.IsTooDeep) ∨
      s.read (o.within d) = s.read (o.within d')) ∧
    (2 * ((s.read o).scanned.length : Int) + 1 ≤ o.maxDepth →
      ∀ e, s.parse o = .error e → ¬e.IsTooDeep) := by
  refine ⟨fun d d' hd => s.read_limits o hd, ?_⟩
  intro hlimit e he hdeep
  have hle := Source.le_scanned_of_tooDeep he hdeep
  omega

/-- One group in another needs three levels, and eleven are enough for any five tokens. -/
theorem Source.limit_decides_groups :
    let s : Source := ⟨"((a))", "x", false⟩
    (∃ e, s.parse (ParseOptions.within {} 2) = .error e ∧ e.IsTooDeep) ∧
    s.read (ParseOptions.within {} 3) = s.read (ParseOptions.within {} 11) ∧
    (s.read (ParseOptions.within {} 11)).scanned.length = 5 ∧
    ∀ e, s.parse (ParseOptions.within {} 11) = .error e → ¬e.IsTooDeep := by
  intro s
  have htwo : (s.parse (ParseOptions.within {} 2)).isOk = false := by decide +kernel
  have hthree : (s.parse (ParseOptions.within {} 3)).isOk = true := by decide +kernel
  have hscanned : (s.read (ParseOptions.within {} 11)).scanned.length = 5 := by decide +kernel
  refine ⟨?_, ?_, hscanned, ?_⟩
  · rcases (Source.limit_decides s {}).1 2 3 (by decide) with hdeep | hsame
    · exact hdeep
    · unfold Source.parse at htwo hthree
      rw [hsame, hthree] at htwo
      cases htwo
  · rcases (Source.limit_decides s {}).1 3 11 (by decide) with ⟨e, he, _⟩ | hsame
    · rw [he] at hthree
      cases hthree
    · exact hsame
  · refine (Source.limit_decides s (ParseOptions.within {} 11)).2 ?_
    rw [hscanned]
    decide

end LambdaReader
