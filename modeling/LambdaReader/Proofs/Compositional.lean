import LambdaReader.Proofs.Stream

/-!
# `Proofs.Compositional` — what the grammar inherits from single steps

Every form of the grammar is put together from a few single steps: looking at the next token, taking it,
failing at it, noting something, and asking for the location, the last token or the fuel. So a relation
between runs that each single step has to itself, and that a sequence inherits from its parts, holds
between any form and itself, and between two versions of a form whose parts it relates, be it on tokens of
another source. One walk over the grammar is enough for all such relations. A property of single runs is a
relation too, of a step to itself.

`Hereditary` asks for no more of the single steps than the grammar makes of them, and `Noteless` for no
more than expressions make of them. Most relations hold for any use of the state and for any failure, which
is `Compositional`.

Nesting is no single step, and neither is failing because it is too deep: what they do depends on the
limit, and each relation says for itself how it goes along with them. The last section says what nesting
does from one state, at the limit and below it.

## Main results
- `Noteless` and `Hereditary`, and a law for each form: `Noteless.primaryWith`, `Noteless.levels`, …;
- `Compositional.hereditary`;
- `nested_of_le` and `nested_of_lt`, the two cases of nesting.
-/

namespace LambdaReader

/-- The token that was noted as taken from the source. -/
def Note.token? : Note → Option Token
  | .scanned t => some t
  | .parsed _ | .finished _ _ => none

namespace Parser

open Step

variable {σ τ : Type}

/-- Branches on what is known are related if both alternatives are. -/
theorem related_ite {R : ∀ ⦃α : Type⦄, Parse σ α → Parse τ α → Prop} {α : Type} {c : Prop}
    [Decidable c] {x x' : Parse σ α} {y y' : Parse τ α} (hx : R x y) (hx' : R x' y') :
    R (if c then x else x') (if c then y else y') := by
  by_cases hc : c
  · rw [if_pos hc, if_pos hc]
    exact hx
  · rw [if_neg hc, if_neg hc]
    exact hx'

/-- A property of steps as a relation: what has it is related to itself and to nothing else. -/
def Itself (P : ∀ ⦃α : Type⦄, Parse σ α → Prop) ⦃α : Type⦄ (x y : Parse σ α) : Prop := x = y ∧ P x

theorem Itself.bind {P : ∀ ⦃α : Type⦄, Parse σ α → Prop} {α β : Type} {x y : Parse σ α}
    {f g : α → Parse σ β} (hP : P x → (∀ a, P (f a)) → P (x >>= f)) (hx : Itself P x y)
    (hf : ∀ a, Itself P (f a) (g a)) : Itself P (x >>= f) (y >>= g) := by
  obtain ⟨rfl, hx⟩ := hx
  obtain rfl : f = g := funext fun a => (hf a).1
  exact ⟨rfl, hP hx fun a => (hf a).2⟩

/-- What has a property has it after a step that makes of it something that has it. -/
theorem Itself.imp {P : ∀ ⦃α : Type⦄, Parse σ α → Prop} {α β : Type} {x y : Parse σ α}
    {f : Parse σ α → Parse σ β} (hP : P x → P (f x)) (hx : Itself P x y) : Itself P (f x) (f y) := by
  obtain ⟨rfl, hx⟩ := hx
  exact ⟨rfl, hP hx⟩

/-- Nothing is known of the tokens. -/
def anyTokens (_ : Lookahead σ) : Prop := True

variable [TokenSource σ] [TokenSource τ]

/-- The states do not differ in anything that the grammar asks them for. -/
structure SameView (p : Parser σ) (q : Parser τ) : Prop where
  location : p.location = q.location
  last : p.last = q.last
  bound : p.tokens.bound = q.tokens.bound

protected theorem SameView.refl (p : Parser σ) : SameView p p := ⟨rfl, rfl, rfl⟩

/-- What a step does with the state is the same for states that do not differ in what it asks for. -/
theorem Itself.ask {P : ∀ ⦃α : Type⦄, Parse σ α → Prop} {α : Type} {f g : Parser σ → Parse σ α}
    (h : ∀ p q, SameView p q → Itself P (f p) (g q))
    (hP : (∀ p, P (f p)) → (∀ p q, SameView p q → f p = f q) → P (get >>= f)) :
    Itself P (get >>= f) (get >>= g) := by
  obtain rfl : f = g := funext fun p => (h p p (.refl p)).1
  exact ⟨rfl, hP (fun p => (h p p (.refl p)).2) fun p q hpq => (h p q hpq).1⟩

/-- A relation that sequences inherit from their parts and single steps have to themselves, as far as
expressions make use of them. Expressions note nothing but the tokens that they take. -/
structure Noteless (R : ∀ ⦃α : Type⦄, Parse σ α → Parse τ α → Prop) : Prop where
  pure {α : Type} (a : α) : R (pure a) (pure a)
  bind {α β : Type} {x : Parse σ α} {y : Parse τ α} {f : α → Parse σ β} {g : α → Parse τ β} :
    R x y → (∀ a, R (f a) (g a)) → R (x >>= f) (y >>= g)
  ask {α : Type} {f : Parser σ → Parse σ α} {g : Parser τ → Parse τ α} :
    (∀ p q, SameView p q → R (f p) (g q)) → R (get >>= f) (get >>= g)
  peek : R peek peek
  advance : R advance advance
  reject {α : Type} {cause : GrammarCause} : (∀ limit, cause ≠ .tooDeep limit) →
    R (reject cause : Parse σ α) (reject cause : Parse τ α)
  variableName : R variableName variableName
  misuse {α : Type} (m : Misuse) : R (throw (.misuse m) : Parse σ α) (throw (.misuse m) : Parse τ α)

/-- A relation that sequences inherit from their parts and single steps have to themselves, as far as the
grammar makes use of them. -/
structure Hereditary (R : ∀ ⦃α : Type⦄, Parse σ α → Parse τ α → Prop) : Prop extends Noteless R where
  note {n : Note} : n.token? = none → R (onTokens (Lookahead.note n)) (onTokens (Lookahead.note n))

/-- A relation that single steps have to themselves and sequences inherit from their parts. -/
structure Compositional (R : ∀ ⦃α : Type⦄, Parse σ α → Parse σ α → Prop) : Prop where
  pure {α : Type} (a : α) : R (pure a) (pure a)
  bind {α β : Type} {x y : Parse σ α} {f g : α → Parse σ β} :
    R x y → (∀ a, R (f a) (g a)) → R (x >>= f) (y >>= g)
  get : R get get
  peek : R peek peek
  advance : R advance advance
  note {n : Note} : n.token? = none → R (onTokens (Lookahead.note n)) (onTokens (Lookahead.note n))
  fail {α : Type} {cause : GrammarCause} (found : Option Token) : (∀ limit, cause ≠ .tooDeep limit) →
    R (fail cause found : Parse σ α) (fail cause found)
  misuse {α : Type} (m : Misuse) : R (throw (.misuse m) : Parse σ α) (throw (.misuse m))

section Laws

theorem Compositional.hereditary {R : ∀ ⦃α : Type⦄, Parse σ α → Parse σ α → Prop}
    (hR : Compositional R) : Hereditary R where
  pure := hR.pure
  bind := hR.bind
  ask h := hR.bind hR.get fun p => h p p (.refl p)
  peek := hR.peek
  advance := hR.advance
  note := hR.note
  reject h := hR.bind hR.peek fun _ => hR.fail _ h
  variableName := by
    refine hR.bind hR.advance fun found => ?_
    cases found with
    | none => exact hR.fail _ nofun
    | some t => exact related_ite (hR.pure _) (hR.fail _ nofun)
  misuse := hR.misuse

/-- A relation between steps of one source is a property of those that it relates to themselves. -/
theorem Noteless.itself {R : ∀ ⦃α : Type⦄, Parse σ α → Parse σ α → Prop} (hR : Noteless R) :
    Noteless (Itself fun ⦃α⦄ (x : Parse σ α) => R x x) where
  pure a := ⟨rfl, hR.pure a⟩
  bind := Itself.bind hR.bind
  ask h := Itself.ask h fun hf hsame => hR.ask fun p q hpq => hsame p q hpq ▸ hf p
  peek := ⟨rfl, hR.peek⟩
  advance := ⟨rfl, hR.advance⟩
  reject h := ⟨rfl, hR.reject h⟩
  variableName := ⟨rfl, hR.variableName⟩
  misuse m := ⟨rfl, hR.misuse m⟩

variable {R : ∀ ⦃α : Type⦄, Parse σ α → Parse τ α → Prop} {α : Type}

namespace Noteless

variable (hR : Noteless R)

include hR

/-! ## Single tokens -/

theorem atEnd : R atEnd atEnd := by
  rw [atEnd_eq, atEnd_eq]
  exact hR.bind hR.peek fun _ => hR.pure _

theorem isAtKind (kind : TokenKind) : R (isAtKind kind) (isAtKind kind) :=
  hR.bind hR.peek fun _ => hR.pure _

theorem isAt (kind : TokenKind) (text : String) : R (isAt kind text) (isAt kind text) :=
  hR.bind hR.peek fun _ => hR.pure _

theorem skip (kind : TokenKind) (text : String) : R (skip kind text) (skip kind text) := by
  refine hR.bind (hR.isAt kind text) fun _ => related_ite ?_ (hR.reject nofun)
  exact hR.bind hR.advance fun _ => hR.pure _

theorem startLocation : R startLocation startLocation := by
  refine hR.bind hR.peek fun found => ?_
  cases found with
  | none => exact hR.ask fun p q h => by rw [h.location]; exact hR.pure _
  | some t => exact hR.pure _

theorem spanFrom (first : Location) : R (spanFrom first) (spanFrom first) :=
  hR.ask fun p q h => by rw [h.last]; exact hR.pure _

theorem spanOf (n : Node) : R (spanOf n) (spanOf n) := by
  unfold Parser.spanOf
  cases n.span with
  | none => exact hR.misuse _
  | some span => exact hR.pure _

theorem boolean : R boolean boolean := by
  refine hR.bind hR.advance fun found => ?_
  cases found with
  | none => exact hR.misuse _
  | some t => exact hR.bind (hR.spanFrom _) fun _ => hR.pure _

theorem leafNode (t : Token) (span : Span) : R (leafNode t span) (leafNode t span) := by
  unfold Parser.leafNode
  cases t.kind with
  | number =>
    cases t.number? with
    | none => exact hR.misuse _
    | some x => exact hR.pure _
  | identifier | string | punctuation | keyword | operator => exact hR.pure _

theorem leaf : R leaf leaf := by
  refine hR.bind hR.peek fun found => ?_
  cases found with
  | none => exact hR.reject nofun
  | some t =>
    refine related_ite (hR.reject nofun) ?_
    exact hR.bind hR.advance fun _ => hR.bind (hR.spanFrom _) fun _ => hR.leafNode t _

theorem skipThen : R skipThen skipThen :=
  hR.bind (hR.isAt _ _) fun _ => related_ite (hR.pure _) (hR.skip _ _)

theorem tighterThan (bound : Int) : R (tighterThan bound) (tighterThan bound) := by
  refine hR.bind hR.peek fun found => ?_
  cases found with
  | none => exact hR.pure _
  | some t => exact related_ite (hR.pure _) (hR.pure _)

theorem join (symbol : String) (left right : Node) :
    R (join symbol left right) (join symbol left right) :=
  hR.bind (hR.spanOf _) fun _ => hR.bind (hR.spanOf _) fun _ => related_ite (hR.pure _) (hR.pure _)

theorem skipSeparator : R skipSeparator skipSeparator :=
  hR.bind hR.atEnd fun _ => related_ite (hR.pure _) (hR.skip _ _)

/-! ## Forms with parts -/

variable {o o' : ParseOptions} (ho : o'.trailingSeparators = o.trailingSeparators)

include ho

theorem anotherItem (stop separator : String) (first : Bool) :
    R (anotherItem o stop separator first) (anotherItem o' stop separator first) := by
  unfold Parser.anotherItem
  rw [ho]
  refine related_ite (hR.pure _) (hR.bind (hR.skip _ _) fun _ => related_ite ?_ (hR.pure _))
  exact hR.bind (hR.isAt _ _) fun _ => hR.pure _

theorem items {x : Parse σ α} {y : Parse τ α} (h : R x y) (stop separator : String) (n : Nat) (first : Bool) :
    R (items o stop separator x n first) (items o' stop separator y n first) := by
  induction n generalizing first with
  | zero => exact hR.pure _
  | succ n ih =>
    unfold Parser.items
    refine hR.bind hR.atEnd fun _ => related_ite (hR.pure _) ?_
    refine hR.bind (hR.isAt _ _) fun _ => related_ite (hR.pure _) ?_
    refine hR.bind (hR.anotherItem ho _ _ _) fun _ => related_ite ?_ (hR.pure _)
    exact hR.bind h fun _ => hR.bind (ih false) fun _ => hR.pure _

theorem delimited {x : Parse σ α} {y : Parse τ α} (h : R x y) (start stop separator : String) :
    R (delimited o start stop separator x) (delimited o' start stop separator y) := by
  refine hR.bind (hR.skip _ _) fun _ => hR.ask fun p q hpq => ?_
  rw [hpq.bound]
  refine hR.bind (hR.items ho h _ _ _ _) fun _ => ?_
  exact hR.bind (hR.skip _ _) fun _ => hR.pure _

variable {x : Parse σ Node} {y : Parse τ Node}

theorem callWith (h : R x y) (callee : Node) : R (callWith o x callee) (callWith o' y callee) := by
  refine hR.bind (hR.delimited ho h _ _ _) fun _ => hR.bind (hR.spanOf _) fun _ => ?_
  exact hR.bind (hR.spanFrom _) fun _ => hR.pure _

theorem maybeCallWith (h : R x y) (callee : Node) :
    R (maybeCallWith o x callee) (maybeCallWith o' y callee) :=
  hR.bind (hR.isAt _ _) fun _ => related_ite (hR.callWith ho h callee) (hR.pure _)

omit ho in
theorem conditionalWith (h : R x y) : R (conditionalWith x) (conditionalWith y) := by
  refine hR.bind hR.startLocation fun _ => hR.bind (hR.skip _ _) fun _ => hR.bind h fun _ => ?_
  refine hR.bind hR.skipThen fun _ => hR.bind h fun _ => hR.bind (hR.isAt _ _) fun _ => related_ite ?_ ?_
  · refine hR.bind hR.advance fun _ => hR.bind h fun _ => ?_
    exact hR.bind (hR.spanFrom _) fun _ => hR.pure _
  · exact hR.bind (hR.spanFrom _) fun _ => hR.pure _

theorem functionWith (h : R x y) : R (functionWith o x) (functionWith o' y) := by
  refine hR.bind hR.startLocation fun _ => hR.bind (hR.skip _ _) fun _ => ?_
  refine hR.bind (hR.delimited ho hR.variableName _ _ _) fun _ => hR.bind h fun _ => ?_
  exact hR.bind (hR.spanFrom _) fun _ => hR.pure _

theorem blockWith (h : R x y) : R (blockWith o x) (blockWith o' y) := by
  refine hR.bind hR.startLocation fun _ => hR.bind (hR.delimited ho h _ _ _) fun body => ?_
  refine hR.bind (hR.spanFrom _) fun _ => ?_
  match body with
  | [] | [_] | _ :: _ :: _ => exact hR.pure _

omit ho in
theorem groupWith (h : R x y) : R (groupWith x) (groupWith y) := by
  refine hR.bind hR.advance fun _ => hR.bind h fun _ => ?_
  exact hR.bind (hR.skip _ _) fun _ => hR.pure _

theorem primaryWith (h : R x y) : R (primaryWith o x) (primaryWith o' y) := by
  refine hR.bind (hR.isAt _ _) fun _ => related_ite (hR.groupWith h) ?_
  refine hR.bind (hR.isAt _ _) fun _ => related_ite (hR.blockWith ho h) ?_
  refine hR.bind (hR.isAt _ _) fun _ => related_ite (hR.conditionalWith h) ?_
  refine hR.bind (hR.isAt _ _) fun _ => related_ite hR.boolean ?_
  refine hR.bind (hR.isAt _ _) fun _ => related_ite hR.boolean ?_
  exact hR.bind (hR.isAt _ _) fun _ => related_ite (hR.functionWith ho h) hR.leaf

theorem atomWith (h : R x y) : R (atomWith o x) (atomWith o' y) :=
  hR.bind (hR.primaryWith ho h) fun first => hR.maybeCallWith ho h first

omit ho in
/-- Expressions, operands and folds with any number of levels left, if nesting has the relation to itself
and running out of levels does. -/
theorem levels (hnested : ∀ ⦃x : Parse σ Node⦄ ⦃y : Parse τ Node⦄, R x y → R (nested o x) (nested o y))
    (hexhausted : R (exhausted (α := Node) o) (exhausted o)) (n : Nat) :
    R (expressionAt o n) (expressionAt o n) ∧
      (∀ bound, R (operandAt o n bound) (operandAt o n bound)) ∧
      ∀ left bound, R (operatorsAt o n left bound) (operatorsAt o n left bound) := by
  induction n with
  | zero =>
    refine ⟨hexhausted, fun _ => hexhausted, fun left bound => ?_⟩
    refine hR.bind (hR.tighterThan bound) fun found => ?_
    cases found with
    | none => exact hR.pure left
    | some symbol => exact hR.bind hR.advance fun _ => hexhausted
  | succ n ih =>
    obtain ⟨hexpr, hoperand, hoperators⟩ := ih
    have hatom := hR.atomWith (o := o) rfl hexpr
    refine ⟨hnested ?_, fun bound => hnested ?_, fun left bound => ?_⟩
    · refine hR.bind hatom fun first => hR.bind (hoperators first _) fun whole => ?_
      exact hR.maybeCallWith rfl hexpr whole
    · exact hR.bind hatom fun first => hoperators first bound
    · refine hR.bind (hR.tighterThan bound) fun found => ?_
      cases found with
      | none => exact hR.pure left
      | some symbol =>
        refine hR.bind hR.advance fun _ => hnested ?_
        exact hR.bind (hoperand _) fun _ => hR.bind (hR.join _ _ _) fun _ => hoperators _ _

end Noteless

/-! ## Programs -/

namespace Hereditary

variable (hR : Hereditary R) {o o' : ParseOptions}

include hR

theorem statements (h : R (expression o) (expression o')) (n : Nat) :
    R (statements o n) (statements o' n) := by
  induction n with
  | zero => exact hR.pure _
  | succ n ih =>
    unfold Parser.statements
    refine hR.bind hR.atEnd fun _ => related_ite (hR.pure _) ?_
    refine hR.bind h fun _ => hR.bind (hR.note rfl) fun _ => hR.bind hR.skipSeparator fun _ => ?_
    exact hR.bind ih fun _ => hR.pure _

theorem program (h : R (expression o) (expression o')) : R (program o) (program o') := by
  refine hR.ask fun p q hpq => hR.ask fun p' q' hpq' => ?_
  rw [hpq.location, hpq'.bound]
  refine hR.bind (hR.statements h _) fun _ => hR.bind (hR.spanFrom _) fun _ => ?_
  exact hR.bind (hR.note rfl) fun _ => hR.pure _

end Hereditary

end Laws

/-! ## Nesting -/

/-- The parser one level deeper. -/
def deeper (p : Parser σ) : Parser σ := { p with depth := p.depth + 1 }

variable {α : Type} {o : ParseOptions} {p : Parser σ}

/-- Looking at the next token takes no notice of the depth. -/
theorem peek_deeper (p : Parser σ) :
    peek p.deeper = match peek p with
      | .ok found q => .ok found q.deeper
      | .error e q => .error e q.deeper := by
  unfold peek onTokens deeper
  cases Lookahead.peek p.tokens with
  | ok found ts => rfl
  | error e ts => rfl

theorem reject_apply (cause : GrammarCause) (p : Parser σ) :
    (reject cause : Parse σ α) p = match peek p with
      | .ok found q => .error (.grammar cause found q.location) q
      | .error e q => .error e q := by
  rw [reject, bind_apply]
  cases peek p with
  | ok found q => rfl
  | error e q => rfl

/-- Below the limit the step is run one level deeper. -/
theorem nested_of_le (h : (p.depth : Int) + 1 ≤ o.maxDepth) (x : Parse σ α) :
    nested o x p = match x p.deeper with
      | .ok a q => .ok a q.ascend
      | .error e q => .error e q.ascend := by
  have hdescend : descend o p = .ok () p.deeper := by
    unfold descend
    rw [bind_of_ok (modify_apply _ p), bind_of_ok (get_apply _), if_neg (by push_cast; omega)]
    rfl
  have hrun : (descend o >>= fun _ => x) p = x p.deeper := bind_of_ok hdescend _
  cases hx : x p.deeper with
  | ok a q => simp only [nested, hrun, hx]
  | error e q => simp only [nested, hrun, hx]

/-- At the limit the step is not run. The failure names the next token, and the level is left again. -/
theorem nested_of_lt (h : o.maxDepth < (p.depth : Int) + 1) (x : Parse σ α) :
    nested o x p = reject (.tooDeep o.maxDepth) p := by
  have hdescend : descend o p = reject (.tooDeep o.maxDepth) p.deeper := by
    unfold descend
    rw [bind_of_ok (modify_apply _ p), bind_of_ok (get_apply _), if_pos (by push_cast; omega)]
    rfl
  rw [nested, bind_apply, hdescend, reject_apply, reject_apply, peek_deeper]
  cases peek p with
  | ok found q => rfl
  | error e q => rfl

/-- To have no level left is to fail for it, whatever the depth is. -/
theorem exhausted_eq (o : ParseOptions) : (exhausted o : Parse σ α) = reject (.tooDeep o.maxDepth) := by
  funext p
  unfold exhausted
  by_cases h : o.maxDepth < (p.depth : Int) + 1
  · exact nested_of_lt h _
  · rw [nested_of_le (by omega), reject_apply, reject_apply, peek_deeper]
    cases peek p with
    | ok found q => rfl
    | error e q => rfl

end Parser
end LambdaReader
