import LambdaReader.Proofs.Compositional

/-!
# `Proofs.Limit` — one limit of nesting beside another

A lower limit of nesting changes nothing but that reading may fail for it: with the lower limit a program
is nested too deeply, or everything is as with the higher one. The argument compares the two runs from
one state. They part only where the lower limit is reached. What is reported there names the next token,
so it has to be looked at; if it cannot be scanned, that is the failure, and the other run has it too,
since whatever it goes on with looks at the next token first.

## Main results
- `Hereditary.limits`: whatever relates two limits at their nesting relates the expressions under them;
- `Source.read_limits`: the readings of a source with two limits.
-/

namespace LambdaReader

/-- The failure is reported as nesting that is too deep. -/
def Failure.IsTooDeep (e : Failure) : Prop :=
  ∃ f, e.fault? = .ok f ∧ f.family.name = "ParseError" ∧ f.code.map ErrorCode.text = some "P004"

theorem Failure.isTooDeep_iff {e : Failure} :
    e.IsTooDeep ↔ ∃ limit found l, e = .grammar (.tooDeep limit) found l := by
  constructor
  · rintro ⟨f, hf, hfamily, hcode⟩
    cases e with
    | misuse m => cases hf
    | lexical cause l =>
      rw [Failure.fault?_lexical] at hf
      cases hf
      have hlexical : FaultFamily.lexical.name ≠ "ParseError" := by decide
      exact absurd hfamily hlexical
    | grammar cause found l =>
      rw [Failure.fault?_grammar] at hf
      cases hf
      cases cause with
      | tooDeep limit => exact ⟨limit, found, l, rfl⟩
      | expected | unexpected | notAVariable => simp [GrammarCause.code, ErrorCode.text] at hcode
  · rintro ⟨limit, found, l, rfl⟩
    exact ⟨_, Failure.fault?_grammar _ _ _, rfl, rfl⟩

theorem Failure.isTooDeep_grammar (limit : Int) (found : Option Token) (l : Location) :
    (Failure.grammar (.tooDeep limit) found l).IsTooDeep :=
  Failure.isTooDeep_iff.mpr ⟨limit, found, l, rfl⟩

/-- The options with another limit of nesting. -/
def ParseOptions.within (o : ParseOptions) (limit : Int) : ParseOptions := { o with maxDepth := limit }

namespace Parser

open Step

variable {σ α β : Type}

variable [TokenSource σ] {o : ParseOptions}

/-! ## Steps that look at the next token first -/

/-- If the next token cannot be scanned, the step fails for that. -/
def Peeks (x : Parse σ α) : Prop := ∀ ⦃p e q⦄, peek p = .error e q → x p = .error e q

namespace Peeks

variable {x : Parse σ α}

protected theorem bind (h : Peeks x) (f : α → Parse σ β) : Peeks (x >>= f) := by
  intro p e q hp
  rw [bind_apply, h hp]

protected theorem peek : Peeks (peek (σ := σ)) := fun _ _ _ h => h

theorem primaryWith (o : ParseOptions) (x : Parse σ Node) : Peeks (primaryWith o x) :=
  Peeks.bind (Peeks.bind .peek _) _

theorem atomWith (o : ParseOptions) (x : Parse σ Node) : Peeks (atomWith o x) :=
  (primaryWith o x).bind _

theorem reject (cause : GrammarCause) : Peeks (reject cause : Parse σ α) := .bind .peek _

theorem exhausted (o : ParseOptions) : Peeks (exhausted o : Parse σ α) := by
  rw [exhausted_eq]
  exact reject _

/-- At the limit the next token is looked at for its name, and below it by the step. -/
theorem nested (h : Peeks x) : Peeks (nested o x) := by
  intro p e q hp
  by_cases hlimit : o.maxDepth < (p.depth : Int) + 1
  · rw [nested_of_lt hlimit]
    exact reject _ hp
  · have hdeeper : Parser.peek p.deeper = .error e q.deeper := by rw [peek_deeper, hp]
    rw [nested_of_le (by omega), h hdeeper]
    rfl

theorem expressionAt (o : ParseOptions) (n : Nat) : Peeks (expressionAt (σ := σ) o n) := by
  cases n with
  | zero => exact exhausted o
  | succ n => exact nested ((atomWith o _).bind _)

theorem operandAt (o : ParseOptions) (n : Nat) (bound : Int) :
    Peeks (operandAt (σ := σ) o n bound) := by
  cases n with
  | zero => exact exhausted o
  | succ n => exact nested ((atomWith o _).bind _)

end Peeks

/-! ## Two limits -/

/-- From every state the first step is nested too deeply or does what the second does. -/
def Limits ⦃α : Type⦄ (x y : Parse σ α) : Prop :=
  ∀ p, (∃ e q, x p = .error e q ∧ e.IsTooDeep) ∨ x p = y p

omit [TokenSource σ] in
theorem Limits.refl (x : Parse σ α) : Limits x x := fun _ => .inr rfl

omit [TokenSource σ] in
protected theorem Limits.bind {x y : Parse σ α} {f g : α → Parse σ β} (hx : Limits x y)
    (hf : ∀ a, Limits (f a) (g a)) : Limits (x >>= f) (y >>= g) := by
  intro p
  rcases hx p with ⟨e, q, hp, he⟩ | hp
  · refine .inl ⟨e, q, ?_, he⟩
    rw [bind_apply, hp]
  · rw [bind_apply, bind_apply, hp]
    cases y p with
    | ok a q => exact hf a q
    | error e q => exact .inr rfl

theorem limits_compositional : Compositional (Limits (σ := σ)) where
  pure _ := .refl _
  bind := .bind
  get := .refl _
  peek := .refl _
  advance := .refl _
  note _ := .refl _
  fail _ _ := .refl _
  misuse _ := .refl _

/-- What looks at the next token first is limited by failing at once: if the token can be scanned, that is
a failure for nesting, and otherwise both fail alike. -/
theorem limits_reject {y : Parse σ α} (hy : Peeks y) (limit : Int) :
    Limits (reject (.tooDeep limit)) y := by
  intro p
  rw [reject_apply]
  cases hp : peek p with
  | ok found q => exact .inl ⟨_, q, rfl, Failure.isTooDeep_grammar _ _ _⟩
  | error e q => exact .inr (hy hp).symm

theorem Limits.exhausted {y : Parse σ α} (hy : Peeks y) : Limits (exhausted o) y := by
  rw [exhausted_eq]
  exact limits_reject hy _

variable {d d' : Int}

/-- The lower limit is reached first; below it both go one level deeper. -/
theorem Limits.nested {x y : Parse σ α} (h : Limits x y) (hy : Peeks y) (hd : d ≤ d') :
    Limits (nested (o.within d) x) (nested (o.within d') y) := by
  intro p
  by_cases hlimit : d < (p.depth : Int) + 1
  · rw [nested_of_lt (o := o.within d) hlimit]
    exact limits_reject hy.nested _ p
  · have hle : (p.depth : Int) + 1 ≤ d := by omega
    rw [nested_of_le (o := o.within d) hle, nested_of_le (o := o.within d') (Int.le_trans hle hd)]
    rcases h p.deeper with ⟨e, q, hp, he⟩ | hp
    · rw [hp]
      exact .inl ⟨e, q.ascend, rfl, he⟩
    · rw [hp]
      exact .inr rfl

/-- A relation between runs with a lower limit and with a higher one is between whole expressions, with
fewer levels left under the lower limit, if nesting keeps it and having no level left has it to any step
that looks at the next token. -/
theorem Hereditary.limits {R : ∀ ⦃α : Type⦄, Parse σ α → Parse σ α → Prop} (hR : Hereditary R)
    (hself : ∀ ⦃x : Parse σ Node⦄, R x x → R (Parser.nested (o.within d') x) (Parser.nested (o.within d') x))
    (hnone : R (Parser.exhausted (α := Node) (o.within d')) (Parser.exhausted (o.within d')))
    (hnested : ∀ ⦃x y : Parse σ Node⦄, R x y → Peeks y →
      R (Parser.nested (o.within d) x) (Parser.nested (o.within d') y))
    (hexhausted : ∀ ⦃y : Parse σ Node⦄, R y y → Peeks y → R (Parser.exhausted (o.within d)) y) {n m : Nat}
    (hnm : n ≤ m) :
    R (expressionAt (o.within d) n) (expressionAt (o.within d') m) ∧
    (∀ bound, R (operandAt (o.within d) n bound) (operandAt (o.within d') m bound)) ∧
    ∀ left bound, R (operatorsAt (o.within d) n left bound) (operatorsAt (o.within d') m left bound) := by
  have ho : (o.within d').trailingSeparators = (o.within d).trailingSeparators := rfl
  have hlevels := hR.itself.levels (fun _ _ hx => hx.imp fun h => hself h) ⟨rfl, hnone⟩
  induction n generalizing m with
  | zero =>
    obtain ⟨⟨-, hexpr⟩, hoperand, -⟩ := hlevels m
    refine ⟨hexhausted hexpr (.expressionAt _ m),
      fun bound => hexhausted (hoperand bound).2 (.operandAt _ m bound), ?_⟩
    -- Both look for an operator and take it; then a level is needed that the lower limit has not.
    intro left bound
    cases m with
    | zero =>
      refine hR.bind (hR.tighterThan bound) fun found => ?_
      cases found with
      | none => exact hR.pure left
      | some symbol => exact hR.bind hR.advance fun _ => hexhausted hnone (.exhausted _)
    | succ m =>
      obtain ⟨-, hoperand, hoperators⟩ := hlevels m
      refine hR.bind (hR.tighterThan bound) fun found => ?_
      cases found with
      | none => exact hR.pure left
      | some symbol =>
        refine hR.bind hR.advance fun _ => hexhausted (hself ?_) (.nested ((Peeks.operandAt _ m _).bind _))
        exact hR.bind (hoperand _).2 fun _ => hR.bind (hR.join _ _ _) fun _ => (hoperators _ _).2
  | succ n ih =>
    obtain ⟨m, rfl⟩ := Nat.exists_eq_succ_of_ne_zero (Nat.ne_zero_of_lt hnm)
    obtain ⟨hexpr, hoperand, hoperators⟩ := ih (Nat.le_of_succ_le_succ hnm)
    have hatom := hR.atomWith ho hexpr
    refine ⟨?_, fun bound => ?_, fun left bound => ?_⟩
    · refine hnested ?_ ((Peeks.atomWith _ _).bind _)
      refine hR.bind hatom fun first => hR.bind (hoperators first _) fun whole => ?_
      exact hR.maybeCallWith ho hexpr whole
    · refine hnested ?_ ((Peeks.atomWith _ _).bind _)
      exact hR.bind hatom fun first => hoperators first bound
    · refine hR.bind (hR.tighterThan bound) fun found => ?_
      cases found with
      | none => exact hR.pure left
      | some symbol =>
        refine hR.bind hR.advance fun _ => hnested ?_ ((Peeks.operandAt _ m _).bind _)
        exact hR.bind (hoperand _) fun _ => hR.bind (hR.join _ _ _) fun _ => hoperators _ _

theorem limits_program (o : ParseOptions) (hd : d ≤ d') :
    Limits (σ := σ) (program (o.within d)) (program (o.within d')) := by
  have hR := (limits_compositional (σ := σ)).hereditary
  refine hR.program fun p => ?_
  have hlevels : p.levels (o.within d) ≤ p.levels (o.within d') :=
    Int.toNat_le_toNat (Int.sub_le_sub_right hd _)
  refine (hR.limits (fun _ _ => .refl _) (.refl _) ?_ ?_ hlevels).1 p
  · exact fun x y h hy => .nested h hy hd
  · exact fun y _ hy => .exhausted hy

end Parser

/-- With a lower limit a source is nested too deeply, or it is read as with a higher one: the same
program or the same failure, and the same notes. -/
theorem Source.read_limits (s : Source) (o : ParseOptions) {d d' : Int} (hd : d ≤ d') :
    (∃ e, s.parse (o.within d) = .error e ∧ e.IsTooDeep) ∨
      s.read (o.within d) = s.read (o.within d') := by
  unfold Source.parse Source.read TokenSource.read
  rcases Parser.limits_program o hd (Parser.ofSource s.scanner) with ⟨e, q, hp, he⟩ | hp
  · rw [hp]
    exact .inl ⟨e, rfl, he⟩
  · rw [hp]
    exact .inr rfl

end LambdaReader
