import Mathlib.Data.List.Forall2
import LambdaReader.Proofs.Limit
import LambdaReader.Proofs.Regroup

/-!
# `Proofs.Concur` — runs that differ in nesting and in how assignments are grouped

Two runs on the same tokens may take different ways through the grammar and so be at different depths.
They concur if they end with related values or with the same failure, the same tokens taken, unless one of
them is nested too deeply. Nesting on either side makes no difference then, as long as both look at the next
token: where the limit is reached, it is looked at for its name.

The judgement is closed under sequencing, and single steps have it to themselves. The forms of an atom
have it with trees that are akin if the expressions in them have.

## Main results
- `concur_hereditary`: forms that give no trees concur with themselves;
- `Concur.nested_bind`: nesting on both sides, whatever follows;
- `Concur.atomWith`: atoms are akin if the expressions in them are.
-/

namespace LambdaReader
namespace Parser

open Step

variable {σ α β γ : Type}

/-! ## States and outcomes -/

/-- The parsers differ in their depth only. -/
def Beside (p q : Parser σ) : Prop := ∃ depth, q = { p with depth }

namespace Beside

variable {p q r : Parser σ}

protected theorem refl (p : Parser σ) : Beside p p := ⟨p.depth, rfl⟩

protected theorem symm (h : Beside p q) : Beside q p := by
  obtain ⟨d, rfl⟩ := h
  exact ⟨p.depth, rfl⟩

protected theorem trans (h : Beside p q) (h' : Beside q r) : Beside p r := by
  obtain ⟨d, rfl⟩ := h
  obtain ⟨d', rfl⟩ := h'
  exact ⟨d', rfl⟩

theorem deeper (p : Parser σ) : Beside p.deeper p := ⟨p.depth, rfl⟩

theorem ascend (p : Parser σ) : Beside p p.ascend := ⟨_, rfl⟩

theorem tokens_eq (h : Beside p q) : p.tokens = q.tokens := by
  obtain ⟨d, rfl⟩ := h
  rfl

theorem sameView [TokenSource σ] (h : Beside p q) : SameView p q := by
  obtain ⟨d, rfl⟩ := h
  exact ⟨rfl, rfl, rfl⟩

end Beside

/-- Both runs succeed with related values, or both fail for one cause, from the same tokens; or one of them
is nested too deeply. -/
inductive Concurs (A : α → β → Prop) :
    EStateM.Result Failure (Parser σ) α → EStateM.Result Failure (Parser σ) β → Prop where
  | ok {a : α} {b : β} {p q : Parser σ} : A a b → Beside p q → Concurs A (.ok a p) (.ok b q)
  | failed {e : Failure} {p q : Parser σ} : Beside p q → Concurs A (.error e p) (.error e q)
  | deepLeft {e : Failure} {p : Parser σ} {r : EStateM.Result Failure (Parser σ) β} :
    e.IsTooDeep → Concurs A (.error e p) r
  | deepRight {e : Failure} {q : Parser σ} {r : EStateM.Result Failure (Parser σ) α} :
    e.IsTooDeep → Concurs A r (.error e q)

/-- From states that differ in their depth only, the runs concur. -/
def Concur (A : α → β → Prop) (x : Parse σ α) (y : Parse σ β) : Prop :=
  ∀ ⦃p q⦄, Beside p q → Concurs A (x p) (y q)

namespace Concurs

variable {A : α → β → Prop} {x : EStateM.Result Failure (Parser σ) α}
  {y : EStateM.Result Failure (Parser σ) β}

protected theorem symm (h : Concurs A x y) : Concurs (flip A) y x := by
  cases h with
  | ok hab hpq => exact .ok hab hpq.symm
  | failed hpq => exact .failed hpq.symm
  | deepLeft he => exact .deepRight he
  | deepRight he => exact .deepLeft he

/-- The depth at the end makes no difference. -/
theorem ok_left {a : α} {p p' : Parser σ} (h : Concurs A (.ok a p) y) (hp : Beside p p') :
    Concurs A (.ok a p') y := by
  cases h with
  | ok hab hpq => exact .ok hab (hp.symm.trans hpq)
  | deepRight he => exact .deepRight he

theorem error_left {e : Failure} {p p' : Parser σ} (h : Concurs A (.error e p) y) (hp : Beside p p') :
    Concurs A (.error e p') y := by
  cases h with
  | failed hpq => exact .failed (hp.symm.trans hpq)
  | deepLeft he => exact .deepLeft he
  | deepRight he => exact .deepRight he

end Concurs

namespace Concur

variable {A : α → β → Prop} {x : Parse σ α} {y : Parse σ β}

protected theorem symm (h : Concur A x y) : Concur (flip A) y x := fun _ _ hpq => (h hpq.symm).symm

protected theorem pure {a : α} {b : β} (h : A a b) : Concur (σ := σ) A (pure a) (pure b) :=
  fun _ _ hpq => .ok h hpq

protected theorem bind {δ : Type} {B : γ → δ → Prop} {f : α → Parse σ γ} {g : β → Parse σ δ}
    (hx : Concur A x y) (hf : ∀ a b, A a b → Concur B (f a) (g b)) : Concur B (x >>= f) (y >>= g) := by
  intro p q hpq
  have hout := hx hpq
  rw [bind_apply, bind_apply]
  generalize x p = r, y q = r' at hout
  cases hout with
  | ok hab hpq' => exact hf _ _ hab hpq'
  | failed hpq' => exact .failed hpq'
  | deepLeft he => exact .deepLeft he
  | deepRight he => exact .deepRight he

/-- A step on both sides, and then steps that concur whatever it gives. -/
theorem bind_same {δ : Type} {B : γ → δ → Prop} {x y : Parse σ α} {f : α → Parse σ γ} {g : α → Parse σ δ}
    (hx : Concur Eq x y) (hf : ∀ a, Concur B (f a) (g a)) : Concur B (x >>= f) (y >>= g) :=
  hx.bind fun a _ hab => hab ▸ hf a

theorem ite {c : Prop} [Decidable c] {x' : Parse σ α} {y' : Parse σ β} (h : Concur A x y)
    (h' : Concur A x' y') : Concur A (if c then x else x') (if c then y else y') := by
  by_cases hc : c
  · rw [if_pos hc, if_pos hc]
    exact h
  · rw [if_neg hc, if_neg hc]
    exact h'

/-! ## Single steps -/

theorem onTokens (step : EStateM Failure (Lookahead σ) α) : Concur Eq (onTokens step) (onTokens step) := by
  rintro p _ ⟨d, rfl⟩
  rw [Parser.onTokens, Parser.onTokens]
  cases step p.tokens with
  | ok a ts => exact .ok rfl ⟨d, rfl⟩
  | error e ts => exact .failed ⟨d, rfl⟩

variable [TokenSource σ]

/-- What the grammar asks a state for is the same on both sides. -/
theorem get_bind {f : Parser σ → Parse σ α} {g : Parser σ → Parse σ β} (h : ∀ p, Concur A (f p) (g p))
    (hg : ∀ p q, SameView p q → g p = g q) : Concur A (get >>= f) (get >>= g) := by
  intro p q hpq
  rw [bind_of_ok (get_apply p), bind_of_ok (get_apply q), ← hg p q hpq.sameView]
  exact h p hpq

protected theorem peek : Concur (σ := σ) Eq peek peek := .onTokens _

protected theorem advance : Concur (σ := σ) Eq advance advance := by
  refine .bind_same (.onTokens _) fun found => ?_
  cases found with
  | none => exact .pure rfl
  | some t =>
    rintro p _ ⟨d, rfl⟩
    exact .ok rfl ⟨d, rfl⟩

protected theorem fail (cause : GrammarCause) (found : Option Token) :
    Concur (σ := σ) A (fail cause found) (fail cause found) := by
  refine get_bind (fun p _ _ hpq => .failed hpq) fun p q hpq => ?_
  rw [hpq.location]

protected theorem reject (cause : GrammarCause) : Concur (σ := σ) A (reject cause) (reject cause) :=
  .bind_same .peek fun _ => .fail _ _

end Concur

variable [TokenSource σ]

/-- Forms that give no trees concur with themselves. -/
theorem concur_hereditary : Hereditary fun ⦃α⦄ (x y : Parse σ α) => Concur Eq x y where
  pure _ := .pure rfl
  bind := .bind_same
  ask h := fun p q hpq => h p q hpq.sameView hpq
  peek := .peek
  advance := .advance
  note _ := .onTokens _
  reject _ := .reject _
  variableName := by
    refine .bind_same .advance fun found => ?_
    cases found with
    | none => exact .fail _ _
    | some t => exact .ite (.pure rfl) (.fail _ _)
  misuse _ := fun _ _ hpq => .failed hpq

/-! ## Nesting -/

/-- Looking at the next token takes no notice of the depth. -/
theorem peek_atDepth (p : Parser σ) (depth : Nat) :
    peek { p with depth } = match peek p with
      | .ok found q => .ok found { q with depth }
      | .error e q => .error e { q with depth } := by
  unfold peek onTokens
  cases Lookahead.peek p.tokens with
  | ok found ts => rfl
  | error e ts => rfl

/-- Nothing follows a failure. -/
theorem reject_bind (cause : GrammarCause) (f : α → Parse σ β) :
    (reject cause >>= f) = (reject cause : Parse σ β) := by
  funext p
  rw [bind_apply, reject_apply, reject_apply]
  cases peek p <;> rfl

theorem exhausted_bind (o : ParseOptions) (f : α → Parse σ β) :
    (exhausted o >>= f) = (exhausted o : Parse σ β) := by
  rw [exhausted_eq, exhausted_eq, reject_bind]

/-- Leaves the level without a step. -/
def rise : Parse σ Unit := modify ascend

omit [TokenSource σ] in
theorem rise_bind (x : Parse σ α) (p : Parser σ) : (rise >>= fun _ => x) p = x p.ascend := rfl

namespace Concur

variable {A : α → β → Prop} {x : Parse σ α} {y : Parse σ β} {o o' : ParseOptions}

theorem peek_error {p q p' : Parser σ} {e : Failure} (hpq : Beside p q) (h : Parser.peek p = .error e p') :
    ∃ q', Parser.peek q = .error e q' ∧ Beside p' q' := by
  obtain ⟨d, rfl⟩ := hpq
  exact ⟨_, by rw [peek_atDepth, h], d, rfl⟩

/-- Nesting is too deep for what looks at the next token: if it can be scanned that is why the left fails,
and otherwise both fail alike. -/
theorem reject_left (hy : Peeks y) (limit : Int) : Concur A (reject (.tooDeep limit) : Parse σ α) y := by
  intro p q hpq
  rw [reject_apply]
  cases hp : Parser.peek p with
  | ok found p' => exact .deepLeft (Failure.isTooDeep_grammar _ _ _)
  | error e p' =>
    obtain ⟨q', hq, hpq'⟩ := peek_error hpq hp
    rw [hy hq]
    exact .failed hpq'

theorem exhausted_left (hy : Peeks y) : Concur A (exhausted o : Parse σ α) y := by
  rw [exhausted_eq]
  exact reject_left hy _

theorem exhausted_right (hx : Peeks x) : Concur A x (exhausted o : Parse σ β) :=
  (exhausted_left (A := flip A) hx).symm

/-- What follows nesting on the left follows the step. -/
theorem nested_bind_left {x : Parse σ γ} {f : γ → Parse σ α}
    (h : Concur A (x >>= fun a => rise >>= fun _ => f a) y) (hy : Peeks y) :
    Concur A (nested o x >>= f) y := by
  intro p q hpq
  by_cases hlimit : o.maxDepth < (p.depth : Int) + 1
  · have hfails : (nested o x >>= f) p = (reject (.tooDeep o.maxDepth) >>= f) p := by
      rw [bind_apply, nested_of_lt hlimit, ← bind_apply]
    rw [hfails, reject_bind]
    exact reject_left hy _ hpq
  · have hout := h ((Beside.deeper p).trans hpq)
    rw [bind_apply] at hout
    rw [bind_apply, nested_of_le (by omega)]
    cases hx : x p.deeper with
    | ok a p' => rw [hx] at hout; exact hout
    | error e p' => rw [hx] at hout; exact hout.error_left (.ascend p')

theorem nested_bind_right {y : Parse σ γ} {g : γ → Parse σ β}
    (h : Concur A x (y >>= fun b => rise >>= fun _ => g b)) (hx : Peeks x) :
    Concur A x (nested o y >>= g) :=
  (nested_bind_left h.symm hx).symm

/-- Nesting on both sides, whatever follows. -/
theorem nested_bind {δ : Type} {x : Parse σ γ} {y : Parse σ δ} {f : γ → Parse σ α} {g : δ → Parse σ β}
    (h : Concur A (x >>= fun a => rise >>= fun _ => f a) (y >>= fun b => rise >>= fun _ => g b))
    (hx : Peeks x) (hy : Peeks y) : Concur A (nested o x >>= f) (nested o' y >>= g) :=
  nested_bind_left (nested_bind_right h (hx.bind _)) (hy.nested.bind _)

omit [TokenSource σ] in
/-- Leaving a level at the end makes no difference. -/
theorem rise_end (h : Concur A x y) : Concur A (x >>= fun a => rise >>= fun _ => pure a) y := by
  intro p q hpq
  have hout := h hpq
  rw [bind_apply]
  generalize x p = r at hout
  cases r with
  | ok a p' => exact hout.ok_left (.ascend p')
  | error e p' => exact hout

theorem nested_left (h : Concur A x y) (hy : Peeks y) : Concur A (nested o x) y := by
  rw [← bind_pure (nested o x)]
  exact nested_bind_left h.rise_end hy

theorem nested_right (h : Concur A x y) (hx : Peeks x) : Concur A x (nested o y) :=
  (nested_left h.symm hx).symm

protected theorem nested (h : Concur A x y) (hx : Peeks x) (hy : Peeks y) :
    Concur A (nested o x) (nested o' y) :=
  nested_left (nested_right h hx) hy.nested

/-! ## Sequences -/

theorem items (ho : o'.trailingSeparators = o.trailingSeparators) (h : Concur A x y)
    (stop separator : String) (n : Nat) (first : Bool) :
    Concur (List.Forall₂ A) (items o stop separator x n first) (items o' stop separator y n first) := by
  have hR := concur_hereditary (σ := σ)
  induction n generalizing first with
  | zero => exact .pure .nil
  | succ n ih =>
    unfold Parser.items
    refine .bind_same hR.atEnd fun _ => .ite (.pure .nil) ?_
    refine .bind_same (hR.isAt _ _) fun _ => .ite (.pure .nil) ?_
    refine .bind_same (hR.anotherItem ho _ _ _) fun _ => .ite ?_ (.pure .nil)
    exact h.bind fun a b hab => (ih false).bind fun as bs hall => .pure (.cons hab hall)

theorem delimited (ho : o'.trailingSeparators = o.trailingSeparators) (h : Concur A x y)
    (start stop separator : String) :
    Concur (List.Forall₂ A) (delimited o start stop separator x) (delimited o' start stop separator y) := by
  have hR := concur_hereditary (σ := σ)
  refine .bind_same (hR.skip _ _) fun _ => .get_bind (fun p => ?_) fun p q hpq => by rw [hpq.bound]
  refine (items ho h _ _ _ _).bind fun as bs hall => ?_
  exact .bind_same (hR.skip _ _) fun _ => .pure hall

/-! ## Atoms -/

open Node

theorem spanOf {a b : Node} (h : Akin a b) : Concur (σ := σ) Eq (spanOf a) (spanOf b) := by
  have hspan : (Parser.spanOf b : Parse σ Span) = Parser.spanOf a := by
    rw [Parser.spanOf, Parser.spanOf, h.span_eq]
  rw [hspan]
  exact concur_hereditary.spanOf a

theorem boolean : Concur (σ := σ) Akin boolean boolean := by
  refine .bind_same .advance fun found => ?_
  cases found with
  | none => exact fun _ _ hpq => .failed hpq
  | some t => exact .bind_same (concur_hereditary.spanFrom _) fun _ => .pure (.refl rfl)

omit [TokenSource σ] in
theorem leafNode (t : Token) (s : Span) : Concur (σ := σ) Akin (leafNode t s) (leafNode t s) := by
  unfold Parser.leafNode
  cases t.kind with
  | number =>
    cases t.number? with
    | none => exact fun _ _ hpq => .failed hpq
    | some v => exact .pure (.refl rfl)
  | identifier | string | punctuation | keyword | operator => exact .pure (.refl rfl)

theorem leaf : Concur (σ := σ) Akin leaf leaf := by
  refine .bind_same .peek fun found => ?_
  cases found with
  | none => exact .reject _
  | some t =>
    refine .ite (.reject _) ?_
    exact .bind_same .advance fun _ => .bind_same (concur_hereditary.spanFrom _) fun s => leafNode t s

section Forms

variable {x y : Parse σ Node} (ho : o'.trailingSeparators = o.trailingSeparators) (h : Concur Akin x y)

include h

theorem groupWith : Concur Akin (groupWith x) (groupWith y) := by
  refine .bind_same .advance fun _ => h.bind fun a b hab => ?_
  exact .bind_same (concur_hereditary.skip _ _) fun _ => .pure hab

theorem conditionalWith : Concur Akin (conditionalWith x) (conditionalWith y) := by
  have hR := concur_hereditary (σ := σ)
  refine .bind_same hR.startLocation fun start => .bind_same (hR.skip _ _) fun _ => ?_
  refine h.bind fun c c' hc => .bind_same hR.skipThen fun _ => h.bind fun p p' hp => ?_
  refine .bind_same (hR.isAt _ _) fun _ => .ite ?_ ?_
  · refine .bind_same .advance fun _ => h.bind fun q q' hq => ?_
    exact .bind_same (hR.spanFrom _) fun _ => .pure (.ifElse hc hp hq)
  · exact .bind_same (hR.spanFrom _) fun _ => .pure (.ifThen hc hp)

include ho

theorem callWith {f f' : Node} (hf : Akin f f') : Concur Akin (callWith o x f) (callWith o' y f') := by
  refine (delimited ho h _ _ _).bind fun as bs hargs => .bind_same (spanOf hf) fun _ => ?_
  exact .bind_same (concur_hereditary.spanFrom _) fun _ => .pure (.call hf hargs)

theorem maybeCallWith {f f' : Node} (hf : Akin f f') :
    Concur Akin (maybeCallWith o x f) (maybeCallWith o' y f') :=
  .bind_same (concur_hereditary.isAt _ _) fun _ => .ite (callWith ho h hf) (.pure hf)

theorem functionWith : Concur Akin (functionWith o x) (functionWith o' y) := by
  have hR := concur_hereditary (σ := σ)
  refine .bind_same hR.startLocation fun start => .bind_same (hR.skip _ _) fun _ => ?_
  refine .bind_same (hR.delimited ho hR.variableName _ _ _) fun params => h.bind fun p p' hp => ?_
  exact .bind_same (hR.spanFrom _) fun _ => .pure (.lambda params hp)

theorem blockWith : Concur Akin (blockWith o x) (blockWith o' y) := by
  have hR := concur_hereditary (σ := σ)
  refine .bind_same hR.startLocation fun start => (delimited ho h _ _ _).bind fun as bs hall => ?_
  refine .bind_same (hR.spanFrom _) fun s => ?_
  cases hall with
  | nil => exact .pure (.refl rfl)
  | cons hn hns =>
    cases hns with
    | nil => exact .pure hn
    | cons hm hms => exact .pure (.program (.cons hn (.cons hm hms)))

theorem primaryWith : Concur Akin (primaryWith o x) (primaryWith o' y) := by
  have hR := concur_hereditary (σ := σ)
  refine .bind_same (hR.isAt _ _) fun _ => .ite (groupWith h) ?_
  refine .bind_same (hR.isAt _ _) fun _ => .ite (blockWith ho h) ?_
  refine .bind_same (hR.isAt _ _) fun _ => .ite (conditionalWith h) ?_
  refine .bind_same (hR.isAt _ _) fun _ => .ite boolean ?_
  refine .bind_same (hR.isAt _ _) fun _ => .ite boolean ?_
  exact .bind_same (hR.isAt _ _) fun _ => .ite (functionWith ho h) leaf

theorem atomWith : Concur Akin (atomWith o x) (atomWith o' y) :=
  (primaryWith ho h).bind fun _ _ hf => maybeCallWith ho h hf

end Forms

end Concur

end Parser
end LambdaReader
