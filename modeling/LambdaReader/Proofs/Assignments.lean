import LambdaReader.Proofs.Concur
import LambdaReader.Proofs.Headway
import LambdaReader.Proofs.Climbing

/-!
# `Proofs.Assignments` — assignments that group to either side

An assignment that groups to the left is folded as soon as its right operand is read; one that groups to the
right waits until the rest of the chain is. So at the same token the two sides are at different depths and
hold different trees. What they hold fits together: if the right made of its trees what awaits them, it would
be the tree on the left, but for the grouping of assignments. `Alongside` says that of a chain where no
operator follows that binds tighter than an assignment; all others are folded alike on both sides.

## Main results
- `Alongside.step` and `alongside`: chains, operands and expressions with any number of levels left;
- `Source.parse_grouping`: what the option changes, given room for the tokens that are scanned.
-/

namespace LambdaReader

/-- The options with assignments that group to the right or to the left. -/
def ParseOptions.grouping (o : ParseOptions) (right : Bool) : ParseOptions :=
  { o with rightAssignment := right }

namespace Parser

open Step Node

variable {σ α β γ : Type} [TokenSource σ]

/-! ## Folds -/

/-- Folds an operator that was taken onto `left`, and then those that follow it. -/
def foldAt (o : ParseOptions) (symbol : String) (left : Node) (bound : Int) : Nat → Parse σ Node
  | 0 => exhausted o
  | n + 1 => nested o do
    let right ← operandAt o n (rightBound o symbol)
    let whole ← join symbol left right
    operatorsAt o n whole bound

theorem operatorsAt_eq (o : ParseOptions) (n : Nat) (left : Node) (bound : Int) :
    (operatorsAt o n left bound : Parse σ Node) = tighterThan bound >>= fun found =>
      match found with
      | none => pure left
      | some symbol => advance >>= fun _ => foldAt o symbol left bound n := by
  cases n with
  | zero => rfl
  | succ n => rfl

theorem Peeks.foldAt (o : ParseOptions) (symbol : String) (left : Node) (bound : Int) (n : Nat) :
    Peeks (foldAt (σ := σ) o symbol left bound n) := by
  cases n with
  | zero => exact .exhausted o
  | succ n => exact .nested ((Peeks.operandAt o n _).bind _)

theorem Peeks.operatorsAt (o : ParseOptions) (n : Nat) (left : Node) (bound : Int) :
    Peeks (operatorsAt (σ := σ) o n left bound) := by
  rw [operatorsAt_eq]
  exact (Peeks.bind .peek _).bind _

/-! ## The next token -/

variable [LawfulTokenSource σ] {o o' : ParseOptions} {n m : Nat} {p p' q : Parser σ} {c c' : Node}
  {b b' s : Int}

/-- To look again is to see the same. -/
theorem peek_again {found : Option Token} (h : peek p = .ok found p') : peek p' = .ok found p' := by
  obtain ⟨ts, hpeek, rfl⟩ := lookahead_peek h
  rw [peek, onTokens, Lookahead.peek_of_peek hpeek]

omit [LawfulTokenSource σ] in
theorem operatorsAt_of_tighter {t : Token} (h : peek p = .ok (some t) p') (ht : t.Tighter b) (n : Nat)
    (c : Node) (f : Node → Parse σ α) :
    (operatorsAt o n c b >>= f) p = (advance >>= fun _ => foldAt o t.text c b n >>= f) p' := by
  rw [operatorsAt_eq, tighterThan, bind_assoc, bind_assoc, bind_of_ok h]
  dsimp only
  rw [if_pos (show t.kind = .operator ∧ b < (Precedence.ofSymbol t.text).strength from ht), pure_bind,
    bind_assoc]

omit [LawfulTokenSource σ] in
theorem operatorsAt_of_not_tighter {found : Option Token} (h : peek p = .ok found p')
    (hrest : ∀ t, found = some t → ¬t.Tighter b) (n : Nat) (c : Node) : operatorsAt o n c b p = .ok c p' := by
  rw [operatorsAt_eq, tighterThan, bind_assoc, bind_of_ok h]
  cases found with
  | none => rfl
  | some t =>
    dsimp only
    have ht : ¬(t.kind = .operator ∧ b < (Precedence.ofSymbol t.text).strength) := hrest t rfl
    rw [if_neg ht, pure_bind]
    rfl

/-- Operators are read alike before and after the next token is looked at. -/
theorem operatorsAt_again {found : Option Token} (h : peek p = .ok found p') (n : Nat) (c : Node)
    (f : Node → Parse σ α) : (operatorsAt o n c b >>= f) p = (operatorsAt o n c b >>= f) p' := by
  rw [operatorsAt_eq, tighterThan, bind_assoc, bind_assoc, bind_of_ok h, bind_of_ok (peek_again h)]

/-- The next token was looked at, and it is no operator that binds tighter. -/
def AtRest (b : Int) (p : Parser σ) : Prop :=
  ∃ found, peek p = .ok found p ∧ ∀ t, found = some t → ¬t.Tighter b

omit [LawfulTokenSource σ] in
theorem AtRest.beside (h : AtRest b p) (hpq : Beside p q) : AtRest b q := by
  obtain ⟨found, hpeek, hrest⟩ := h
  obtain ⟨d, rfl⟩ := hpq
  exact ⟨found, by rw [peek_atDepth, hpeek], hrest⟩

omit [LawfulTokenSource σ] in
theorem AtRest.operatorsAt (h : AtRest b p) (n : Nat) (c : Node) : operatorsAt o n c b p = .ok c p := by
  obtain ⟨found, hpeek, hrest⟩ := h
  exact operatorsAt_of_not_tighter hpeek hrest n c

/-- Steps that concur where no operator follows that binds tighter. -/
def ConcurAtRest (b : Int) (x : Parse σ α) (y : Parse σ β) (A : α → β → Prop) : Prop :=
  ∀ ⦃p q⦄, Beside p q → AtRest b p → Concurs A (x p) (y q)

/-- Operators that bind tighter than both bounds are folded on both sides. The rest is left to say for
where none of them follows. -/
theorem Concur.chain {A : α → β → Prop} {f : Node → Parse σ α} {g : Node → Parse σ β} (hb : b ≤ s)
    (hb' : b' ≤ s) (hfold : ∀ t : Token, t.Tighter s →
      Concur A (foldAt o t.text c b n >>= f) (foldAt o' t.text c' b' m >>= g))
    (hrest : ConcurAtRest s (operatorsAt o n c b >>= f) (operatorsAt o' m c' b' >>= g) A) :
    Concur A (operatorsAt o n c b >>= f) (operatorsAt o' m c' b' >>= g) := by
  intro p q hpq
  cases hp : Parser.peek p with
  | error e p' =>
    obtain ⟨q', hq, hpq'⟩ := peek_error hpq hp
    rw [(Peeks.operatorsAt o n c b).bind f hp, (Peeks.operatorsAt o' m c' b').bind g hq]
    exact .failed hpq'
  | ok found p' =>
    obtain ⟨d, rfl⟩ := hpq
    have hq : Parser.peek { p with depth := d } = .ok found { p' with depth := d } := by
      rw [peek_atDepth, hp]
    have hpq' : Beside p' { p' with depth := d } := ⟨d, rfl⟩
    by_cases ht : ∃ t, found = some t ∧ t.Tighter s
    · obtain ⟨t, rfl, ht⟩ := ht
      rw [operatorsAt_of_tighter hp ⟨ht.1, Int.lt_of_le_of_lt hb ht.2⟩,
        operatorsAt_of_tighter hq ⟨ht.1, Int.lt_of_le_of_lt hb' ht.2⟩]
      exact Concur.bind_same .advance (fun _ => hfold t ht) hpq'
    · have hstop : AtRest s p' := ⟨found, peek_again hp, fun t hfound htight => ht ⟨t, hfound, htight⟩⟩
      rw [operatorsAt_again hp, operatorsAt_again hq]
      exact hrest hpq' hstop

/-! ## Assignments -/

/-- The right operand of any operator but an assignment is bounded alike. -/
theorem rightBound_eq {t : Token} (hs : 1 ≤ s) (ht : t.Tighter s) (right : Bool) :
    rightBound (o.grouping right) t.text = (Precedence.ofSymbol t.text).strength := by
  refine if_neg fun hassign => ?_
  have hlt := ht.2
  rw [hassign.1] at hlt
  exact absurd (Int.lt_of_le_of_lt hs hlt) (by decide)

/-- Only assignments are as weak as assignments. -/
theorem text_eq_assign {t : Token} (ht : t.Tighter 0) (hrest : ¬t.Tighter 1) : t.text = assignSymbol := by
  have hpos := ht.2
  have hle : ¬1 < (Precedence.ofSymbol t.text).strength := fun hlt => hrest ⟨ht.1, hlt⟩
  exact Precedence.eq_assignSymbol_of_strength (by omega)

/-- What the operands `ls`, the innermost first, make of an expression that is assigned to them. -/
def onto (ls : List Node) (a : Node) : Node := ls.foldl (fun a l => .joined assignSymbol l a) a

/-- On the right an assignment waits for the rest of the chain, and here the step makes what becomes of
that: where no operator follows, it assigns it to the operands that wait. -/
def Awaits (ls : List Node) (g : Node → Parse σ Node) : Prop :=
  ∀ ⦃a q⦄, a.span.isSome = true → AtRest 0 q → ∃ q', g a q = .ok (onto ls a) q' ∧ Beside q q'

section Onto

variable {ls : List Node} {d d' e e' : Node}

theorem akin_onto (h : Akin d d') (hls : ∀ l ∈ ls, l.span.isSome = true) : Akin (onto ls d) (onto ls d') := by
  induction ls generalizing d d' with
  | nil => exact h
  | cons l ls ih =>
    obtain ⟨hl, hls⟩ := List.forall_mem_cons.mp hls
    exact ih (.joined _ (.refl hl) h) hls

/-- To assign the rest to an expression before it is assigned is to assign to what is made of it. -/
theorem akin_onto_assign (hd : d.span.isSome = true) (he : e.span.isSome = true)
    (hls : ∀ l ∈ ls, l.span.isSome = true) :
    Akin (.joined assignSymbol (onto ls d) e) (onto ls (.joined assignSymbol d e)) := by
  induction ls generalizing d with
  | nil => exact .refl (span_joined _ hd he)
  | cons l ls ih =>
    obtain ⟨hl, hls⟩ := List.forall_mem_cons.mp hls
    have hmoved := ih (span_joined assignSymbol hl hd) hls
    exact hmoved.trans (akin_onto (.assign_assoc hl hd he) hls)

end Onto

/-! ## Chains -/

/-- With assignments that group to the left on the left side and, with `m` levels left, to the right on the
right side: expressions and right operands of other operators are akin, and so are the assignments of a
chain whose operators that bind tighter are folded. -/
structure Alongside (σ : Type) [TokenSource σ] (o : ParseOptions) (m : Nat) : Prop where
  expression (n : Nat) :
    Concur (σ := σ) Akin (expressionAt (o.grouping false) n) (expressionAt (o.grouping true) m)
  operand (n : Nat) {bound : Int} : 1 ≤ bound →
    Concur (σ := σ) Akin (operandAt (o.grouping false) n bound) (operandAt (o.grouping true) m bound)
  assignments (n : Nat) {ls : List Node} {w d : Node} {g : Node → Parse σ Node} :
    (∀ l ∈ ls, l.span.isSome = true) → Awaits ls g → d.span.isSome = true → Akin w (onto ls d) →
    ConcurAtRest 1 (operatorsAt (o.grouping false) n w 0) (operatorsAt (o.grouping true) m d 0 >>= g) Akin

omit [LawfulTokenSource σ] in
theorem Alongside.atom (h : Alongside σ o m) (n : Nat) :
    Concur Akin (atomWith (o.grouping false) (expressionAt (σ := σ) (o.grouping false) n))
      (atomWith (o.grouping true) (expressionAt (o.grouping true) m)) :=
  .atomWith rfl (h.expression n)

omit [LawfulTokenSource σ] in
/-- An operator that binds tighter than `s` is folded alike, and so is the chain if what follows it is. -/
theorem Concur.fold {t : Token} {f g : Node → Parse σ Node} (h : ∀ k < m, Alongside σ o k) (hs : 1 ≤ s)
    (ht : t.Tighter s) (hc : Akin c c')
    (hrest : ∀ n, ∀ k < m, ∀ r r', Akin r r' →
      Concur Akin (operatorsAt (o.grouping false) n (.joined t.text c r) b >>= fun a => rise >>= fun _ => f a)
        (operatorsAt (o.grouping true) k (.joined t.text c' r') b' >>= fun a => rise >>= fun _ => g a)) :
    Concur Akin (foldAt (o.grouping false) t.text c b n >>= f)
      (foldAt (o.grouping true) t.text c' b' m >>= g) := by
  match n, m with
  | 0, m =>
    rw [foldAt.eq_1, exhausted_bind]
    exact exhausted_left ((Peeks.foldAt _ _ _ _ m).bind g)
  | n + 1, 0 =>
    rw [foldAt.eq_1 (o.grouping true), exhausted_bind]
    exact exhausted_right ((Peeks.foldAt _ _ _ _ (n + 1)).bind f)
  | n + 1, m + 1 =>
    have hbound := rightBound_eq (o := o) hs ht
    have hle : 1 ≤ (Precedence.ofSymbol t.text).strength := Int.le_of_lt (Int.lt_of_le_of_lt hs ht.2)
    refine nested_bind ?_ ((Peeks.operandAt _ _ _).bind _) ((Peeks.operandAt _ _ _).bind _)
    rw [hbound, hbound, bind_assoc, bind_assoc]
    refine ((h m (Nat.lt_succ_self m)).operand n hle).bind fun r r' hr => ?_
    rw [join_eq hc.spanned hr.spanned, join_eq hc.spanned_right hr.spanned_right, pure_bind, pure_bind]
    exact hrest n m (Nat.lt_succ_self m) r r' hr

/-- The operators that bind tighter than `s` are folded alike, and the rest by assumption. -/
theorem Concur.chain_alike (hs : 1 ≤ s) (hb : b ≤ s) (h : ∀ k < m, Alongside σ o k)
    (hrest : ∀ k ≤ m, ∀ n d d', Akin d d' → ConcurAtRest (σ := σ) s (operatorsAt (o.grouping false) n d b)
      (operatorsAt (o.grouping true) k d' b) Akin) (hc : Akin c c') :
    Concur (σ := σ) Akin (operatorsAt (o.grouping false) n c b) (operatorsAt (o.grouping true) m c' b) := by
  induction m using Nat.strongRecOn generalizing n c c' with
  | ind m ih =>
    rw [← bind_pure (operatorsAt _ n c b), ← bind_pure (operatorsAt _ m c' b)]
    refine .chain hb hb (fun t ht => .fold h hs ht hc fun n k hk r r' hr => ?_) ?_
    · have hchain := ih k hk (n := n) (fun j hj => h j (by omega)) (fun j hj => hrest j (by omega))
        (hc.joined t.text hr)
      exact hchain.rise_end.symm.rise_end.symm
    · rw [bind_pure, bind_pure]
      exact hrest m (Nat.le_refl m) n c c' hc

omit [LawfulTokenSource σ] in
/-- Leaving a level before the step makes no difference to what awaits the rest. -/
theorem Awaits.rise {ls : List Node} {g : Node → Parse σ Node} (h : Awaits ls g) :
    Awaits ls fun a => Parser.rise >>= fun _ => g a := by
  intro a q ha hq
  obtain ⟨q', hrun, hqq'⟩ := h ha (hq.beside (.ascend q))
  exact ⟨q', hrun, (Beside.ascend q).trans hqq'⟩

/-- The right operand of an assignment up to the next assignment. On the left it is read alone, on the right
with all assignments after it, and the steps `f` and `g` go on from there. -/
theorem Concur.chain_awaiting (ls : List Node) {f g : Node → Parse σ Node} (h : ∀ k < m, Alongside σ o k)
    (hf : ∀ d d' g', Akin d d' → Awaits ls g' → ∀ k ≤ m,
      ConcurAtRest 1 (f d) (operatorsAt (o.grouping true) k d' 0 >>= g') Akin)
    (hg : Awaits ls g) (hc : Akin c c') :
    Concur Akin (operatorsAt (o.grouping false) n c 1 >>= f)
      (operatorsAt (o.grouping true) m c' 0 >>= g) := by
  induction m using Nat.strongRecOn generalizing n c c' f g with
  | ind m ih =>
    refine .chain (Int.le_refl 1) (by decide)
      (fun t ht => .fold h (Int.le_refl 1) ht hc fun n k hk r r' hr => ?_) fun p q hpq hp => ?_
    · refine ih k hk (fun j hj => h j (by omega)) (fun d d' g' hd hg' j hj p q hpq hp => ?_) hg.rise
        (hc.joined _ hr)
      have hpq' : Beside p.ascend q := (Beside.ascend p).symm.trans hpq
      exact hf d d' g' hd hg' j (by omega) hpq' (hp.beside (.ascend p))
    · rw [bind_of_ok (hp.operatorsAt n c)]
      exact hf c c' g hc hg m (Nat.le_refl m) hpq hp

/-- An assignment is folded at once on the left, and awaits the rest of the chain on the right. -/
theorem Concur.fold_assignment {ls : List Node} {w d : Node} {g : Node → Parse σ Node}
    (h : ∀ k < m, Alongside σ o k) (hls : ∀ l ∈ ls, l.span.isSome = true) (hg : Awaits ls g)
    (hd : d.span.isSome = true) (hw : Akin w (onto ls d)) :
    Concur Akin (foldAt (o.grouping false) assignSymbol w 0 n)
      (foldAt (o.grouping true) assignSymbol d 0 m >>= g) := by
  match n, m with
  | 0, m => exact exhausted_left ((Peeks.foldAt _ _ _ _ m).bind g)
  | n + 1, 0 =>
    rw [foldAt.eq_1, exhausted_bind]
    exact exhausted_right (.foldAt _ _ _ _ _)
  | n + 1, m + 1 =>
    refine nested_left ?_ ((Peeks.foldAt _ _ _ _ (m + 1)).bind g)
    refine nested_bind_right ?_ ((Peeks.operandAt _ n _).bind _)
    rw [bind_assoc]
    match n, m with
    | 0, m =>
      rw [operandAt.eq_1, exhausted_bind]
      exact exhausted_left ((Peeks.operandAt _ m _).bind _)
    | n + 1, 0 =>
      rw [operandAt.eq_1 (o.grouping true), exhausted_bind]
      exact exhausted_right ((Peeks.operandAt _ (n + 1) _).bind _)
    | n + 1, m + 1 =>
      refine nested_bind ?_ ((Peeks.atomWith _ _).bind _) ((Peeks.atomWith _ _).bind _)
      rw [bind_assoc, bind_assoc]
      refine ((h m (by omega)).atom n).bind fun c c' hc => ?_
      refine chain_awaiting (d :: ls) (fun k hk => h k (by omega)) ?_ ?_ hc
      · -- What was folded on the left is what the right makes of the operand.
        intro r r' g' hr hg' k hk p q hpq hp
        have hwhole : Akin (.joined assignSymbol w r) (onto (d :: ls) r') :=
          (hw.joined _ hr).trans (akin_onto_assign hd hr.spanned_right hls)
        have hpq' : Beside p.ascend q := (Beside.ascend p).symm.trans hpq
        rw [join_eq hw.spanned hr.spanned, pure_bind]
        exact (h k (by omega)).assignments (n + 1) (List.forall_mem_cons.mpr ⟨hd, hls⟩) hg' hr.spanned_right
          hwhole hpq' (hp.beside (.ascend p))
      · -- Behind the last assignment the operands are joined one after the other.
        intro a q ha hq
        have hq' : AtRest 0 q.ascend := hq.beside (.ascend q)
        obtain ⟨q₁, hrun, hq₁⟩ := hg (span_joined assignSymbol hd ha) (hq'.beside (.ascend q.ascend))
        refine ⟨q₁, ?_, ((Beside.ascend q).trans (.ascend q.ascend)).trans hq₁⟩
        dsimp only
        rw [rise_bind, join_eq hd ha, pure_bind, bind_of_ok (hq'.operatorsAt _ _), rise_bind]
        exact hrun

/-- An expression or an operand with one level more. -/
theorem Alongside.step (h : ∀ k < m, Alongside σ o k) : Alongside σ o m where
  expression n := by
    match n, m with
    | 0, m => exact Concur.exhausted_left (.expressionAt _ m)
    | n + 1, 0 => exact Concur.exhausted_right (.expressionAt _ (n + 1))
    | n + 1, m + 1 =>
      have hm := h m (Nat.lt_succ_self m)
      refine .nested ?_ ((Peeks.atomWith _ _).bind _) ((Peeks.atomWith _ _).bind _)
      refine (hm.atom n).bind fun c c' hc => ?_
      refine (Concur.chain_alike (Int.le_refl 1) (by decide) (fun k hk => h k (by omega)) ?_ hc).bind ?_
      · -- What follows the operators that bind tighter are assignments, and none awaits an operand yet.
        intro k hk n d d' hd
        have hnone : Awaits (σ := σ) [] pure := fun a q _ _ => ⟨q, rfl, .refl q⟩
        have hassign := (h k (by omega)).assignments n (List.forall_mem_nil _) hnone hd.spanned_right hd
        rw [bind_pure] at hassign
        exact hassign
      · intro d d' hd
        have ho : (o.grouping true).trailingSeparators = (o.grouping false).trailingSeparators := rfl
        exact .maybeCallWith ho (hm.expression n) hd
  operand n bound hbound := by
    match n, m with
    | 0, m => exact Concur.exhausted_left (.operandAt _ m _)
    | n + 1, 0 => exact Concur.exhausted_right (.operandAt _ (n + 1) _)
    | n + 1, m + 1 =>
      refine .nested ?_ ((Peeks.atomWith _ _).bind _) ((Peeks.atomWith _ _).bind _)
      refine ((h m (Nat.lt_succ_self m)).atom n).bind fun c c' hc => ?_
      refine Concur.chain_alike hbound (Int.le_refl bound) (fun k hk => h k (by omega)) ?_ hc
      intro k hk n d d' hd p q hpq hp
      rw [hp.operatorsAt n d, (hp.beside hpq).operatorsAt k d']
      exact .ok hd hpq
  assignments n ls w d g hls hg hd hw p q hpq hp := by
    by_cases hend : AtRest 0 p
    · obtain ⟨q', hrun, hqq'⟩ := hg hd (hend.beside hpq)
      rw [hend.operatorsAt n w, bind_of_ok ((hend.beside hpq).operatorsAt m d), hrun]
      exact .ok hw (hpq.trans hqq')
    · obtain ⟨found, hpeek, hrest⟩ := hp
      have ht : ∃ t, found = some t ∧ t.Tighter 0 := by
        by_contra hnone
        exact hend ⟨found, hpeek, fun t hfound htight => hnone ⟨t, hfound, htight⟩⟩
      obtain ⟨t, rfl, ht⟩ := ht
      obtain ⟨depth, rfl⟩ := hpq
      have hpeek' : peek { p with depth } = .ok (some t) { p with depth } := by rw [peek_atDepth, hpeek]
      rw [← bind_pure (operatorsAt _ n w 0), operatorsAt_of_tighter hpeek ht,
        operatorsAt_of_tighter hpeek' ht, text_eq_assign ht (hrest t rfl)]
      refine Concur.bind_same .advance (fun _ => ?_) ⟨depth, rfl⟩
      rw [bind_pure]
      exact .fold_assignment h hls hg hd hw

/-- Every expression is akin whatever the number of levels left on either side. -/
theorem alongside (σ : Type) [TokenSource σ] [LawfulTokenSource σ] (o : ParseOptions) (m : Nat) :
    Alongside σ o m := by
  induction m using Nat.strongRecOn with
  | ind m ih => exact .step ih

/-! ## Programs -/

theorem Concur.expression (o : ParseOptions) :
    Concur (σ := σ) Akin (expression (o.grouping false)) (expression (o.grouping true)) :=
  fun p q hpq => (alongside σ o (q.levels _)).expression (p.levels _) hpq

theorem Concur.statements (o : ParseOptions) (n : Nat) :
    Concur (σ := σ) (List.Forall₂ Akin) (statements (o.grouping false) n)
      (statements (o.grouping true) n) := by
  have hR := concur_hereditary (σ := σ)
  induction n with
  | zero => exact .pure .nil
  | succ n ih =>
    unfold Parser.statements
    refine .bind_same hR.atEnd fun _ => .ite (.pure .nil) ?_
    refine (Concur.expression o).bind fun a b hab => ?_
    rw [hab.kind_eq]
    refine .bind_same (.onTokens _) fun _ => .bind_same hR.skipSeparator fun _ => ?_
    exact ih.bind fun as bs hall => .pure (.cons hab hall)

theorem Concur.program (o : ParseOptions) :
    Concur (σ := σ) Akin (program (o.grouping false)) (program (o.grouping true)) := by
  unfold Parser.program
  refine .get_bind (fun p => .get_bind (fun q => ?_) fun _ _ h => by rw [h.bound]) fun _ _ h => by
    rw [h.location]
  refine (Concur.statements o _).bind fun as bs hall => ?_
  rw [hall.length_eq]
  refine .bind_same (concur_hereditary.spanFrom _) fun s => ?_
  exact .bind_same (.onTokens _) fun _ => .pure (.program hall)

end Parser

namespace Source

/-- If nothing is nested too deeply, assignments are grouped alike up to the side: the tokens that are scanned
are the same, and so is the failure, or the trees are akin. -/
theorem read_grouping {s : Source} {o : ParseOptions}
    (h : ∀ right e, s.parse (o.grouping right) = .error e → ¬e.IsTooDeep) :
    (s.read (o.grouping false)).journal = (s.read (o.grouping true)).journal ∧
    ((∃ e, s.parse (o.grouping false) = .error e ∧ s.parse (o.grouping true) = .error e) ∨
      ∃ n m, s.parse (o.grouping false) = .ok n ∧ s.parse (o.grouping true) = .ok m ∧ Node.Akin n m) := by
  have hout := Parser.Concur.program (σ := Scanner) o (.refl (Parser.ofSource s.scanner))
  have hleft := h false
  have hright := h true
  unfold Source.parse Source.read TokenSource.read at hleft hright ⊢
  generalize Parser.program (o.grouping false) (Parser.ofSource s.scanner) = x,
    Parser.program (o.grouping true) (Parser.ofSource s.scanner) = y at hout hleft hright
  cases hout with
  | ok hakin hpq => exact ⟨congrArg (·.journal.toList) hpq.tokens_eq, .inr ⟨_, _, rfl, rfl, hakin⟩⟩
  | failed hpq => exact ⟨congrArg (·.journal.toList) hpq.tokens_eq, .inl ⟨_, rfl, rfl⟩⟩
  | deepLeft he => exact absurd he (hleft _ rfl)
  | deepRight he => exact absurd he (hright _ rfl)

/-- Grouping assignments to the right changes how assignments are grouped and nothing else, with a limit of
twice the tokens that are scanned and one: there is the same failure, or the trees are equal when all
assignments are grouped to the right. The tokens that are scanned are the same. -/
theorem parse_grouping {s : Source} {o : ParseOptions} {right : Bool}
    (h : 2 * ((s.read (o.grouping right)).scanned.length : Int) + 1 ≤ o.maxDepth) :
    (s.read (o.grouping false)).scanned = (s.read (o.grouping true)).scanned ∧
    ((∃ e, s.parse (o.grouping false) = .error e ∧ s.parse (o.grouping true) = .error e) ∨
      ∃ n m, s.parse (o.grouping false) = .ok n ∧ s.parse (o.grouping true) = .ok m ∧
        (n.regroup == m.regroup) = true) := by
  -- With a limit that is high enough for all tokens both sides scan the same.
  obtain ⟨high, hle, hhigh⟩ := s.exists_limit o.maxDepth
  obtain ⟨hjournal, hresult⟩ := read_grouping (o := o.within high) fun side => hhigh _ rfl
  have hscanned (side : Bool) : (s.read ((o.within high).grouping side)).scanned =
      (s.read ((o.within high).grouping right)).scanned := by
    unfold Reading.scanned
    cases side <;> cases right <;> simp only [hjournal]
  -- That is as many as with the given limit, so it is high enough for both sides.
  have hgiven : s.read (o.grouping right) = s.read ((o.within high).grouping right) := by
    have hlimits := s.read_limits (o.grouping right) hle
    rw [show (o.grouping right).within o.maxDepth = o.grouping right from rfl,
      show (o.grouping right).within high = (o.within high).grouping right from rfl] at hlimits
    rcases hlimits with ⟨e, he, hdeep⟩ | heq
    · have hlimit := Source.le_scanned_of_tooDeep he hdeep
      rw [show (o.grouping right).maxDepth = o.maxDepth from rfl] at hlimit
      omega
    · exact heq
  have hsame (side : Bool) : s.read (o.grouping side) = s.read ((o.within high).grouping side) := by
    have hwithin := read_within_eq (s := s) (o := o.grouping side) hle
    rw [show (o.grouping side).within o.maxDepth = o.grouping side from rfl,
      show (o.grouping side).within high = (o.within high).grouping side from rfl, hscanned side,
      ← hgiven] at hwithin
    exact hwithin h
  unfold Source.parse at hresult ⊢
  rw [← hsame false, ← hsame true] at hresult
  refine ⟨?_, ?_⟩
  · rw [hsame false, hsame true, hscanned false, hscanned true]
  · rcases hresult with hfails | ⟨n, m, hn, hm, hakin⟩
    · exact .inl hfails
    · exact .inr ⟨n, m, hn, hm, (Source.isProgram_of_parse hn).regroup_beq hakin⟩

/-- Chains of assignments at the top and in an argument, the second one with parentheses. -/
theorem parse_grouping_chains :
    let s : Source := ⟨"a = b = c; f(x = (y = z) = w)", "x", false⟩
    2 * ((s.read (ParseOptions.grouping {} true)).scanned.length : Int) + 1 ≤ 128 ∧
    ∃ n m, s.parse (ParseOptions.grouping {} false) = .ok n ∧
      s.parse (ParseOptions.grouping {} true) = .ok m ∧ (n.regroup == m.regroup) = true := by
  intro s
  have hlimit : 2 * ((s.read (ParseOptions.grouping {} true)).scanned.length : Int) + 1 ≤ 128 := by
    decide +kernel
  have hok : (s.parse (ParseOptions.grouping {} false)).isOk = true := by decide +kernel
  refine ⟨hlimit, ?_⟩
  rcases (parse_grouping (o := {}) hlimit).2 with ⟨e, he, _⟩ | htrees
  · rw [he] at hok
    cases hok
  · exact htrees

end Source
end LambdaReader
