import LambdaReader.Proofs.Equality

/-!
# `Proofs.Regroup` — trees up to the grouping of their assignments

Assignments that are operands of one another make up a group, a binary tree over its operands. `regroup`
lists the operands of every such group and groups them to the right. Trees are akin if they are so grouped
alike and stand at one place; then one may take the part of the other in any tree, and three operands may
be grouped either way.

## Main results
- `Akin.assign_assoc`: assignments may be grouped either way;
- `Akin.joined`, `Akin.called`, …: trees of akin parts are akin;
- `IsProgram.regroup_beq`: akin programs are equal when their assignments are grouped to the right.
-/

namespace LambdaReader
namespace Node

/-- The operands assigned to one another, grouped to the right. -/
def assignments : List Node → Node
  | [] => default
  | [n] => n
  | n :: ns => .assign n (assignments ns) none

mutual

/-- The operands of the group of assignments at the root from left to right, or else the root alone, with
the groups below them grouped to the right. -/
def operands : Node → List Node
  | assign l r _ => operands l ++ operands r
  | binary x l r s => [binary x (assignments (operands l)) (assignments (operands r)) s]
  | ifThen c p s => [ifThen (assignments (operands c)) (assignments (operands p)) s]
  | ifElse c p n s =>
    [ifElse (assignments (operands c)) (assignments (operands p)) (assignments (operands n)) s]
  | lambda ps b s => [lambda ps (assignments (operands b)) s]
  | call f args s => [call (assignments (operands f)) (regroupAll args) s]
  | program body s => [program (regroupAll body) s]
  | number v s => [number v s]
  | string v s => [string v s]
  | bool v s => [bool v s]
  | reference x s => [reference x s]
  | operator x s => [operator x s]

/-- Several trees with all groups of assignments grouped to the right. -/
def regroupAll : List Node → List Node
  | [] => []
  | n :: ns => assignments (operands n) :: regroupAll ns

end

/-- The tree with all groups of assignments grouped to the right. -/
def regroup (n : Node) : Node := assignments n.operands

theorem regroupAll_eq_map (ns : List Node) : regroupAll ns = ns.map regroup := by
  induction ns with
  | nil => rfl
  | cons n ns ih => rw [regroupAll, ih, List.map_cons, regroup]

/-! ## Without spans -/

theorem bare_assignments : ∀ ns : List Node, (assignments ns).bare = assignments (bareAll ns)
  | [] | [_] => rfl
  | n :: m :: ms => congrArg (Node.assign n.bare · none) (bare_assignments (m :: ms))

/-- The operands decide on the regrouped tree. -/
theorem bare_regroup {n m : Node} (h : bareAll n.operands = bareAll m.operands) :
    n.regroup.bare = m.regroup.bare := by
  rw [regroup, regroup, bare_assignments, bare_assignments, h]

/-! ## Trees that are akin -/

/-- The trees stand at one place and are the same but for spans inside them and for the grouping of
assignments. -/
structure Akin (n m : Node) : Prop where
  span_eq : n.span = m.span
  spanned : n.span.isSome = true
  kind_eq : n.kind = m.kind
  operands_eq : bareAll n.operands = bareAll m.operands

namespace Akin

variable {n m k a b c l r l' r' : Node}

protected theorem refl (h : n.span.isSome = true) : Akin n n := ⟨rfl, h, rfl, rfl⟩

protected theorem trans (h : Akin n m) (h' : Akin m k) : Akin n k where
  span_eq := h.span_eq.trans h'.span_eq
  spanned := h.spanned
  kind_eq := h.kind_eq.trans h'.kind_eq
  operands_eq := h.operands_eq.trans h'.operands_eq

theorem spanned_right (h : Akin n m) : m.span.isSome = true := h.span_eq ▸ h.spanned

theorem regroup (h : Akin n m) : n.regroup.bare = m.regroup.bare := bare_regroup h.operands_eq

theorem regroupAll {ns ms : List Node} (h : List.Forall₂ Akin ns ms) :
    bareAll (regroupAll ns) = bareAll (regroupAll ms) := by
  induction h with
  | nil => rfl
  | cons hn _ ih => exact congrArg₂ List.cons hn.regroup ih

/-! ### Assignments -/

theorem bareAll_operands_assign (l r : Node) (s : Option Span) :
    bareAll (assign l r s).operands = bareAll l.operands ++ bareAll r.operands :=
  bareAll_append _ _

/-- Operators with akin operands. -/
theorem joined (x : String) (hl : Akin l l') (hr : Akin r r') : Akin (.joined x l r) (.joined x l' r') := by
  unfold Node.joined
  rw [← hl.span_eq, ← hr.span_eq]
  obtain ⟨first, hfirst⟩ := Option.isSome_iff_exists.mp hl.spanned
  obtain ⟨last, hlast⟩ := Option.isSome_iff_exists.mp hr.spanned
  rw [hfirst, hlast]
  by_cases hx : x = assignSymbol
  · rw [if_pos hx, if_pos hx]
    refine ⟨rfl, rfl, rfl, ?_⟩
    rw [bareAll_operands_assign, bareAll_operands_assign, hl.operands_eq, hr.operands_eq]
  · rw [if_neg hx, if_neg hx]
    refine ⟨rfl, rfl, rfl, ?_⟩
    exact congrArg₂ (fun a b => [Node.binary x a b none]) hl.regroup hr.regroup

/-- Three operands assigned to one another may be grouped either way. -/
theorem assign_assoc (ha : a.span.isSome = true) (hb : b.span.isSome = true) (hc : c.span.isSome = true) :
    Akin (.joined assignSymbol (.joined assignSymbol a b) c)
      (.joined assignSymbol a (.joined assignSymbol b c)) := by
  unfold Node.joined
  obtain ⟨first, hfirst⟩ := Option.isSome_iff_exists.mp ha
  obtain ⟨middle, hmiddle⟩ := Option.isSome_iff_exists.mp hb
  obtain ⟨last, hlast⟩ := Option.isSome_iff_exists.mp hc
  rw [hfirst, hmiddle, hlast]
  refine ⟨rfl, rfl, rfl, ?_⟩
  show bareAll (assign (assign a b _) c _).operands = bareAll (assign a (assign b c _) _).operands
  simp only [bareAll_operands_assign, List.append_assoc]

/-! ### Other forms -/

variable {c' p p' q q' f f' : Node} {s : Span}

theorem ifThen (hc : Akin c c') (hp : Akin p p') : Akin (.ifThen c p (some s)) (.ifThen c' p' (some s)) :=
  ⟨rfl, rfl, rfl, congrArg₂ (fun a b => [Node.ifThen a b none]) hc.regroup hp.regroup⟩

theorem ifElse (hc : Akin c c') (hp : Akin p p') (hq : Akin q q') :
    Akin (.ifElse c p q (some s)) (.ifElse c' p' q' (some s)) := by
  refine ⟨rfl, rfl, rfl, ?_⟩
  show [Node.ifElse c.regroup.bare p.regroup.bare q.regroup.bare none] = [_]
  rw [hc.regroup, hp.regroup, hq.regroup]
  rfl

theorem lambda (params : List String) (hp : Akin p p') :
    Akin (.lambda params p (some s)) (.lambda params p' (some s)) :=
  ⟨rfl, rfl, rfl, congrArg (fun b => [Node.lambda params b none]) hp.regroup⟩

theorem call {args args' : List Node} (hf : Akin f f') (hargs : List.Forall₂ Akin args args') :
    Akin (.call f args (some s)) (.call f' args' (some s)) :=
  ⟨rfl, rfl, rfl, congrArg₂ (fun g as => [Node.call g as none]) hf.regroup (regroupAll hargs)⟩

theorem program {body body' : List Node} (h : List.Forall₂ Akin body body') :
    Akin (.program body (some s)) (.program body' (some s)) :=
  ⟨rfl, rfl, rfl, congrArg (fun es => [Node.program es none]) (regroupAll h)⟩

end Akin

/-! ## Regrouped trees are well formed -/

theorem WellFormed.assignments {ns : List Node} (hne : ns ≠ []) (h : ∀ n ∈ ns, n.WellFormed) :
    (assignments ns).WellFormed := by
  induction ns with
  | nil => exact absurd rfl hne
  | cons n ns ih =>
    obtain ⟨hn, hns⟩ := List.forall_mem_cons.mp h
    cases ns with
    | nil => exact hn
    | cons m ms => exact .assign hn (ih (List.cons_ne_nil m ms) hns)

theorem operands_ne_nil : ∀ n : Node, n.operands ≠ []
  | .assign l _ _ => List.append_ne_nil_of_left_ne_nil (operands_ne_nil l) _
  | .binary .. | .ifThen .. | .ifElse .. | .lambda .. | .call .. | .program .. | .number .. | .string ..
  | .bool .. | .reference .. | .operator .. => List.cons_ne_nil _ _

theorem WellFormed.regroup_of_operands {n : Node} (h : ∀ m ∈ n.operands, m.WellFormed) :
    n.regroup.WellFormed :=
  .assignments (operands_ne_nil n) h

theorem WellFormed.regroupAll {ns : List Node} (h : ∀ n ∈ ns, ∀ m ∈ n.operands, m.WellFormed) :
    ∀ m ∈ regroupAll ns, m.WellFormed := by
  rw [regroupAll_eq_map]
  intro m hm
  obtain ⟨n, hn, rfl⟩ := List.mem_map.mp hm
  exact .regroup_of_operands (h n hn)

/-- A tree is regrouped to operands that may stand below a program. -/
theorem WellFormed.operands {n : Node} (h : n.WellFormed) : ∀ m ∈ n.operands, m.WellFormed := by
  have single {m k : Node} (hm : m.WellFormed) (hk : k ∈ [m]) : k.WellFormed := List.mem_singleton.mp hk ▸ hm
  induction h with
  | number hv => exact fun _ => single (.number hv)
  | string => exact fun _ => single .string
  | bool => exact fun _ => single .bool
  | reference hx => exact fun _ => single (.reference hx)
  | operator hx => exact fun _ => single (.operator hx)
  | assign _ _ ihl ihr => exact fun m hm => (List.mem_append.mp hm).elim (ihl m) (ihr m)
  | binary hx _ _ ihl ihr =>
    exact fun _ => single (.binary hx (.regroup_of_operands ihl) (.regroup_of_operands ihr))
  | ifThen _ _ ihc ihp =>
    exact fun _ => single (.ifThen (.regroup_of_operands ihc) (.regroup_of_operands ihp))
  | ifElse _ _ _ ihc ihp ihq =>
    exact fun _ => single (.ifElse (.regroup_of_operands ihc) (.regroup_of_operands ihp)
      (.regroup_of_operands ihq))
  | lambda hparams _ ihb => exact fun _ => single (.lambda hparams (.regroup_of_operands ihb))
  | call _ _ ihf ihargs => exact fun _ => single (.call (.regroup_of_operands ihf) (.regroupAll ihargs))
  | @program body s hlength _ ih =>
    refine fun _ => single (.program ?_ (.regroupAll ih))
    rw [regroupAll_eq_map, List.length_map]
    exact hlength

theorem IsProgram.regroup {n : Node} (h : n.IsProgram) : n.regroup.IsProgram := by
  cases h with
  | program hbody => exact .program (.regroupAll fun e he => (hbody e he).operands)

/-- Akin programs are equal when their assignments are grouped to the right. -/
theorem IsProgram.regroup_beq {n m : Node} (h : n.IsProgram) (hakin : Akin n m) :
    (n.regroup == m.regroup) = true :=
  h.regroup.beq_of_bare hakin.regroup

end Node
end LambdaReader
