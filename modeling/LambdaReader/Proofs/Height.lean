import Mathlib.Algebra.Order.Ring.Nat
import Mathlib.Data.Nat.Choose.Basic
import LambdaReader.Proofs.Recorded
import LambdaReader.Proofs.Reads.Adequacy

/-!
# `Proofs.Height` — how deep a tree the levels of nesting allow

A tree that is read with a limit of nesting is no deeper than the limit allows, however long its source
is. How deep a tree is depends on what is counted along its paths, so the nodes have weights: with all
of them at one the reach of a tree is its height, and with folded operators at one and the rest at zero
it is the number of operators on top of each other.

An expression adds three nodes to what is inside it, one for its form and two for calls, and as many
folds as levels are left after the first two. `Node.ceiling` adds that up over the levels.

## Main results
- `Reads.reach_le`: the reach of what is read is below the ceiling of its task;
- `Source.height_le`: the limit bounds the height of a program.
-/

namespace LambdaReader

open TokenSource

namespace Node

/-! ## Paths and what they weigh -/

/-- The nodes from the root of a tree down to a leaf. -/
inductive Path : Node → List Node → Prop where
  | leaf {n : Node} : n.children = [] → Path n [n]
  | step {n c : Node} {path : List Node} : c ∈ n.children → Path c path → Path n (n :: path)

variable (w : Node → Nat)

mutual

/-- The greatest sum of weights along a path. -/
def reach : Node → Nat
  | number v s => w (number v s)
  | string v s => w (string v s)
  | bool v s => w (bool v s)
  | reference x s => w (reference x s)
  | operator x s => w (operator x s)
  | assign l r s => w (assign l r s) + max (reach l) (reach r)
  | binary x l r s => w (binary x l r s) + max (reach l) (reach r)
  | ifThen c p s => w (ifThen c p s) + max (reach c) (reach p)
  | ifElse c p n s => w (ifElse c p n s) + max (reach c) (max (reach p) (reach n))
  | lambda ps b s => w (lambda ps b s) + reach b
  | call f args s => w (call f args s) + max (reach f) (reachAll args)
  | program body s => w (program body s) + reachAll body

/-- The greatest reach of several trees. -/
def reachAll : List Node → Nat
  | [] => 0
  | n :: ns => max (reach n) (reachAll ns)

end

/-- The greatest number of nodes on a path. -/
def height (n : Node) : Nat := n.reach fun _ => 1

theorem reach_eq (n : Node) : n.reach w = w n + reachAll w n.children := by
  cases n <;> simp [reach, reachAll, children]

variable {w}

theorem le_reachAll {c : Node} {ns : List Node} (h : c ∈ ns) : c.reach w ≤ reachAll w ns := by
  induction ns with
  | nil => cases h
  | cons n ns ih =>
    rw [reachAll]
    rcases List.mem_cons.mp h with rfl | h
    · exact Nat.le_max_left _ _
    · exact Nat.le_trans (ih h) (Nat.le_max_right _ _)

theorem reachAll_le {b : Nat} {ns : List Node} (h : ∀ c ∈ ns, c.reach w ≤ b) : reachAll w ns ≤ b := by
  induction ns with
  | nil => exact Nat.zero_le b
  | cons n ns ih =>
    obtain ⟨hn, hns⟩ := List.forall_mem_cons.mp h
    exact Nat.max_le.mpr ⟨hn, ih hns⟩

theorem exists_reach_eq_reachAll {ns : List Node} (h : ns ≠ []) :
    ∃ c ∈ ns, c.reach w = reachAll w ns := by
  induction ns with
  | nil => exact absurd rfl h
  | cons n ns ih =>
    rw [reachAll]
    by_cases hns : reachAll w ns ≤ n.reach w
    · exact ⟨n, List.mem_cons_self, (Nat.max_eq_left hns).symm⟩
    · have hlt : n.reach w < reachAll w ns := Nat.lt_of_not_le hns
      have hne : ns ≠ [] := by
        rintro rfl
        exact Nat.not_lt_zero _ hlt
      obtain ⟨c, hc, heq⟩ := ih hne
      refine ⟨c, List.mem_cons_of_mem n hc, ?_⟩
      rw [heq, Nat.max_eq_right hlt.le]

theorem sizeOf_lt_of_mem_children {n c : Node} (h : c ∈ n.children) : sizeOf c < sizeOf n := by
  cases n with
  | number | string | bool | reference | operator => cases h
  | assign l r s | binary x l r s | ifThen l r s | ifElse l p r s | lambda ps l s =>
    simp only [children, List.mem_cons, List.not_mem_nil, or_false] at h
    rcases h with rfl | rfl | rfl <;> simp <;> omega
  | call f args s =>
    rcases List.mem_cons.mp h with rfl | h
    · simp
      omega
    · have hlt := List.sizeOf_lt_of_mem h
      simp
      omega
  | program body s =>
    have hlt : sizeOf c < sizeOf body := List.sizeOf_lt_of_mem h
    simp
    omega

/-- No path weighs more than the reach. -/
theorem Path.sum_le {n : Node} {path : List Node} (h : n.Path path) :
    (path.map w).sum ≤ n.reach w := by
  induction h with
  | leaf hleaf => simp [reach_eq, hleaf, reachAll]
  | step hc _ ih =>
    have hle := le_reachAll (w := w) hc
    rw [List.map_cons, List.sum_cons, reach_eq]
    omega

/-- Some path weighs as much as the reach. -/
theorem exists_path (w : Node → Nat) (n : Node) :
    ∃ path, n.Path path ∧ (path.map w).sum = n.reach w := by
  by_cases hleaf : n.children = []
  · exact ⟨[n], .leaf hleaf, by simp [reach_eq, hleaf, reachAll]⟩
  · -- Below the root the path goes on through the child that reaches deepest.
    obtain ⟨c, hc, hmax⟩ := exists_reach_eq_reachAll (w := w) hleaf
    obtain ⟨path, hpath, hsum⟩ := exists_path w c
    refine ⟨n :: path, .step hc hpath, ?_⟩
    rw [List.map_cons, List.sum_cons, hsum, hmax, reach_eq w n]
termination_by sizeOf n
decreasing_by exact sizeOf_lt_of_mem_children hc

/-! ## Folded operators -/

/-- The node is an operator with its operands. -/
def isFold : Node → Bool
  | assign .. | binary .. => true
  | _ => false

/-- The weight that counts folded operators. -/
def foldWeight (n : Node) : Nat := n.isFold.toNat

theorem sum_foldWeight (path : List Node) : (path.map foldWeight).sum = path.countP isFold := by
  induction path with
  | nil => rfl
  | cons n path ih =>
    rw [List.map_cons, List.sum_cons, ih, List.countP_cons, foldWeight]
    cases n.isFold <;> simp [Nat.add_comm]

variable (w) in
/-- A folded operator weighs at most `f` and any other node at most `g`. -/
def Weighs (f g : Nat) : Prop := ∀ n : Node, w n ≤ bif n.isFold then f else g

theorem weighs_one : Weighs (fun _ => 1) 1 1 := by
  intro n
  cases n.isFold <;> exact Nat.le_refl 1

theorem weighs_foldWeight : Weighs foldWeight 1 0 := by
  intro n
  unfold foldWeight
  cases n.isFold <;> exact Nat.le_refl _

/-! ## Ceilings -/

theorem choose_two_succ (n : Nat) : (n + 1).choose 2 = n + n.choose 2 := by
  rw [Nat.choose_succ_succ' n 1, Nat.choose_one_right]

/-- What `n` levels allow for: three nodes for each level, and with `n` levels left `n - 2` folds. -/
def ceiling (f g n : Nat) : Nat := 3 * g * n + f * (n - 1).choose 2

/-- One level more allows for three nodes more and one fold more than the level before. -/
theorem ceiling_succ (f g n : Nat) : ceiling f g (n + 1) = ceiling f g n + 3 * g + f * (n - 1) := by
  unfold ceiling
  cases n with
  | zero => simp
  | succ n =>
    simp only [Nat.add_sub_cancel, choose_two_succ, Nat.mul_add, Nat.mul_one]
    omega

variable {f g : Nat}

theorem reach_joined_le (hw : Weighs w f g) (symbol : String) (left right : Node) :
    (joined symbol left right).reach w ≤ f + max (left.reach w) (right.reach w) := by
  unfold joined
  split
  · rw [reach]
    exact Nat.add_le_add_right (hw (.assign left right _)) _
  · rw [reach]
    exact Nat.add_le_add_right (hw (.binary symbol left right _)) _

theorem reach_blocked_le {b : Nat} {body : List Node} {span : Option Span} (hw : Weighs w f g)
    (h : ∀ e ∈ body, e.reach w ≤ b) : (blocked body span).reach w ≤ g + b := by
  match body with
  | [] => exact Nat.le_trans (hw (.bool false span)) (Nat.le_add_right g b)
  | [n] =>
    have hn : n.reach w ≤ b := h n List.mem_cons_self
    exact Nat.le_trans hn (Nat.le_add_left b g)
  | n :: m :: body =>
    have hbody := reachAll_le h
    have hroot : w (.program (n :: m :: body) span) ≤ g := hw (.program (n :: m :: body) span)
    show (program (n :: m :: body) span).reach w ≤ g + b
    rw [reach]
    omega

theorem reach_leaf?_le {t : Token} {a : Node} (hw : Weighs w f g) (h : t.leaf? = some a) :
    a.reach w ≤ g := by
  unfold Token.leaf? at h
  cases hkind : t.kind with
  | punctuation | keyword => simp [hkind] at h
  | identifier | string | operator =>
    simp only [hkind, Option.some.injEq] at h
    subst h
    exact hw _
  | number =>
    simp only [hkind, Option.map_eq_some_iff] at h
    obtain ⟨v, _, rfl⟩ := h
    exact hw (.number v _)

end Node

/-! ## What is read stays below its ceiling -/

open Node

/-- How far down a tree can reach that the task gives. -/
def Task.ceiling (w : Node → Nat) (f g : Nat) : Task → Nat
  | statements n | expression n | operand n _ | sequence n _ _ _ => Node.ceiling f g n
  | operators n left _ => max (left.reach w) (Node.ceiling f g n + 2 * g) + f * (n - 1)
  | atom n => Node.ceiling f g n + 2 * g
  | primary n => Node.ceiling f g n + g
  | suffix n callee => g + max (callee.reach w) (Node.ceiling f g n)

/-- No tree that is read reaches above the ceiling of its task. -/
theorem Reads.reach_le {w : Node → Nat} {f g : Nat} (hw : Weighs w f g) {o : ParseOptions} {task : Task}
    {s s' : Spot} {ns : List Node} (h : Reads o task s ns s') :
    ∀ e ∈ ns, e.reach w ≤ task.ceiling w f g := by
  have single : ∀ {e : Node} {b : Nat}, (∀ x ∈ [e], x.reach w ≤ b) ↔ e.reach w ≤ b :=
    List.forall_mem_singleton
  -- A part is read with one level less, or behind a token that opens it and with as many.
  induction h with
  | done | seqClose | seqTrailing => intro e he; cases he
  | last _ _ ih => exact ih
  | next _ _ _ ihe ih => exact List.forall_mem_cons.mpr ⟨single.mp ihe, ih⟩
  | expression _ _ _ iha iho ihs =>
    rw [single] at iha iho ihs ⊢
    simp only [Task.ceiling, ceiling_succ] at iha iho ihs ⊢
    omega
  | operand _ _ iha iho =>
    rw [single] at iha iho ⊢
    simp only [Task.ceiling, ceiling_succ] at iha iho ⊢
    omega
  | settled =>
    rw [single]
    exact Nat.le_trans (Nat.le_max_left _ _) (Nat.le_add_right _ _)
  | @fold n left right e bound l t rest s₁ s₂ _ hr _ ihr iho =>
    have hjoined := reach_joined_le hw t.text left right
    rw [single] at ihr iho ⊢
    simp only [Task.ceiling] at ihr iho ⊢
    -- The right operand needs a level of its own, so one fold less is left for what follows.
    cases n with
    | zero => cases hr
    | succ n =>
      rw [Nat.add_sub_cancel] at iho ⊢
      rw [ceiling_succ f g (n + 1), Nat.mul_succ]
      omega
  | atom _ _ ihp ihs =>
    rw [single] at ihp ihs ⊢
    simp only [Task.ceiling] at ihp ihs ⊢
    omega
  | bare =>
    rw [single]
    exact Nat.le_trans (Nat.le_max_left _ _) (Nat.le_add_left _ _)
  | @call n callee args s s₁ s₂ _ _ ih =>
    have hargs : reachAll w args ≤ Node.ceiling f g n := reachAll_le ih
    have hroot : w (.called callee args s₂) ≤ g := hw (.called callee args s₂)
    rw [single, called, reach, Task.ceiling]
    unfold called at hroot
    omega
  | group _ _ _ ih =>
    rw [single] at ih ⊢
    exact Nat.le_trans ih (Nat.le_add_right _ _)
  | @block n _ _ _ body _ _ ih =>
    rw [single, Task.ceiling, Nat.add_comm]
    exact reach_blocked_le hw ih
  | @ifThen n s _ _ _ s₄ c p _ _ _ _ _ ihc ihp =>
    have hroot : w (.ifThen c p (s.spanTo s₄)) ≤ g := hw (.ifThen c p _)
    rw [single] at ihc ihp ⊢
    rw [reach]
    simp only [Task.ceiling] at ihc ihp ⊢
    omega
  | @ifElse n s _ _ _ _ _ s₆ c p q _ _ _ _ _ _ ihc ihp ihq =>
    have hroot : w (.ifElse c p q (s.spanTo s₆)) ≤ g := hw (.ifElse c p q _)
    rw [single] at ihc ihp ihq ⊢
    rw [reach]
    simp only [Task.ceiling] at ihc ihp ihq ⊢
    omega
  | @lambda n s _ _ _ s₄ params b _ _ _ _ ihb =>
    have hroot : w (.lambda params b (s.spanTo s₄)) ≤ g := hw (.lambda params b _)
    rw [single] at ihb ⊢
    rw [reach]
    simp only [Task.ceiling] at ihb ⊢
    omega
  | @truth n s s₁ b =>
    have hroot : w (.bool b (s.spanTo s₁)) ≤ g := hw (.bool b _)
    rw [single, Task.ceiling]
    exact Nat.le_trans hroot (Nat.le_add_left _ _)
  | leaf ht =>
    rw [single, Task.ceiling]
    exact Nat.le_trans (reach_leaf?_le hw ht) (Nat.le_add_left _ _)
  | seqFirst _ _ ihe ih => exact List.forall_mem_cons.mpr ⟨single.mp ihe, ih⟩
  | seqMore _ _ _ ihe ih => exact List.forall_mem_cons.mpr ⟨single.mp ihe, ih⟩

/-- A program reaches one node further than the expressions in it. -/
theorem Source.reach_le {s : Source} {o : ParseOptions} {n : Node} {w : Node → Nat} {f g : Nat}
    (hw : Weighs w f g) (h : s.parse o = .ok n) : n.reach w ≤ g + Node.ceiling f g o.maxDepth.toNat := by
  obtain ⟨l, hdone⟩ := s.drain_of_parse h
  obtain ⟨body, s', hbody, rfl⟩ := (TokenSource.read_eq_ok_iff hdone n).mp h
  have hbelow := reachAll_le (hbody.reach_le hw)
  have hroot : w (.program body (some (s'.spanFrom (location s.scanner)))) ≤ g := hw (.program body _)
  rw [Task.ceiling] at hbelow
  rw [reach]
  omega

/-- Without a level nothing is read. -/
theorem Reads.statements_zero {o : ParseOptions} {s s' : Spot} {ns : List Node}
    (h : Reads o (.statements 0) s ns s') : ns = [] := by
  cases h with
  | done => rfl
  | last he | next he => cases he

/-- The number of pairs as a product. -/
theorem choose_two_mul_two (k : Nat) : (k.choose 2 : Int) * 2 = k * (k - 1) := by
  induction k with
  | zero => rfl
  | succ k ih =>
    have hpred : ((k + 1 : Nat) : Int) - 1 = k := by omega
    rw [choose_two_succ, Int.natCast_add, Int.add_mul, ih, ← Int.mul_add, hpred, Int.natCast_succ,
      Int.mul_comm]
    congr 1
    omega

/-- The pairs of folds that are allowed for, counted with integers. -/
theorem choose_two_toNat {d : Int} (hd : 1 ≤ d) :
    (((d.toNat - 1).choose 2 : Nat) : Int) = (d - 1) * (d - 2) / 2 := by
  obtain ⟨k, rfl⟩ : ∃ k : Nat, d = k + 1 := ⟨(d - 1).toNat, by omega⟩
  have hsub : (((k : Int) + 1).toNat - 1) = k := by omega
  have hfactors : ((k : Int) + 1 - 1) * ((k : Int) + 1 - 2) = (k.choose 2 : Int) * 2 := by
    rw [choose_two_mul_two, Int.add_sub_cancel]
    congr 1
    omega
  rw [hsub, hfactors, Int.mul_ediv_cancel _ (by decide)]

/-- The limit of nesting bounds the height of a program, however long its source is; without a level
there is nothing in it. -/
theorem Source.height_le {s : Source} {o : ParseOptions} {n : Node} (h : s.parse o = .ok n) :
    (1 ≤ o.maxDepth → (n.height : Int) ≤
      1 + 3 * o.maxDepth + (o.maxDepth - 1) * (o.maxDepth - 2) / 2) ∧
    (o.maxDepth ≤ 0 → n.children = []) := by
  constructor
  · intro hd
    have hreach : n.height ≤ 1 + Node.ceiling 1 1 o.maxDepth.toNat := Source.reach_le weighs_one h
    have hchoose := choose_two_toNat hd
    unfold Node.ceiling at hreach
    omega
  · intro hd
    obtain ⟨l, hdone⟩ := s.drain_of_parse h
    obtain ⟨body, s', hbody, rfl⟩ := (TokenSource.read_eq_ok_iff hdone n).mp h
    rw [Int.toNat_of_nonpos hd] at hbody
    exact hbody.statements_zero

/-- The bound for one group inside another with calls behind both, and for no level at all. -/
theorem Source.height_le_calls :
    (∃ n, Source.parse { maxDepth := 4 } ⟨"((a)(b) + c)(d)", "x", false⟩ = .ok n ∧ n.height = 5 ∧
      (n.height : Int) ≤ 1 + 3 * 4 + (4 - 1) * (4 - 2) / 2) ∧
    ∃ n, Source.parse { maxDepth := 0 } ⟨"# nothing", "x", false⟩ = .ok n ∧ n.children = [] := by
  have hcalls : (Source.parse { maxDepth := 4 } ⟨"((a)(b) + c)(d)", "x", false⟩).toOption.map height =
      some 5 := by
    decide +kernel
  have hempty : (Source.parse { maxDepth := 0 } ⟨"# nothing", "x", false⟩).isOk = true := by
    decide +kernel
  constructor
  · cases hparse : Source.parse { maxDepth := 4 } ⟨"((a)(b) + c)(d)", "x", false⟩ with
    | error e => rw [hparse] at hcalls; cases hcalls
    | ok n =>
      rw [hparse] at hcalls
      exact ⟨n, rfl, Option.some.inj hcalls, (Source.height_le hparse).1 (by decide)⟩
  · cases hparse : Source.parse { maxDepth := 0 } ⟨"# nothing", "x", false⟩ with
    | error e => rw [hparse] at hempty; cases hempty
    | ok n => exact ⟨n, rfl, (Source.height_le hparse).2 (by decide)⟩

end LambdaReader
