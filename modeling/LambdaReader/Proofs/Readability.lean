import LambdaReader.Proofs.Atoms
import LambdaReader.Proofs.Serialization

/-!
# `Proofs.Readability` — a text stands for one tree

A tree in full is a text in which quotes, commas and parentheses nest, and any text may stand between its
quotes, the text of a tree among them. Still two trees with one text are one tree without spans. The
induction needs more than that: a tree is *readable* if its text, with anything behind it, is the text of
another tree with anything behind that only if the two are one tree and the same stands behind them. So
the text of a tree tells where it ends, and fields are compared from left to right.

## Main result
- `Node.render_eq_iff`: trees have one text exactly if they are the same without spans.
-/

namespace LambdaReader

/-! ## Texts up to a mark -/

/-- What stands before the first mark and what stands after it are known from the whole. -/
theorem append_mark_inj {mark : Char} {xs ys u v : List Char} (hx : mark ∉ xs) (hy : mark ∉ ys)
    (h : xs ++ mark :: u = ys ++ mark :: v) : xs = ys ∧ u = v := by
  induction xs generalizing ys with
  | nil =>
    cases ys with
    | nil => exact ⟨rfl, (List.cons.inj h).2⟩
    | cons y ys => exact absurd (List.mem_cons.mpr (.inl (List.cons.inj h).1)) hy
  | cons x xs ih =>
    cases ys with
    | nil => exact absurd (List.mem_cons.mpr (.inl (List.cons.inj h).1.symm)) hx
    | cons y ys =>
      obtain ⟨rfl, hrest⟩ := List.cons.inj h
      obtain ⟨rfl, huv⟩ := ih (List.not_mem_of_not_mem_cons hx) (List.not_mem_of_not_mem_cons hy) hrest
      exact ⟨rfl, huv⟩

namespace Decimal

/-- The text of a number ends at a closing parenthesis. -/
theorem floatText_append_inj {x y : Float} {u v : List Char} (hx : x.isNaN = false) (hy : y.isNaN = false)
    (h : (floatText x).toList ++ ')' :: u = (floatText y).toList ++ ')' :: v) : x = y ∧ u = v := by
  have hmark (z : Float) (hz : z.isNaN = false) : ')' ∉ floatChars z := fun hmem =>
    absurd (isPlain_of_mem_floatChars hz _ hmem) (by decide)
  simp only [floatText, String.toList_ofList] at h
  obtain ⟨htext, huv⟩ := append_mark_inj (hmark x hx) (hmark y hy) h
  exact ⟨floatChars_inj hx hy htext, huv⟩

end Decimal

namespace Node

/-! ## Headings -/

/-- The constructor that a tree is written with. -/
def heading : NodeKind → String
  | .program => "Program"
  | .number => "NumberLiteral"
  | .string => "StringLiteral"
  | .bool => "BoolLiteral"
  | .reference => "Variable"
  | .operator => "OperatorRef"
  | .assign => "Assign"
  | .binary => "Binary"
  | .conditional => "If"
  | .lambda => "Lambda"
  | .call => "Call"

theorem heading_inj {k k' : NodeKind} (h : (heading k).toList = (heading k').toList) : k = k' := by
  revert h
  cases k <;> cases k' <;> decide

theorem not_mem_heading (k : NodeKind) : '(' ∉ (heading k).toList := by
  cases k <;> decide

theorem exists_render_eq (n : Node) : ∃ fields, n.render = applied (heading n.kind) fields := by
  cases n <;> exact ⟨_, by rw [render]; rfl⟩

/-! ## Fields -/

/-- Fields up to the closing parenthesis, and what stands behind it. -/
def closing (fields : List String) (rest : List Char) : List Char :=
  (", ".intercalate fields).toList ++ ')' :: rest

theorem closing_singleton (x : String) (rest : List Char) : closing [x] rest = x.toList ++ ')' :: rest := by
  simp [closing]

theorem closing_cons_cons (x y : String) (fields : List String) (rest : List Char) :
    closing (x :: y :: fields) rest = x.toList ++ ',' :: ' ' :: closing (y :: fields) rest := by
  simp [closing]

theorem toList_applied (constructor : String) (fields : List String) (rest : List Char) :
    (applied constructor fields).toList ++ rest = constructor.toList ++ '(' :: closing fields rest := by
  simp [applied, closing]

theorem applied_append_inj {constructor : String} {fields fields' : List String} {u v : List Char}
    (h : (applied constructor fields).toList ++ u = (applied constructor fields').toList ++ v) :
    closing fields u = closing fields' v := by
  rw [toList_applied, toList_applied] at h
  exact (List.cons.inj (List.append_cancel_left h)).2

/-- Trees with one text, whatever stands behind it, are of one kind. -/
theorem kind_eq_of_render {a b : Node} {u v : List Char}
    (h : a.render.toList ++ u = b.render.toList ++ v) : a.kind = b.kind := by
  obtain ⟨fs, hfs⟩ := exists_render_eq a
  obtain ⟨gs, hgs⟩ := exists_render_eq b
  rw [hfs, hgs, toList_applied, toList_applied] at h
  exact heading_inj (append_mark_inj (not_mem_heading _) (not_mem_heading _) h).1

/-- The texts of two values are equal, whatever stands behind them, only if the values have one key and
the same stands behind both. -/
def Apart {α β : Type} (write : α → String) (key : α → β) (x y : α) : Prop :=
  ∀ u v, (write x).toList ++ u = (write y).toList ++ v → key x = key y ∧ u = v

theorem Apart.symm {α β : Type} {write : α → String} {key : α → β} {x y : α} (h : Apart write key x y) :
    Apart write key y x := fun u v heq => by
  obtain ⟨hkey, huv⟩ := h v u heq.symm
  exact ⟨hkey.symm, huv.symm⟩

theorem apart_quoted (x y : String) : Apart Text.quoted id x y := fun _ _ h => Text.quoted_append_inj h

section Fields

variable {α β : Type} {write : α → String} {key : α → β} {x y : α} {u v : List Char}

theorem closing_last (hxy : Apart write key x y) (h : closing [write x] u = closing [write y] v) :
    key x = key y ∧ u = v := by
  rw [closing_singleton, closing_singleton] at h
  obtain ⟨hkey, hrest⟩ := hxy _ _ h
  exact ⟨hkey, (List.cons.inj hrest).2⟩

theorem closing_step {f g : String} {fs gs : List String} (hxy : Apart write key x y)
    (h : closing (write x :: f :: fs) u = closing (write y :: g :: gs) v) :
    key x = key y ∧ closing (f :: fs) u = closing (g :: gs) v := by
  rw [closing_cons_cons, closing_cons_cons] at h
  obtain ⟨hkey, hrest⟩ := hxy _ _ h
  exact ⟨hkey, (List.cons.inj (List.cons.inj hrest).2).2⟩

/-- A field that is the last is not followed by a comma. -/
theorem closing_ne {f : String} {fs : List String} (hxy : Apart write key x y) :
    closing [write x] u ≠ closing (write y :: f :: fs) v := by
  rw [closing_singleton, closing_cons_cons]
  intro h
  cases (List.cons.inj (hxy _ _ h).2).1

end Fields

/-! ## Sequences -/

section Sequences

variable {α β : Type} {write : α → String} {key : α → β} {xs ys : List α} {x y : α} {u v : List Char}

/-- Fields are as many on both sides: where one list ends, a comma would follow on the other. -/
theorem closing_inj (h : ∀ x' ∈ x :: xs, ∀ y' ∈ y :: ys, Apart write key x' y')
    (heq : closing ((x :: xs).map write) u = closing ((y :: ys).map write) v) :
    (x :: xs).map key = (y :: ys).map key ∧ u = v := by
  have hxy := h x (by simp) y (by simp)
  induction xs generalizing x y ys with
  | nil =>
    cases ys with
    | nil =>
      obtain ⟨hkey, huv⟩ := closing_last hxy heq
      exact ⟨by rw [List.map_cons, List.map_cons, hkey], huv⟩
    | cons y' ys => exact absurd heq (closing_ne hxy)
  | cons x' xs ih =>
    cases ys with
    | nil => exact absurd heq.symm (closing_ne hxy.symm)
    | cons y' ys =>
      obtain ⟨hkey, hrest⟩ := closing_step hxy heq
      have htails (a : α) (ha : a ∈ x' :: xs) (b : α) (hb : b ∈ y' :: ys) : Apart write key a b :=
        h a (List.mem_cons_of_mem _ ha) b (List.mem_cons_of_mem _ hb)
      obtain ⟨htail, huv⟩ := ih htails hrest (htails x' (by simp) y' (by simp))
      exact ⟨by rw [List.map_cons, htail, hkey, ← List.map_cons], huv⟩

/-- What follows the first comma of a sequence, whose first member may be its only one. -/
def following : List String → List Char → List Char
  | [], rest => ')' :: rest
  | text :: texts, rest => ' ' :: closing (text :: texts) rest

theorem toList_tuple_nil (rest : List Char) : (tuple []).toList ++ rest = '(' :: ')' :: rest := rfl

theorem toList_tuple_cons (text : String) (texts : List String) (rest : List Char) :
    (tuple (text :: texts)).toList ++ rest = '(' :: (text.toList ++ ',' :: following texts rest) := by
  cases texts <;> simp [tuple, following, closing]

theorem following_inj (h : ∀ x ∈ xs, ∀ y ∈ ys, Apart write key x y)
    (heq : following (xs.map write) u = following (ys.map write) v) : xs.map key = ys.map key ∧ u = v := by
  cases xs with
  | nil =>
    cases ys with
    | nil => exact ⟨rfl, (List.cons.inj heq).2⟩
    | cons y ys => cases (List.cons.inj heq).1
  | cons x xs =>
    cases ys with
    | nil => cases (List.cons.inj heq).1
    | cons y ys => exact closing_inj h (List.cons.inj heq).2

/-- Sequences with one text, whatever stands behind it, are one sequence of keys. -/
theorem tuple_append_inj (h : ∀ x ∈ xs, ∀ y ∈ ys, Apart write key x y)
    (hstart : ∀ x u v, (write x).toList ++ u ≠ ')' :: v)
    (heq : (tuple (xs.map write)).toList ++ u = (tuple (ys.map write)).toList ++ v) :
    xs.map key = ys.map key ∧ u = v := by
  cases xs with
  | nil =>
    cases ys with
    | nil =>
      rw [List.map_nil, toList_tuple_nil, toList_tuple_nil] at heq
      exact ⟨rfl, (List.cons.inj (List.cons.inj heq).2).2⟩
    | cons y ys =>
      rw [List.map_nil, toList_tuple_nil, List.map_cons, toList_tuple_cons] at heq
      exact absurd (List.cons.inj heq).2.symm (hstart y _ _)
  | cons x xs =>
    rw [List.map_cons, toList_tuple_cons] at heq
    cases ys with
    | nil =>
      rw [List.map_nil, toList_tuple_nil] at heq
      exact absurd (List.cons.inj heq).2 (hstart x _ _)
    | cons y ys =>
      rw [List.map_cons, toList_tuple_cons] at heq
      obtain ⟨hkey, hrest⟩ := h x (by simp) y (by simp) _ _ (List.cons.inj heq).2
      obtain ⟨hkeys, huv⟩ := following_inj
        (fun a ha b hb => h a (List.mem_cons_of_mem _ ha) b (List.mem_cons_of_mem _ hb)) (List.cons.inj hrest).2
      exact ⟨by rw [List.map_cons, List.map_cons, hkey, hkeys], huv⟩

end Sequences

/-! ## Trees, by their kind -/

/-- The text of the tree, whatever stands behind it, is the text of no other tree. -/
def Readable (a : Node) : Prop := ∀ b : Node, b.Numeric → Apart render bare a b

variable {v : Float} {x : String} {a b c : Node} {xs : List String} {ns : List Node} {s : Option Span}

theorem readable_number (hv : v.isNaN = false) : (number v s).Readable := by
  intro m hm rest rest' h
  cases m with
  | number w t =>
    have hfield := applied_append_inj h
    rw [closing_singleton, closing_singleton] at hfield
    obtain ⟨rfl, hrest⟩ := Decimal.floatText_append_inj hv (numeric_number.mp hm) hfield
    exact ⟨rfl, hrest⟩
  | _ => cases kind_eq_of_render h

theorem readable_string : (string x s).Readable := by
  intro m _ rest rest' h
  cases m with
  | string y t =>
    obtain ⟨hx, hrest⟩ := closing_last (apart_quoted x y) (applied_append_inj h)
    exact ⟨congrArg (string · none) hx, hrest⟩
  | _ => cases kind_eq_of_render h

theorem readable_bool {p : Bool} : (bool p s).Readable := by
  intro m _ rest rest' h
  cases m with
  | bool q t =>
    have hfield := applied_append_inj h
    rw [closing_singleton, closing_singleton] at hfield
    cases p <;> cases q <;> simp_all [bare]
  | _ => cases kind_eq_of_render h

theorem readable_reference : (reference x s).Readable := by
  intro m _ rest rest' h
  cases m with
  | reference y t =>
    obtain ⟨hx, hrest⟩ := closing_last (apart_quoted x y) (applied_append_inj h)
    exact ⟨congrArg (reference · none) hx, hrest⟩
  | _ => cases kind_eq_of_render h

theorem readable_operator : (operator x s).Readable := by
  intro m _ rest rest' h
  cases m with
  | operator y t =>
    obtain ⟨hx, hrest⟩ := closing_last (apart_quoted x y) (applied_append_inj h)
    exact ⟨congrArg (operator · none) hx, hrest⟩
  | _ => cases kind_eq_of_render h

theorem Readable.assign (ha : a.Readable) (hb : b.Readable) : (assign a b s).Readable := by
  intro m hm rest rest' h
  cases m with
  | assign a' b' t =>
    rw [numeric_assign] at hm
    obtain ⟨-, h⟩ := closing_step (apart_quoted _ _) (applied_append_inj h)
    obtain ⟨hl, h⟩ := closing_step (ha a' hm.1) h
    obtain ⟨hr, hrest⟩ := closing_last (hb b' hm.2) h
    exact ⟨by rw [bare, bare, hl, hr], hrest⟩
  | _ => cases kind_eq_of_render h

theorem Readable.binary (ha : a.Readable) (hb : b.Readable) : (binary x a b s).Readable := by
  intro m hm rest rest' h
  cases m with
  | binary y a' b' t =>
    rw [numeric_binary] at hm
    obtain ⟨hx, h⟩ := closing_step (apart_quoted x y) (applied_append_inj h)
    obtain ⟨hl, h⟩ := closing_step (ha a' hm.1) h
    obtain ⟨hr, hrest⟩ := closing_last (hb b' hm.2) h
    exact ⟨by rw [bare, bare, show x = y from hx, hl, hr], hrest⟩
  | _ => cases kind_eq_of_render h

/-- No tree is written as what stands for a missing branch. -/
theorem closing_none_ne (n : Node) (u v : List Char) : closing ["None"] u ≠ closing [n.render] v := by
  obtain ⟨fields, hfields⟩ := exists_render_eq n
  rw [closing_singleton, closing_singleton, hfields, toList_applied]
  cases n.kind <;> simp [heading]

theorem Readable.ifThen (ha : a.Readable) (hb : b.Readable) : (ifThen a b s).Readable := by
  intro m hm rest rest' h
  cases m with
  | ifThen a' b' t =>
    rw [numeric_ifThen] at hm
    obtain ⟨hc, h⟩ := closing_step (ha a' hm.1) (applied_append_inj h)
    obtain ⟨hp, h⟩ := closing_step (hb b' hm.2) h
    rw [closing_singleton, closing_singleton] at h
    exact ⟨by rw [bare, bare, hc, hp], (List.cons.inj (List.append_cancel_left h)).2⟩
  | ifElse a' b' c' t =>
    rw [numeric_ifElse] at hm
    obtain ⟨-, h⟩ := closing_step (ha a' hm.1) (applied_append_inj h)
    obtain ⟨-, h⟩ := closing_step (hb b' hm.2.1) h
    -- The last field of one is the missing branch, that of the other a tree.
    exact absurd h (closing_none_ne c' _ _)
  | _ => cases kind_eq_of_render h

theorem Readable.ifElse (ha : a.Readable) (hb : b.Readable) (hc : c.Readable) : (ifElse a b c s).Readable := by
  intro m hm rest rest' h
  cases m with
  | ifThen a' b' t =>
    rw [numeric_ifThen] at hm
    obtain ⟨-, h⟩ := closing_step (ha a' hm.1) (applied_append_inj h)
    obtain ⟨-, h⟩ := closing_step (hb b' hm.2) h
    exact absurd h.symm (closing_none_ne c _ _)
  | ifElse a' b' c' t =>
    rw [numeric_ifElse] at hm
    obtain ⟨hcondition, h⟩ := closing_step (ha a' hm.1) (applied_append_inj h)
    obtain ⟨hpositive, h⟩ := closing_step (hb b' hm.2.1) h
    obtain ⟨hnegative, hrest⟩ := closing_last (hc c' hm.2.2) h
    exact ⟨by rw [bare, bare, hcondition, hpositive, hnegative], hrest⟩
  | _ => cases kind_eq_of_render h

/-- A quoted text begins with its quote. -/
theorem quoted_append_ne (x : String) (u v : List Char) : (Text.quoted x).toList ++ u ≠ ')' :: v := by
  intro h
  rw [Text.quoted, String.toList_ofList, Text.encode, List.cons_append] at h
  have hquote := (List.cons.inj h).1
  rcases Text.quoteOf_cases x.toList with hq | hq <;> rw [hq] at hquote <;> cases hquote

/-- The text of a tree begins with the name of its kind. -/
theorem render_append_ne (n : Node) (u v : List Char) : n.render.toList ++ u ≠ ')' :: v := by
  obtain ⟨fields, hfields⟩ := exists_render_eq n
  rw [hfields, toList_applied]
  cases n.kind <;> simp [heading]

theorem Readable.lambda (ha : a.Readable) : (lambda xs a s).Readable := by
  intro m hm rest rest' h
  cases m with
  | lambda ys a' t =>
    rw [numeric_lambda] at hm
    have hparams : Apart (fun xs => tuple (xs.map Text.quoted)) id xs ys := fun u v h => by
      simpa using tuple_append_inj (fun x _ y _ => apart_quoted x y) quoted_append_ne h
    obtain ⟨hxs, h⟩ := closing_step hparams (applied_append_inj h)
    obtain ⟨hbody, hrest⟩ := closing_last (ha a' hm) h
    exact ⟨by rw [bare, bare, show xs = ys from hxs, hbody], hrest⟩
  | _ => cases kind_eq_of_render h

theorem bareAll_eq_map (ns : List Node) : bareAll ns = ns.map bare := by
  induction ns with
  | nil => rfl
  | cons n ns ih => rw [bareAll, ih, List.map_cons]

theorem apart_tuple {ms : List Node} (hns : ∀ n ∈ ns, n.Readable) (hms : ∀ m ∈ ms, m.Numeric) :
    Apart (fun ns => tuple (renderAll ns)) bareAll ns ms := by
  intro u v h
  simp only [renderAll_eq_map] at h
  rw [bareAll_eq_map, bareAll_eq_map]
  exact tuple_append_inj (fun n hn m hm => hns n hn m (hms m hm)) render_append_ne h

theorem Readable.call (ha : a.Readable) (hns : ∀ n ∈ ns, n.Readable) : (call a ns s).Readable := by
  intro m hm rest rest' h
  cases m with
  | call a' ms t =>
    rw [numeric_call] at hm
    obtain ⟨hfunction, h⟩ := closing_step (ha a' hm.1) (applied_append_inj h)
    obtain ⟨hargs, hrest⟩ := closing_last (apart_tuple hns hm.2) h
    exact ⟨by rw [bare, bare, hfunction, hargs], hrest⟩
  | _ => cases kind_eq_of_render h

theorem readable_program (hns : ∀ n ∈ ns, n.Readable) : (program ns s).Readable := by
  intro m hm rest rest' h
  cases m with
  | program ms t =>
    rw [numeric_program] at hm
    obtain ⟨hbody, hrest⟩ := closing_last (apart_tuple hns hm) (applied_append_inj h)
    exact ⟨by rw [bare, bare, hbody], hrest⟩
  | _ => cases kind_eq_of_render h

/-! ## All trees -/

mutual

/-- A tree in which no number is missing is readable. -/
theorem Numeric.readable : ∀ {n : Node}, n.Numeric → n.Readable
  | number _ _, h => readable_number (numeric_number.mp h)
  | string _ _, _ => readable_string
  | bool _ _, _ => readable_bool
  | reference _ _, _ => readable_reference
  | operator _ _, _ => readable_operator
  | assign _ _ _, h => by
    obtain ⟨hl, hr⟩ := numeric_assign.mp h
    exact hl.readable.assign hr.readable
  | binary _ _ _ _, h => by
    obtain ⟨hl, hr⟩ := numeric_binary.mp h
    exact hl.readable.binary hr.readable
  | ifThen _ _ _, h => by
    obtain ⟨hc, hp⟩ := numeric_ifThen.mp h
    exact hc.readable.ifThen hp.readable
  | ifElse _ _ _ _, h => by
    obtain ⟨hc, hp, hn⟩ := numeric_ifElse.mp h
    exact hc.readable.ifElse hp.readable hn.readable
  | lambda _ _ _, h => (numeric_lambda.mp h).readable.lambda
  | call _ _ _, h => by
    obtain ⟨hf, hargs⟩ := numeric_call.mp h
    exact hf.readable.call (readable_of_mem hargs)
  | program _ _, h => readable_program (readable_of_mem (numeric_program.mp h))

theorem readable_of_mem : ∀ {ns : List Node}, (∀ n ∈ ns, n.Numeric) → ∀ n ∈ ns, n.Readable
  | [], _ => nofun
  | _ :: _, h => by
    obtain ⟨hfirst, hrest⟩ := List.forall_mem_cons.mp h
    exact List.forall_mem_cons.mpr ⟨hfirst.readable, readable_of_mem hrest⟩

end

mutual

theorem render_bare : ∀ n : Node, n.bare.render = n.render
  | number _ _ | string _ _ | bool _ _ | reference _ _ | operator _ _ => rfl
  | assign l r _ => by rw [bare, render, render, render_bare l, render_bare r]
  | binary _ l r _ => by rw [bare, render, render, render_bare l, render_bare r]
  | ifThen c p _ => by rw [bare, render, render, render_bare c, render_bare p]
  | ifElse c p n _ => by rw [bare, render, render, render_bare c, render_bare p, render_bare n]
  | lambda _ b _ => by rw [bare, render, render, render_bare b]
  | call f args _ => by rw [bare, render, render, render_bare f, renderAll_bareAll args]
  | program body _ => by rw [bare, render, render, renderAll_bareAll body]

theorem renderAll_bareAll : ∀ ns : List Node, renderAll (bareAll ns) = renderAll ns
  | [] => rfl
  | n :: ns => by rw [bareAll, renderAll, renderAll, render_bare n, renderAll_bareAll ns]

end

/-- **A text stands for one tree.** Trees without missing numbers have one text exactly if they are one
tree without spans. Zeros of different sign are different numbers here. -/
theorem render_eq_iff {a b : Node} (ha : a.Numeric) (hb : b.Numeric) :
    a.render = b.render ↔ a.bare = b.bare := by
  constructor
  · intro h
    exact (ha.readable b hb [] [] (by rw [h])).1
  · intro h
    rw [← render_bare a, h, render_bare]

/-- The sign of a zero is written, and a text that looks like two arguments is one. -/
theorem render_eq_iff_lookalikes :
    (number 0 none).render ≠ (number (-0) none).render ∧
    (call (number 0 none) [string "'), StringLiteral('" none] none).render ≠
      (call (number 0 none) [string "" none, string "" none] none).render := by
  have hzero : (number 0 none).Numeric := numeric_number.mpr (by decide +kernel)
  have hminus : (number (-0) none).Numeric := numeric_number.mpr (by decide +kernel)
  have hstring (x : String) : (string x none).Numeric := by simp [Numeric, walk]
  constructor
  · rw [ne_eq, render_eq_iff hzero hminus, bare, bare, number.injEq]
    exact fun h => absurd h.1 (by decide +kernel)
  · rw [ne_eq, render_eq_iff (numeric_call.mpr ⟨hzero, by simp [hstring]⟩)
      (numeric_call.mpr ⟨hzero, by simp [hstring]⟩)]
    simp [bare, bareAll]

end Node
end LambdaReader
