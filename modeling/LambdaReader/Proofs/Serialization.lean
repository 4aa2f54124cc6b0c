import LambdaReader.Node.Data
import LambdaReader.Proofs.Floats
import LambdaReader.Proofs.Relocation

/-!
# `Proofs.Serialization` — data keep all of a tree but its spans

Two trees are equal when the data they are written as are equal, and when they are one tree without
spans and without the signs of zeros. Data are compared like trees, by value: the fields of a record
have no order, and a number, a whole number and a truth value may be equal to each other. That no such
coincidence joins two trees is because kinds are written and no two kinds have one label, so data of
different kinds differ in their first field and data of one kind have the fields of that kind.

A missing number is equal to nothing, so what is said of equality is about trees of other numbers. Equal
trees have one hash, whatever their numbers are.

## Main results
- `Node.hashCode_eq_of_same`: equal trees have one hash;
- `Node.toDatum_lossless`: equality of trees is equality of their data, an equivalence that every kind
  of node respects, and reading the data of a tree gives a tree equal to it.
-/

namespace LambdaReader

/-! ## Equality of data -/

namespace Datum

/-- The whole number that a float is, exactly, if it is one. -/
def wholeOfFloat? (x : Float) : Option Int :=
  match x.toModel.unpack with
  | .zero _ => some 0
  | .finite sign m e _ =>
    let size : Int := if 0 ≤ e then m * 2 ^ e.toNat else m / 2 ^ (-e).toNat
    if 0 ≤ e ∨ m % 2 ^ (-e).toNat = 0 then
      some (match sign with
        | .positive => size
        | .negative => -size)
    else none
  | _ => none

/-- The whole number that an atom counts as. -/
def whole? : Datum → Option Int
  | number x => wholeOfFloat? x
  | integer n => some n
  | flag b => some (if b then 1 else 0)
  | _ => none

mutual

/-- Equality by value; the fields of a record are compared by their names. -/
def same : Datum → Datum → Bool
  | number x, number y => x == y
  | flag b, flag c => b == c
  | text s, text t => s == t
  | list ds, list es => sameAll ds es
  | record fs, record gs => fs.length == gs.length && sameFields fs gs
  | d, e =>
    match d.whole?, e.whole? with
    | some n, some m => n == m
    | _, _ => false

/-- Equality one by one. -/
def sameAll : List Datum → List Datum → Bool
  | [], [] => true
  | d :: ds, e :: es => same d e && sameAll ds es
  | _, _ => false

/-- Every field has an equal value among the others. -/
def sameFields : List (String × Datum) → List (String × Datum) → Bool
  | [], _ => true
  | (name, d) :: fs, gs =>
    (match (record gs).field? name with
    | some e => same d e
    | none => false) && sameFields fs gs

end

instance : BEq Datum := ⟨same⟩

example : same (.record [("a", .flag true), ("b", .number (-2))])
    (.record [("b", .integer (-2)), ("a", .number 1)]) = true := by decide +kernel

end Datum

/-! ## Trees without spans and signs of zeros -/

namespace Node

/-- No number in the tree is missing. -/
def Numeric (n : Node) : Prop := ∀ v s, number v s ∈ n.walk → v.isNaN = false

/-- No number is missing in a tree if its root is none and none is missing below. -/
theorem numeric_iff (n : Node) :
    n.Numeric ↔ (∀ v s, n = number v s → v.isNaN = false) ∧ ∀ c ∈ n.children, c.Numeric := by
  simp only [Numeric, walk_eq_cons n, List.mem_cons, List.mem_flatMap]
  constructor
  · intro h
    exact ⟨fun v s hn => h v s (.inl hn.symm), fun c hc v s hv => h v s (.inr ⟨c, hc, hv⟩)⟩
  · rintro ⟨hroot, hchildren⟩ v s (hn | ⟨c, hc, hv⟩)
    · exact hroot v s hn.symm
    · exact hchildren c hc v s hv

section Parts

variable {v : Float} {x : String} {a b c : Node} {xs : List String} {ns : List Node} {s : Option Span}

@[simp] theorem numeric_number : (number v s).Numeric ↔ v.isNaN = false := by
  rw [numeric_iff]
  simp only [number.injEq, and_imp, children, List.not_mem_nil, false_imp_iff, implies_true, and_true]
  exact ⟨fun h => h v s rfl rfl, fun h _ _ hv _ => hv ▸ h⟩

@[simp] theorem numeric_assign : (assign a b s).Numeric ↔ a.Numeric ∧ b.Numeric := by
  rw [numeric_iff]
  simp [children]

@[simp] theorem numeric_binary : (binary x a b s).Numeric ↔ a.Numeric ∧ b.Numeric := by
  rw [numeric_iff]
  simp [children]

@[simp] theorem numeric_ifThen : (ifThen a b s).Numeric ↔ a.Numeric ∧ b.Numeric := by
  rw [numeric_iff]
  simp [children]

@[simp] theorem numeric_ifElse : (ifElse a b c s).Numeric ↔ a.Numeric ∧ b.Numeric ∧ c.Numeric := by
  rw [numeric_iff]
  simp [children]

@[simp] theorem numeric_lambda : (lambda xs a s).Numeric ↔ a.Numeric := by
  rw [numeric_iff]
  simp [children]

@[simp] theorem numeric_call : (call a ns s).Numeric ↔ a.Numeric ∧ ∀ n ∈ ns, n.Numeric := by
  rw [numeric_iff]
  simp [children]

@[simp] theorem numeric_program : (program ns s).Numeric ↔ ∀ n ∈ ns, n.Numeric := by
  rw [numeric_iff]
  simp [children]

end Parts

mutual

/-- The tree without spans and with unsigned zeros. -/
def plain : Node → Node
  | number v _ => number (unsigned v) none
  | string v _ => string v none
  | bool v _ => bool v none
  | reference n _ => reference n none
  | operator o _ => operator o none
  | assign l r _ => assign (plain l) (plain r) none
  | binary o l r _ => binary o (plain l) (plain r) none
  | ifThen c p _ => ifThen (plain c) (plain p) none
  | ifElse c p n _ => ifElse (plain c) (plain p) (plain n) none
  | lambda ps b _ => lambda ps (plain b) none
  | call f args _ => call (plain f) (plainAll args) none
  | program body _ => program (plainAll body) none

/-- Several trees without spans and with unsigned zeros. -/
def plainAll : List Node → List Node
  | [] => []
  | n :: ns => plain n :: plainAll ns

end

/-! ## Equality and plain trees -/

mutual

/-- Trees are equal if they are one plain tree. -/
theorem same_iff_plain : ∀ {a b : Node}, a.Numeric → b.Numeric → (a.same b = true ↔ a.plain = b.plain)
  | number v _, b, _, hb => by
    cases b with
    | number w _ => simp [same, plain, beq_iff_unsigned (numeric_number.mp hb)]
    | _ => simp [same, plain]
  | string _ _, b, _, _ | bool _ _, b, _, _ | reference _ _, b, _, _ | operator _ _, b, _, _ => by
    cases b <;> simp [same, plain]
  | assign l r _, b, ha, hb => by
    cases b with
    | assign l' r' _ =>
      rw [numeric_assign] at ha hb
      simp [same, plain, same_iff_plain ha.1 hb.1, same_iff_plain ha.2 hb.2]
    | _ => simp [same, plain]
  | binary x l r _, b, ha, hb => by
    cases b with
    | binary x' l' r' _ =>
      rw [numeric_binary] at ha hb
      simp [same, plain, same_iff_plain ha.1 hb.1, same_iff_plain ha.2 hb.2, and_assoc]
    | _ => simp [same, plain]
  | ifThen c p _, b, ha, hb => by
    cases b with
    | ifThen c' p' _ =>
      rw [numeric_ifThen] at ha hb
      simp [same, plain, same_iff_plain ha.1 hb.1, same_iff_plain ha.2 hb.2]
    | _ => simp [same, plain]
  | ifElse c p n _, b, ha, hb => by
    cases b with
    | ifElse c' p' n' _ =>
      rw [numeric_ifElse] at ha hb
      simp [same, plain, same_iff_plain ha.1 hb.1, same_iff_plain ha.2.1 hb.2.1,
        same_iff_plain ha.2.2 hb.2.2, and_assoc]
    | _ => simp [same, plain]
  | lambda xs e _, b, ha, hb => by
    cases b with
    | lambda xs' e' _ =>
      rw [numeric_lambda] at ha hb
      simp [same, plain, same_iff_plain ha hb]
    | _ => simp [same, plain]
  | call f args _, b, ha, hb => by
    cases b with
    | call f' args' _ =>
      rw [numeric_call] at ha hb
      simp [same, plain, same_iff_plain ha.1 hb.1, sameAll_iff_plainAll ha.2 hb.2]
    | _ => simp [same, plain]
  | program body _, b, ha, hb => by
    cases b with
    | program body' _ =>
      rw [numeric_program] at ha hb
      simp [same, plain, sameAll_iff_plainAll ha hb]
    | _ => simp [same, plain]

theorem sameAll_iff_plainAll : ∀ {ns ms : List Node}, (∀ n ∈ ns, n.Numeric) → (∀ m ∈ ms, m.Numeric) →
    (sameAll ns ms = true ↔ plainAll ns = plainAll ms)
  | [], ms, _, _ => by cases ms <;> simp [sameAll, plainAll]
  | n :: ns, ms, hn, hm => by
    cases ms with
    | nil => simp [sameAll, plainAll]
    | cons m ms =>
      rw [List.forall_mem_cons] at hn hm
      simp [sameAll, plainAll, same_iff_plain hn.1 hm.1, sameAll_iff_plainAll hn.2 hm.2]

end

/-! ## Hashes -/

mutual

/-- Equal trees have one hash. -/
theorem hashCode_eq_of_same : ∀ {a b : Node}, a.same b = true → a.hashCode = b.hashCode
  | number v _, b, h => by
    cases b with
    | number w _ => rw [hashCode, hashCode, numberHash_eq h]
    | _ => cases h
  | string _ _, b, h | bool _ _, b, h | reference _ _, b, h | operator _ _, b, h => by
    cases b <;> simp_all [same, hashCode]
  | assign l r _, b, h => by
    cases b with
    | assign l' r' _ =>
      obtain ⟨hl, hr⟩ := Bool.and_eq_true_iff.mp h
      rw [hashCode, hashCode, hashCode_eq_of_same hl, hashCode_eq_of_same hr]
    | _ => cases h
  | binary x l r _, b, h => by
    cases b with
    | binary x' l' r' _ =>
      obtain ⟨hfront, hr⟩ := Bool.and_eq_true_iff.mp h
      obtain ⟨hx, hl⟩ := Bool.and_eq_true_iff.mp hfront
      rw [hashCode, hashCode, eq_of_beq hx, hashCode_eq_of_same hl, hashCode_eq_of_same hr]
    | _ => cases h
  | ifThen c p _, b, h => by
    cases b with
    | ifThen c' p' _ =>
      obtain ⟨hc, hp⟩ := Bool.and_eq_true_iff.mp h
      rw [hashCode, hashCode, hashCode_eq_of_same hc, hashCode_eq_of_same hp]
    | _ => cases h
  | ifElse c p n _, b, h => by
    cases b with
    | ifElse c' p' n' _ =>
      obtain ⟨hfront, hn⟩ := Bool.and_eq_true_iff.mp h
      obtain ⟨hc, hp⟩ := Bool.and_eq_true_iff.mp hfront
      rw [hashCode, hashCode, hashCode_eq_of_same hc, hashCode_eq_of_same hp, hashCode_eq_of_same hn]
    | _ => cases h
  | lambda xs e _, b, h => by
    cases b with
    | lambda xs' e' _ =>
      obtain ⟨hxs, he⟩ := Bool.and_eq_true_iff.mp h
      rw [hashCode, hashCode, eq_of_beq hxs, hashCode_eq_of_same he]
    | _ => cases h
  | call f args _, b, h => by
    cases b with
    | call f' args' _ =>
      obtain ⟨hf, hargs⟩ := Bool.and_eq_true_iff.mp h
      rw [hashCode, hashCode, hashCode_eq_of_same hf, hashAll_eq_of_sameAll hargs]
    | _ => cases h
  | program body _, b, h => by
    cases b with
    | program body' _ => rw [hashCode, hashCode, hashAll_eq_of_sameAll h]
    | _ => cases h

theorem hashAll_eq_of_sameAll : ∀ {ns ms : List Node}, sameAll ns ms = true → hashAll ns = hashAll ms
  | [], ms, h => by
    cases ms with
    | nil => rfl
    | cons => cases h
  | n :: ns, ms, h => by
    cases ms with
    | nil => cases h
    | cons m ms =>
      obtain ⟨hn, hns⟩ := Bool.and_eq_true_iff.mp h
      rw [hashAll, hashAll, hashCode_eq_of_same hn, hashAll_eq_of_sameAll hns]

end

instance : LawfulHashable Node := ⟨fun _ _ h => hashCode_eq_of_same h⟩

/-! ## Equality and data -/

theorem sameFields_cons {k : String} {d : Datum} {fs gs : List (String × Datum)} (h : ∀ f ∈ fs, f.1 ≠ k) :
    Datum.sameFields fs ((k, d) :: gs) = Datum.sameFields fs gs := by
  induction fs with
  | nil => simp [Datum.sameFields]
  | cons f fs ih =>
    obtain ⟨hf, hfs⟩ := List.forall_mem_cons.mp h
    obtain ⟨name, e⟩ := f
    simp [Datum.sameFields, Datum.field?, ih hfs, Ne.symm hf]

/-- Tagged records are equal if their tags are and their fields are. -/
theorem same_tagged {k k' : NodeKind} {fs gs : List (String × Datum)} (h : ∀ f ∈ fs, f.1 ≠ "type") :
    (tagged k fs).same (tagged k' gs) =
      (decide (k = k') && (fs.length == gs.length && Datum.sameFields fs gs)) := by
  have htag : (k.label == k'.label) = decide (k = k') := by
    cases k <;> cases k' <;> decide
  simp [tagged, Datum.same, Datum.sameFields, Datum.field?, sameFields_cons h, htag, Bool.and_left_comm]

theorem sameAll_texts (xs ys : List String) :
    Datum.sameAll (xs.map Datum.text) (ys.map Datum.text) = (xs == ys) := by
  induction xs generalizing ys with
  | nil => cases ys <;> simp [Datum.sameAll]
  | cons x xs ih => cases ys <;> simp [Datum.sameAll, Datum.same, ih]

theorem toDatum_eq_tagged (n : Node) :
    ∃ fields, n.toDatum = tagged n.kind fields ∧ ∀ f ∈ fields, f.1 ≠ "type" := by
  cases n <;> exact ⟨_, by rw [toDatum, kind], by simp⟩

/-- Trees of different kinds differ, and so do their data, in the label. -/
theorem same_toDatum_of_kind_ne {a b : Node} (h : a.kind ≠ b.kind) :
    a.toDatum.same b.toDatum = a.same b := by
  obtain ⟨fs, ha, hfs⟩ := toDatum_eq_tagged a
  obtain ⟨gs, hb, -⟩ := toDatum_eq_tagged b
  have hsame : a.same b = false := by
    cases a <;> cases b <;> first | rfl | exact absurd rfl h
  rw [ha, hb, same_tagged hfs, decide_eq_false h, Bool.false_and, hsame]

mutual

/-- Trees are equal if the data they are written as are. -/
theorem same_toDatum : ∀ a b : Node, a.toDatum.same b.toDatum = a.same b
  | number _ _, b | string _ _, b | bool _ _, b | reference _ _, b | operator _ _, b => by
    cases b <;> simp [toDatum, same_tagged, Datum.sameFields, Datum.field?, Datum.same, same]
  | assign l r _, b => by
    cases b with
    | assign l' r' _ =>
      simp [toDatum, same_tagged, Datum.sameFields, Datum.field?, Datum.same, same,
        same_toDatum l l', same_toDatum r r']
    | _ => exact same_toDatum_of_kind_ne nofun
  | binary x l r _, b => by
    cases b with
    | binary x' l' r' _ =>
      simp [toDatum, same_tagged, Datum.sameFields, Datum.field?, Datum.same, same,
        same_toDatum l l', same_toDatum r r', Bool.and_assoc]
    | _ => exact same_toDatum_of_kind_ne nofun
  | ifThen c p _, b => by
    cases b with
    | ifThen c' p' _ =>
      simp [toDatum, same_tagged, Datum.sameFields, Datum.field?, same, same_toDatum c c',
        same_toDatum p p']
    -- Of one kind, but with a field more.
    | ifElse => simp [toDatum, same_tagged, same]
    | _ => exact same_toDatum_of_kind_ne nofun
  | ifElse c p n _, b => by
    cases b with
    | ifElse c' p' n' _ =>
      simp [toDatum, same_tagged, Datum.sameFields, Datum.field?, same, same_toDatum c c',
        same_toDatum p p', same_toDatum n n', Bool.and_assoc]
    | ifThen => simp [toDatum, same_tagged, same]
    | _ => exact same_toDatum_of_kind_ne nofun
  | lambda xs e _, b => by
    cases b with
    | lambda xs' e' _ =>
      simp [toDatum, same_tagged, Datum.sameFields, Datum.field?, Datum.same, same, sameAll_texts,
        same_toDatum e e']
    | _ => exact same_toDatum_of_kind_ne nofun
  | call f args _, b => by
    cases b with
    | call f' args' _ =>
      simp [toDatum, same_tagged, Datum.sameFields, Datum.field?, Datum.same, same,
        same_toDatum f f', sameAll_toDatumAll args args']
    | _ => exact same_toDatum_of_kind_ne nofun
  | program body _, b => by
    cases b with
    | program body' _ =>
      simp [toDatum, same_tagged, Datum.sameFields, Datum.field?, Datum.same, same,
        sameAll_toDatumAll body body']
    | _ => exact same_toDatum_of_kind_ne nofun

theorem sameAll_toDatumAll :
    ∀ ns ms : List Node, Datum.sameAll (toDatumAll ns) (toDatumAll ms) = sameAll ns ms
  | [], ms => by cases ms <;> simp [toDatumAll, Datum.sameAll, sameAll]
  | n :: ns, ms => by
    cases ms with
    | nil => simp [toDatumAll, Datum.sameAll, sameAll]
    | cons m ms =>
      simp [toDatumAll, Datum.sameAll, sameAll, same_toDatum n m, sameAll_toDatumAll ns ms]

end

/-! ## Reading data -/

@[simp] theorem asTexts?_texts (xs : List String) : asTexts? (.list (xs.map Datum.text)) = some xs := by
  induction xs with
  | nil => rfl
  | cons x xs ih =>
    rw [asTexts?] at ih ⊢
    simp [asText?, ih]

/-- A record is read by its fields, the kind among them. -/
theorem node_read_tagged (k : NodeKind) (fields : List (String × Datum)) :
    (read (tagged k fields)).node =
      ofParts? (("type", ⟨.text k.label, none, none⟩) :: readFields fields) := by
  simp [tagged, read, readFields]

mutual

/-- The data of a tree are read as the tree without spans. -/
theorem node_read_toDatum : ∀ n : Node, (read n.toDatum).node = some n.bare
  | number _ _ | string _ _ | bool _ _ | reference _ _ | operator _ _ => by
    simp [toDatum, node_read_tagged, readFields, read, ofParts?, part?, asText?, asNumber?, asFlag?,
      NodeKind.ofLabel?_label, bare]
  | assign l r _ => by
    simp [toDatum, node_read_tagged, readFields, read, ofParts?, part?, asText?,
      NodeKind.ofLabel?_label, bare, node_read_toDatum l, node_read_toDatum r]
  | binary _ l r _ => by
    simp [toDatum, node_read_tagged, readFields, read, ofParts?, part?, asText?,
      NodeKind.ofLabel?_label, bare, node_read_toDatum l, node_read_toDatum r]
  | ifThen c p _ => by
    simp [toDatum, node_read_tagged, readFields, ofParts?, part?, asText?,
      NodeKind.ofLabel?_label, bare, node_read_toDatum c, node_read_toDatum p]
  | ifElse c p n _ => by
    simp [toDatum, node_read_tagged, readFields, ofParts?, part?, asText?, NodeKind.ofLabel?_label,
      bare, node_read_toDatum c, node_read_toDatum p, node_read_toDatum n]
  | lambda _ b _ => by
    simp [toDatum, node_read_tagged, readFields, read, ofParts?, part?, asText?,
      NodeKind.ofLabel?_label, bare, node_read_toDatum b]
  | call f args _ => by
    simp [toDatum, node_read_tagged, readFields, read, ofParts?, part?, asText?,
      NodeKind.ofLabel?_label, bare, node_read_toDatum f, readAll_toDatumAll args]
  | program body _ => by
    simp [toDatum, node_read_tagged, readFields, read, ofParts?, part?, asText?,
      NodeKind.ofLabel?_label, bare, readAll_toDatumAll body]

theorem readAll_toDatumAll : ∀ ns : List Node, readAll (toDatumAll ns) = some (bareAll ns)
  | [] => by simp [toDatumAll, readAll, bareAll]
  | n :: ns => by
    simp [toDatumAll, readAll, bareAll, node_read_toDatum n, readAll_toDatumAll ns]

end

mutual

theorem plain_bare : ∀ n : Node, n.bare.plain = n.plain
  | number _ _ | string _ _ | bool _ _ | reference _ _ | operator _ _ => rfl
  | assign l r _ => by rw [bare, plain, plain, plain_bare l, plain_bare r]
  | binary _ l r _ => by rw [bare, plain, plain, plain_bare l, plain_bare r]
  | ifThen c p _ => by rw [bare, plain, plain, plain_bare c, plain_bare p]
  | ifElse c p n _ => by rw [bare, plain, plain, plain_bare c, plain_bare p, plain_bare n]
  | lambda _ b _ => by rw [bare, plain, plain, plain_bare b]
  | call f args _ => by rw [bare, plain, plain, plain_bare f, plainAll_bareAll args]
  | program body _ => by rw [bare, plain, plain, plainAll_bareAll body]

theorem plainAll_bareAll : ∀ ns : List Node, plainAll (bareAll ns) = plainAll ns
  | [] => rfl
  | n :: ns => by rw [bareAll, plainAll, plainAll, plain_bare n, plainAll_bareAll ns]

end

mutual

@[simp] theorem numeric_bare : ∀ {n : Node}, n.bare.Numeric ↔ n.Numeric
  | number _ _ => by simp [bare]
  | string _ _ | bool _ _ | reference _ _ | operator _ _ => by simp [bare, Numeric, walk]
  | assign _ _ _ => by rw [bare, numeric_assign, numeric_assign, numeric_bare, numeric_bare]
  | binary _ _ _ _ => by rw [bare, numeric_binary, numeric_binary, numeric_bare, numeric_bare]
  | ifThen _ _ _ => by rw [bare, numeric_ifThen, numeric_ifThen, numeric_bare, numeric_bare]
  | ifElse _ _ _ _ => by
    rw [bare, numeric_ifElse, numeric_ifElse, numeric_bare, numeric_bare, numeric_bare]
  | lambda _ _ _ => by rw [bare, numeric_lambda, numeric_lambda, numeric_bare]
  | call _ _ _ => by rw [bare, numeric_call, numeric_call, numeric_bare, forall_numeric_bareAll]
  | program _ _ => by rw [bare, numeric_program, numeric_program, forall_numeric_bareAll]

theorem forall_numeric_bareAll : ∀ {ns : List Node}, (∀ n ∈ bareAll ns, n.Numeric) ↔ ∀ n ∈ ns, n.Numeric
  | [] => by simp [bareAll]
  | _ :: _ => by
    rw [bareAll, List.forall_mem_cons, List.forall_mem_cons, numeric_bare, forall_numeric_bareAll]

end

/-! ## Equality as a congruence -/

/-- What is made of related parts is related, whatever kind of node it is and wherever it stands. -/
structure Respected (r : Node → Node → Prop) : Prop where
  number {v w : Float} {s t : Option Span} : (v == w) = true → r (number v s) (number w t)
  string {x : String} {s t : Option Span} : r (string x s) (string x t)
  bool {b : Bool} {s t : Option Span} : r (bool b s) (bool b t)
  reference {x : String} {s t : Option Span} : r (reference x s) (reference x t)
  operator {x : String} {s t : Option Span} : r (operator x s) (operator x t)
  assign {a a' b b' : Node} {s t : Option Span} : r a a' → r b b' → r (assign a b s) (assign a' b' t)
  binary {x : String} {a a' b b' : Node} {s t : Option Span} :
    r a a' → r b b' → r (binary x a b s) (binary x a' b' t)
  ifThen {c c' p p' : Node} {s t : Option Span} : r c c' → r p p' → r (ifThen c p s) (ifThen c' p' t)
  ifElse {c c' p p' n n' : Node} {s t : Option Span} :
    r c c' → r p p' → r n n' → r (ifElse c p n s) (ifElse c' p' n' t)
  lambda {xs : List String} {e e' : Node} {s t : Option Span} :
    r e e' → r (lambda xs e s) (lambda xs e' t)
  call {f f' : Node} {args args' : List Node} {s t : Option Span} :
    r f f' → List.Forall₂ r args args' → r (call f args s) (call f' args' t)
  program {body body' : List Node} {s t : Option Span} :
    List.Forall₂ r body body' → r (program body s) (program body' t)

theorem beq_eq_same (a b : Node) : (a == b) = a.same b := rfl

theorem sameAll_of_forall₂ {ns ms : List Node} (h : List.Forall₂ (fun a b : Node => (a == b) = true) ns ms) :
    sameAll ns ms = true := by
  induction h with
  | nil => simp [sameAll]
  | cons hfirst _ ih =>
    rw [beq_eq_same] at hfirst
    simp [sameAll, hfirst, ih]

/-- Every kind of node respects equality. -/
theorem respected_beq : Respected fun a b : Node => (a == b) = true where
  number h := by simpa [beq_eq_same, same] using h
  string := by simp [beq_eq_same, same]
  bool := by simp [beq_eq_same, same]
  reference := by simp [beq_eq_same, same]
  operator := by simp [beq_eq_same, same]
  assign ha hb := by simpa [beq_eq_same, same] using And.intro ha hb
  binary ha hb := by simpa [beq_eq_same, same] using And.intro ha hb
  ifThen hc hp := by simpa [beq_eq_same, same] using And.intro hc hp
  ifElse hc hp hn := by simpa [beq_eq_same, same, and_assoc] using And.intro hc (And.intro hp hn)
  lambda he := by simpa [beq_eq_same, same] using he
  call hf hargs := by simpa [beq_eq_same, same, sameAll_of_forall₂ hargs] using hf
  program hbody := by simpa [beq_eq_same, same] using sameAll_of_forall₂ hbody

/-- Among trees without missing numbers equality is an equivalence. -/
theorem equivalence_beq : Equivalence fun a b : {n : Node // n.Numeric} => (a.1 == b.1) = true where
  refl a := (same_iff_plain a.2 a.2).mpr rfl
  symm {a b} h := (same_iff_plain b.2 a.2).mpr ((same_iff_plain a.2 b.2).mp h).symm
  trans {a b c} hab hbc :=
    (same_iff_plain a.2 c.2).mpr (((same_iff_plain a.2 b.2).mp hab).trans ((same_iff_plain b.2 c.2).mp hbc))

/-! ## All of it -/

/-- **Data keep all of a tree but its spans.** Trees without missing numbers are equal exactly if the
data they are written as are equal, and exactly if they are one tree without spans, up to the sign of
zero; this is an equivalence that every kind of node respects; and the data of a tree are read as a
tree equal to it. -/
theorem toDatum_lossless :
    (∀ a b : Node, a.Numeric → b.Numeric →
      ((a == b) = true ↔ (a.toDatum == b.toDatum) = true) ∧ ((a == b) = true ↔ a.plain = b.plain)) ∧
    Equivalence (fun a b : {n : Node // n.Numeric} => (a.1 == b.1) = true) ∧
    Respected (fun a b => (a == b) = true) ∧
    ∀ n : Node, n.Numeric → ofDatum? n.toDatum = some n.bare ∧ (n.bare == n) = true := by
  refine ⟨fun a b ha hb => ⟨?_, same_iff_plain ha hb⟩, equivalence_beq, respected_beq,
    fun n hn => ⟨?_, ?_⟩⟩
  · show a.same b = true ↔ a.toDatum.same b.toDatum = true
    rw [same_toDatum]
  · exact node_read_toDatum n
  · exact (same_iff_plain (numeric_bare.mpr hn) hn).mpr (plain_bare n)

/-- A conditional with zero in it and one with the other zero are equal, and so are their data. -/
theorem toDatum_lossless_zeros :
    (ifThen (reference "x" none) (number 0 none) none ==
      ifThen (reference "x" none) (number (-0) none) none) = true ∧
    ((ifThen (reference "x" none) (number 0 none) none).toDatum ==
      (ifThen (reference "x" none) (number (-0) none) none).toDatum) = true ∧
    ofDatum? (ifThen (reference "x" none) (number (-0) none) none).toDatum =
      some (ifThen (reference "x" none) (number (-0) none) none) := by
  have hzero : (ifThen (reference "x" none) (number 0 none) none).Numeric := by
    simp only [numeric_ifThen, numeric_number]
    exact ⟨by simp [Numeric, walk], by decide +kernel⟩
  have hminus : (ifThen (reference "x" none) (number (-0) none) none).Numeric := by
    simp only [numeric_ifThen, numeric_number]
    exact ⟨by simp [Numeric, walk], by decide +kernel⟩
  obtain ⟨hequal, -, -, hread⟩ := toDatum_lossless
  obtain ⟨hdata, hplain⟩ := hequal _ _ hzero hminus
  have hzeros := hplain.mpr (by simp [plain, unsigned_zero])
  exact ⟨hzeros, hdata.mp hzeros, (hread _ hminus).1⟩

/-- An assignment is no operation of its symbol. -/
example (a b : Node) : (assign a b none == binary assignSymbol a b none) = false := rfl

end Node
end LambdaReader
