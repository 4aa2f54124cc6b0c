import LambdaReader.Parser.Program

/-!
# `Proofs.Reads.Basic` — what a list of tokens is read as

`Reads` is the contract of the parser on tokens that are all there: a judgement that says which nodes
a task gives, from which place among the tokens to which. It has one rule for each way a piece of the
grammar can be read, and each rule says when it is chosen, so that no place is read in two ways. Fuel,
look-ahead and the journal do not occur in it; levels of nesting do, since what is nested too deeply is
not read.
-/

namespace LambdaReader

/-! ## Places among tokens -/

/-- The token is of a kind and stands for a text. -/
def Token.is (t : Token) (kind : TokenKind) (text : String) : Bool := t.kind = kind && t.hasText text

/-- The token is an operator that binds tighter than `bound`. -/
def Token.Tighter (t : Token) (bound : Int) : Prop :=
  t.kind = .operator ∧ bound < (Precedence.ofSymbol t.text).strength

instance (t : Token) (bound : Int) : Decidable (t.Tighter bound) :=
  inferInstanceAs (Decidable (_ ∧ _))

theorem Token.eq_of_hasText {t : Token} {x y : String} (hx : t.hasText x = true)
    (hy : t.hasText y = true) : x = y := by
  unfold Token.hasText at hx hy
  cases hv : t.value with
  | text u => rw [hv] at hx hy; exact (eq_of_beq hx).symm.trans (eq_of_beq hy)
  | number v => rw [hv] at hx; cases hx
  | integer v => rw [hv] at hx; cases hx

theorem Token.kind_of_is {t : Token} {kind : TokenKind} {x : String} (h : t.is kind x = true) :
    t.kind = kind :=
  of_decide_eq_true (Bool.and_eq_true_iff.mp h).1

theorem Token.text_of_is {t : Token} {kind : TokenKind} {x : String} (h : t.is kind x = true) :
    t.text = x := by
  have hx : t.hasText x = true := (Bool.and_eq_true_iff.mp h).2
  unfold Token.hasText at hx
  unfold Token.text
  cases hv : t.value with
  | text u => rw [hv] at hx; exact eq_of_beq hx
  | number v => rw [hv] at hx; cases hx
  | integer v => rw [hv] at hx; cases hx

/-- A token that is one thing is nothing else. -/
theorem Token.is_eq {t : Token} {kind : TokenKind} {x : String} (h : t.is kind x = true)
    (kind' : TokenKind) (y : String) : t.is kind' y = (decide (kind = kind') && x == y) := by
  obtain ⟨hk, hx⟩ := Bool.and_eq_true_iff.mp h
  rw [Token.is, of_decide_eq_true hk]
  by_cases hxy : x = y
  · rw [← hxy, hx, beq_self_eq_true]
  · have hy : t.hasText y = false := Bool.eq_false_iff.mpr fun hy => hxy (eq_of_hasText hx hy)
    rw [hy, beq_false_of_ne hxy]

/-- The token taken last and the tokens that are left. -/
structure Spot where
  last : Option Token
  rest : List Token

namespace Spot

/-- The next token is of a kind and stands for a text. -/
def isAt (s : Spot) (kind : TokenKind) (text : String) : Bool :=
  s.rest.head?.any fun t => t.is kind text

/-- The next token is an operator that binds tighter than `bound`. -/
def Tighter (s : Spot) (bound : Int) : Prop := ∃ t, s.rest.head? = some t ∧ t.Tighter bound

/-- The span from a location to the token taken last. -/
def spanFrom (s : Spot) (first : Location) : Span := ⟨first, (s.last.map Token.location).getD first⟩

/-- The span from the next token to the one taken last at `s'`. -/
def spanTo (s s' : Spot) : Option Span := s.rest.head?.map fun t => s'.spanFrom t.location

/-- Taking a token of a kind that stands for a text. -/
inductive Passes (kind : TokenKind) (text : String) : Spot → Spot → Prop where
  | intro {last : Option Token} {t : Token} {rest : List Token} :
    t.is kind text = true → Passes kind text ⟨last, t :: rest⟩ ⟨some t, rest⟩

/-- Taking a variable. -/
inductive Names : Spot → String → Spot → Prop where
  | intro {last : Option Token} {t : Token} {rest : List Token} :
    t.kind = .identifier → Names ⟨last, t :: rest⟩ t.text ⟨some t, rest⟩

@[simp] theorem isAt_cons (last : Option Token) (t : Token) (rest : List Token) (kind : TokenKind)
    (text : String) : isAt ⟨last, t :: rest⟩ kind text = t.is kind text := rfl

/-- A place where a token can be taken is at that token and at no other. -/
theorem Passes.isAt {kind : TokenKind} {x : String} {s s' : Spot} (h : s.Passes kind x s')
    (kind' : TokenKind) (y : String) : s.isAt kind' y = (decide (kind = kind') && x == y) := by
  obtain ⟨ht⟩ := h
  rw [isAt_cons, Token.is_eq ht]

/-- Passing over the keyword before a positive branch, which a block does not need. -/
inductive Then : Spot → Spot → Prop where
  | block {s : Spot} : s.isAt .punctuation "\x7b" = true → Then s s
  | word {s s' : Spot} : s.Passes .keyword "then" s' → Then s s'

end Spot

/-! ## Nodes -/

/-- The node of a token that is one by itself. -/
def Token.leaf? (t : Token) : Option Node :=
  let span := some ⟨t.location, t.location⟩
  match t.kind with
  | .identifier => some (.reference t.text span)
  | .number => t.number?.map fun x => .number x span
  | .string => some (.string t.text span)
  | .operator => some (.operator t.text span)
  | .punctuation | .keyword => none

namespace Node

/-- The node of an operator and its operands, which has a span if both have. -/
def joined (symbol : String) (left right : Node) : Node :=
  let span := left.span.bind fun a => right.span.map fun b => ⟨a.first, b.last⟩
  if symbol = assignSymbol then .assign left right span else .binary symbol left right span

/-- The call of a node whose arguments end at a place. -/
def called (callee : Node) (args : List Node) (s : Spot) : Node :=
  .call callee args (callee.span.map fun a => s.spanFrom a.first)

/-- The node of a block. -/
def blocked : List Node → Option Span → Node
  | [], span => .bool false span
  | [n], _ => n
  | body, span => .program body span

/-- The keyword of a truth value. -/
def boolWord : Bool → String
  | true => "true"
  | false => "false"

end Node

/-! ## Readings -/

/-- Items with separators between them up to the closing mark and over it; `first` tells that none was
read yet. -/
inductive Sequence {α : Type} (o : ParseOptions) (item : Spot → α → Spot → Prop)
    (stop separator : String) : Bool → Spot → List α → Spot → Prop where
  | close {first : Bool} {s s' : Spot} :
    s.Passes .punctuation stop s' → Sequence o item stop separator first s [] s'
  | trailing {s s₁ s₂ : Spot} :
    o.trailingSeparators = true → s.Passes .punctuation separator s₁ →
    s₁.Passes .punctuation stop s₂ → Sequence o item stop separator false s [] s₂
  | first {s s₁ s₂ : Spot} {x : α} {xs : List α} :
    item s x s₁ → Sequence o item stop separator false s₁ xs s₂ →
    Sequence o item stop separator true s (x :: xs) s₂
  | more {s s₁ s₂ s₃ : Spot} {x : α} {xs : List α} :
    s.Passes .punctuation separator s₁ → item s₁ x s₂ →
    Sequence o item stop separator false s₂ xs s₃ →
    Sequence o item stop separator false s (x :: xs) s₃

/-- What there is to read, with the levels that are left. -/
inductive Task where
  /-- The expressions of a program up to its end. -/
  | statements (n : Nat)
  | expression (n : Nat)
  /-- An operand with the operators that bind tighter than a bound. -/
  | operand (n : Nat) (bound : Int)
  /-- The operators that bind tighter than a bound, folded onto what is on their left. -/
  | operators (n : Nat) (left : Node) (bound : Int)
  | atom (n : Nat)
  /-- An atom before its call. -/
  | primary (n : Nat)
  /-- The call of a node, if there is one. -/
  | suffix (n : Nat) (callee : Node)
  /-- Expressions with separators between them, up to the closing mark and over it. -/
  | sequence (n : Nat) (stop separator : String) (first : Bool)

/-- From one place to another a task gives these nodes: several for statements and sequences, one for
every other task. -/
inductive Reads (o : ParseOptions) : Task → Spot → List Node → Spot → Prop where
  | done {n : Nat} {s : Spot} : s.rest = [] → Reads o (.statements n) s [] s
  | last {n : Nat} {s s₁ : Spot} {e : Node} :
    Reads o (.expression n) s [e] s₁ → s₁.rest = [] → Reads o (.statements n) s [e] s₁
  | next {n : Nat} {s s₁ s₂ s₃ : Spot} {e : Node} {es : List Node} :
    Reads o (.expression n) s [e] s₁ → s₁.Passes .punctuation ";" s₂ →
    Reads o (.statements n) s₂ es s₃ → Reads o (.statements n) s (e :: es) s₃
  | expression {n : Nat} {s s₁ s₂ s₃ : Spot} {first whole e : Node} :
    Reads o (.atom n) s [first] s₁ →
    Reads o (.operators n first Precedence.nothing.strength) s₁ [whole] s₂ →
    Reads o (.suffix n whole) s₂ [e] s₃ → Reads o (.expression (n + 1)) s [e] s₃
  | operand {n : Nat} {bound : Int} {s s₁ s₂ : Spot} {first e : Node} :
    Reads o (.atom n) s [first] s₁ → Reads o (.operators n first bound) s₁ [e] s₂ →
    Reads o (.operand (n + 1) bound) s [e] s₂
  | settled {n : Nat} {left : Node} {bound : Int} {s : Spot} :
    ¬ s.Tighter bound → Reads o (.operators n left bound) s [left] s
  | fold {n : Nat} {left right e : Node} {bound : Int} {l : Option Token} {t : Token}
      {rest : List Token} {s₁ s₂ : Spot} :
    t.Tighter bound →
    Reads o (.operand n (Parser.rightBound o t.text)) ⟨some t, rest⟩ [right] s₁ →
    Reads o (.operators n (.joined t.text left right) bound) s₁ [e] s₂ →
    Reads o (.operators (n + 1) left bound) ⟨l, t :: rest⟩ [e] s₂
  | atom {n : Nat} {s s₁ s₂ : Spot} {first e : Node} :
    Reads o (.primary n) s [first] s₁ → Reads o (.suffix n first) s₁ [e] s₂ →
    Reads o (.atom n) s [e] s₂
  | bare {n : Nat} {callee : Node} {s : Spot} :
    s.isAt .punctuation "(" = false → Reads o (.suffix n callee) s [callee] s
  | call {n : Nat} {callee : Node} {args : List Node} {s s₁ s₂ : Spot} :
    s.Passes .punctuation "(" s₁ → Reads o (.sequence n ")" "," true) s₁ args s₂ →
    Reads o (.suffix n callee) s [.called callee args s₂] s₂
  | group {n : Nat} {s s₁ s₂ s₃ : Spot} {e : Node} :
    s.Passes .punctuation "(" s₁ → Reads o (.expression n) s₁ [e] s₂ →
    s₂.Passes .punctuation ")" s₃ → Reads o (.primary n) s [e] s₃
  | block {n : Nat} {s s₁ s₂ : Spot} {body : List Node} :
    s.Passes .punctuation "\x7b" s₁ → Reads o (.sequence n "\x7d" ";" true) s₁ body s₂ →
    Reads o (.primary n) s [.blocked body (s.spanTo s₂)] s₂
  | ifThen {n : Nat} {s s₁ s₂ s₃ s₄ : Spot} {c p : Node} :
    s.Passes .keyword "if" s₁ → Reads o (.expression n) s₁ [c] s₂ → s₂.Then s₃ →
    Reads o (.expression n) s₃ [p] s₄ → s₄.isAt .keyword "else" = false →
    Reads o (.primary n) s [.ifThen c p (s.spanTo s₄)] s₄
  | ifElse {n : Nat} {s s₁ s₂ s₃ s₄ s₅ s₆ : Spot} {c p q : Node} :
    s.Passes .keyword "if" s₁ → Reads o (.expression n) s₁ [c] s₂ → s₂.Then s₃ →
    Reads o (.expression n) s₃ [p] s₄ → s₄.Passes .keyword "else" s₅ →
    Reads o (.expression n) s₅ [q] s₆ →
    Reads o (.primary n) s [.ifElse c p q (s.spanTo s₆)] s₆
  | lambda {n : Nat} {s s₁ s₂ s₃ s₄ : Spot} {params : List String} {b : Node} :
    s.Passes .keyword "lambda" s₁ → s₁.Passes .punctuation "(" s₂ →
    Sequence o Spot.Names ")" "," true s₂ params s₃ → Reads o (.expression n) s₃ [b] s₄ →
    Reads o (.primary n) s [.lambda params b (s.spanTo s₄)] s₄
  | truth {n : Nat} {s s₁ : Spot} {b : Bool} :
    s.Passes .keyword (Node.boolWord b) s₁ → Reads o (.primary n) s [.bool b (s.spanTo s₁)] s₁
  | leaf {n : Nat} {l : Option Token} {t : Token} {rest : List Token} {a : Node} :
    t.leaf? = some a → Reads o (.primary n) ⟨l, t :: rest⟩ [a] ⟨some t, rest⟩
  | seqClose {n : Nat} {stop separator : String} {first : Bool} {s s' : Spot} :
    s.Passes .punctuation stop s' → Reads o (.sequence n stop separator first) s [] s'
  | seqTrailing {n : Nat} {stop separator : String} {s s₁ s₂ : Spot} :
    o.trailingSeparators = true → s.Passes .punctuation separator s₁ →
    s₁.Passes .punctuation stop s₂ → Reads o (.sequence n stop separator false) s [] s₂
  | seqFirst {n : Nat} {stop separator : String} {s s₁ s₂ : Spot} {e : Node} {es : List Node} :
    Reads o (.expression n) s [e] s₁ → Reads o (.sequence n stop separator false) s₁ es s₂ →
    Reads o (.sequence n stop separator true) s (e :: es) s₂
  | seqMore {n : Nat} {stop separator : String} {s s₁ s₂ s₃ : Spot} {e : Node} {es : List Node} :
    s.Passes .punctuation separator s₁ → Reads o (.expression n) s₁ [e] s₂ →
    Reads o (.sequence n stop separator false) s₂ es s₃ →
    Reads o (.sequence n stop separator false) s (e :: es) s₃

/-- The items of a call or of a block are a sequence of expressions. -/
theorem reads_sequence_iff {o : ParseOptions} {n : Nat} {stop separator : String} {first : Bool}
    {s s' : Spot} {es : List Node} :
    Reads o (.sequence n stop separator first) s es s' ↔
      Sequence o (fun s e s' => Reads o (.expression n) s [e] s') stop separator first s es s' := by
  constructor
  · intro h
    generalize htask : Task.sequence n stop separator first = task at h
    induction h generalizing first with cases htask
    | seqClose hstop => exact .close hstop
    | seqTrailing ho hsep hstop => exact .trailing ho hsep hstop
    | seqFirst he _ _ ih => exact .first he (ih rfl)
    | seqMore hsep he _ _ ih => exact .more hsep he (ih rfl)
  · intro h
    induction h with
    | close hstop => exact .seqClose hstop
    | trailing ho hsep hstop => exact .seqTrailing ho hsep hstop
    | first he _ ih => exact .seqFirst he ih
    | more hsep he _ ih => exact .seqMore hsep he ih

end LambdaReader
