import LambdaReader.Proofs.Calls
import LambdaReader.Proofs.ReadBack

/-!
# `Proofs.Composition` — expressions made of expressions

The tokens of expressions are put together to the tokens of a larger one, and the tree of the whole has
the trees of the parts in it. `Composed` lists the ways to do so, each of which puts marks or keywords
around its parts: parentheses and braces, blocks, calls, functions, conditionals and operators.

A part is known by what it is parsed as up to the end of its tokens. In the whole something comes after
it, and the parser must not go on there: what follows a part is a token that no expression goes on with
(`Token.Ends`), unless the part stands in parentheses or at the end.

## Main result
- `Composed.parse_hasTree`: what is put together from expressions is parsed as what the trees of the
  parts are put together to.
-/

namespace LambdaReader

open Spot TokenSource

/-! ## Tokens of an expression -/

/-- The tokens do not end with a semicolon. -/
def Token.Unterminated (ts : List Token) : Prop :=
  ∀ t, ts.getLast? = some t → t.is .punctuation ";" = false

/-- With some limit of nesting the tokens are parsed as exactly this expression, and they do not end with
a semicolon. -/
def ExpressionText (o : ParseOptions) (ts : List Token) (e : Node) : Prop :=
  Token.Unterminated ts ∧ ∃ (d : Int) (start finish : Location) (span : Option Span),
    Replay.parse { o with maxDepth := d } ⟨ts, .done finish, start⟩ = .ok (.program [e] span)

/-- With every limit of nesting that is large enough all sources of these tokens are parsed as exactly
one expression, which is this tree but for spans, and the tokens do not end with a semicolon. -/
def HasTree (o : ParseOptions) (ts : List Token) (n : Node) : Prop :=
  Token.Unterminated ts ∧ ∃ k : Nat, ∀ d : Int, k ≤ d → ∃ e, e.bare = n.bare ∧
    ∀ {σ : Type} [TokenSource σ] [LawfulTokenSource σ] (source : σ) (finish : Location),
      drain source = (ts, .done finish) → ∃ span,
        (TokenSource.read { o with maxDepth := d } source).result = .ok (.program [e] span)

section Texts

variable {o : ParseOptions} {k : Nat} {l : Option Token} {ts us : List Token} {e n : Node}

/-- Such tokens are an expression again, so what is put together can be part of something else. -/
theorem HasTree.expressionText (h : HasTree o ts n) : ∃ e, e.bare = n.bare ∧ ExpressionText o ts e := by
  obtain ⟨hts, k, hk⟩ := h
  obtain ⟨e, hbare, hparse⟩ := hk k (Int.le_refl _)
  let l := Location.start ""
  obtain ⟨span, hspan⟩ := hparse (⟨ts, .done l, l⟩ : Replay) l (Replay.drain_done ts l l)
  exact ⟨e, hbare, hts, k, l, l, span, hspan⟩

theorem HasTree.congr (h : HasTree o ts n) (hbare : n.bare = e.bare) : HasTree o ts e := by
  obtain ⟨hts, k, hk⟩ := h
  refine ⟨hts, k, fun d hd => ?_⟩
  obtain ⟨m, hm, hparse⟩ := hk d hd
  exact ⟨m, hm.trans hbare, hparse⟩

/-- Behind a semicolon that a statement ends with there are more tokens, if no semicolon is the last one. -/
theorem Reads.unterminated_behind {task : Task} {s s₁ s₂ : Spot} {ns : List Node} (h : Reads o task s ns s₁)
    (hsep : s₁.Passes .punctuation ";" s₂) (hs : Token.Unterminated s.rest) :
    s₂.rest ≠ [] ∧ Token.Unterminated s₂.rest := by
  obtain ⟨xs, hxs, _⟩ := h.takes
  obtain ⟨t, ht, htake⟩ := hsep.takes
  have hall : s.rest = xs ++ [t] ++ s₂.rest := (hxs.append htake).1
  have hne : s₂.rest ≠ [] := by
    intro hnil
    rw [hnil, List.append_nil] at hall
    have hlast := hs t (by rw [hall]; exact List.getLast?_concat)
    rw [ht] at hlast
    cases hlast
  refine ⟨hne, fun u hu => hs u ?_⟩
  rw [hall, List.getLast?_append_of_ne_nil _ hne]
  exact hu

/-- The tokens are read as the expression with some number of levels. -/
theorem ExpressionText.reads (h : ExpressionText o ts e) : ∃ k, ReadsExpression o k ts e := by
  obtain ⟨hts, d, start, finish, span, hparse⟩ := h
  have hdrain := Replay.drain_done ts finish start
  have hdone : (drain (⟨ts, .done finish, start⟩ : Replay)).2 = .done finish := by rw [hdrain]
  obtain ⟨body, s', hbody, hprogram⟩ := (TokenSource.read_eq_ok_iff hdone _).mp hparse
  rw [hdrain] at hbody
  obtain ⟨rfl, _⟩ := Node.program.inj hprogram
  refine ⟨d.toNat, fun l => ?_⟩
  cases hbody with
  | last he hrest =>
    obtain ⟨last, _ | _⟩ := s'
    · exact ⟨last, (he.forget trivial l).limit o.maxDepth⟩
    · cases hrest
  | next he hsep hnil =>
    cases hnil with
    | done hrest => exact absurd hrest (he.unterminated_behind hsep hts).1

theorem ReadsExpression.expressionText (h : ReadsExpression o k ts e) (hts : Token.Unterminated ts) :
    ExpressionText o ts e := by
  obtain ⟨l', hreads⟩ := h none
  let l := Location.start ""
  obtain ⟨span, hspan⟩ :=
    TokenSource.read_of_reads (Replay.drain_done ts l l) hreads (Int.le_refl (k : Int))
  exact ⟨hts, k, l, l, span, hspan⟩

theorem ReadsExpression.ne_nil (h : ReadsExpression o k ts e) : ts ≠ [] := by
  rintro rfl
  obtain ⟨l', hreads⟩ := h none
  exact Nat.not_lt_zero _ (hreads.length_lt trivial)

/-- What is read as an expression up to its end has the tree of that expression. -/
theorem Reads.hasTree (h : Reads o (.expression k) ⟨none, ts⟩ [e] ⟨l, []⟩) (hbare : e.bare = n.bare)
    (hts : Token.Unterminated ts) : HasTree o ts n :=
  ⟨hts, k, fun _ hd => ⟨e, hbare, fun _ _ hdrain => TokenSource.read_of_reads hdrain h hd⟩⟩

/-- So is a primary that nothing comes after. -/
theorem Reads.hasTree_primary (h : Reads o (.primary k) ⟨none, ts⟩ [e] ⟨l, []⟩) (hbare : e.bare = n.bare)
    (hts : Token.Unterminated ts) : HasTree o ts n :=
  (h.alone (rests_of_rest_eq_nil rfl)).hasTree hbare hts

theorem Token.Unterminated.behind (h : Unterminated us) (hne : us ≠ []) (ts : List Token) :
    Unterminated (ts ++ us) := by
  intro t ht
  rw [List.getLast?_append_of_ne_nil ts hne] at ht
  exact h t ht

end Texts

/-! ## Lists of items -/

/-- The tokens stand between two marks. -/
inductive Enclosed (start stop : String) (ts : List Token) : List Token → Prop where
  | intro {opening closing : Token} : opening.is .punctuation start = true →
    closing.is .punctuation stop = true → Enclosed start stop ts (opening :: (ts ++ [closing]))

/-- Items with separators between them. -/
inductive Separated {α : Type} (separator : String) (Item : List Token → α → Prop) :
    List Token → List α → Prop where
  | one {ts : List Token} {x : α} : Item ts x → Separated separator Item ts [x]
  | more {ts us : List Token} {mark : Token} {x : α} {xs : List α} : Item ts x →
    mark.is .punctuation separator = true → Separated separator Item us xs →
    Separated separator Item (ts ++ mark :: us) (x :: xs)

/-- Any number of items with separators between them, between two marks. -/
inductive Delimited {α : Type} (start stop separator : String) (Item : List Token → α → Prop) :
    List Token → List α → Prop where
  | empty {ts : List Token} : Enclosed start stop [] ts → Delimited start stop separator Item ts []
  | filled {ts us : List Token} {xs : List α} : Separated separator Item us xs →
    Enclosed start stop us ts → Delimited start stop separator Item ts xs

/-- The token of a parameter. -/
inductive IsParameter : List Token → String → Prop where
  | intro {t : Token} : t.kind = .identifier → IsParameter [t] t.text

section Lists

variable {α : Type} {start stop separator : String} {Item Item' : List Token → α → Prop}
  {ts us : List Token} {xs : List α} {o : ParseOptions} {k : Nat} {e : Node} {es : List Node}

theorem Enclosed.unterminated (h : Enclosed start stop ts us) (hstop : stop ≠ ";") :
    Token.Unterminated us ∧ us ≠ [] := by
  obtain ⟨_, hclose⟩ := h
  refine ⟨fun t ht => ?_, List.cons_ne_nil _ _⟩
  rw [← List.cons_append, List.getLast?_concat] at ht
  obtain rfl := Option.some.inj ht
  rw [Token.is_eq hclose]
  simp [hstop]

theorem Delimited.unterminated (h : Delimited start stop separator Item ts xs) (hstop : stop ≠ ";") :
    Token.Unterminated ts ∧ ts ≠ [] := by
  cases h with
  | empty h => exact h.unterminated hstop
  | filled _ h => exact h.unterminated hstop

theorem Separated.imp (h : Separated separator Item ts xs) (hitem : ∀ {ts x}, Item ts x → Item' ts x) :
    Separated separator Item' ts xs := by
  induction h with
  | one hx => exact .one (hitem hx)
  | more hx hmark _ ih => exact .more (hitem hx) hmark ih

/-- Some number of levels is enough for all of the expressions. -/
theorem Separated.reads (h : Separated separator (ExpressionText o) ts es) :
    ∃ k, Separated separator (ReadsExpression o k) ts es := by
  induction h with
  | one he =>
    obtain ⟨k, he⟩ := he.reads
    exact ⟨k, .one he⟩
  | more he hmark _ ih =>
    obtain ⟨i, he⟩ := he.reads
    obtain ⟨j, hes⟩ := ih
    exact ⟨max i j, .more (he.mono (Nat.le_max_left i j)) hmark
      (hes.imp fun h => h.mono (Nat.le_max_right i j))⟩

theorem Delimited.reads (h : Delimited start stop separator (ExpressionText o) ts es) :
    ∃ k, ∀ m, k ≤ m → Delimited start stop separator (ReadsExpression o m) ts es := by
  cases h with
  | empty h => exact ⟨0, fun m _ => .empty h⟩
  | filled hes h =>
    obtain ⟨k, hes⟩ := hes.reads
    exact ⟨k, fun m hm => .filled (hes.imp fun he => he.mono hm) h⟩

variable {item : Spot → α → Spot → Prop}

/-- Items that can be read before a token that ends them are read up to the closing mark. -/
theorem Separated.sequence (h : Separated separator Item ts xs)
    (hitem : ∀ {ts x}, Item ts x → ∀ {t : Token}, t.Ends → ∀ us l,
      ∃ l', item ⟨l, ts ++ t :: us⟩ x ⟨l', t :: us⟩)
    (hseparator : separator ≠ "(") (hstop : stop ≠ "(") {closing : Token}
    (hclose : closing.is .punctuation stop = true) (rest : List Token) (l : Option Token) :
    ∃ x xs' s, xs = x :: xs' ∧ item ⟨l, ts ++ closing :: rest⟩ x s ∧
      Sequence o item stop separator false s xs' ⟨some closing, rest⟩ := by
  induction h generalizing l with
  | one hx =>
    obtain ⟨l', hx⟩ := hitem hx (Token.closes_of_is hclose hstop).ends rest l
    exact ⟨_, [], _, rfl, hx, .close ⟨hclose⟩⟩
  | @more ts us mark x xs hx hmark _ ih =>
    obtain ⟨l', hx⟩ := hitem hx (Token.closes_of_is hmark hseparator).ends (us ++ closing :: rest) l
    obtain ⟨y, ys, s, rfl, hy, hys⟩ := ih (some mark)
    rw [List.append_assoc, List.cons_append]
    exact ⟨x, y :: ys, _, rfl, hx, .more ⟨hmark⟩ hy hys⟩

theorem Delimited.sequence (h : Delimited start stop separator Item ts xs)
    (hitem : ∀ {ts x}, Item ts x → ∀ {t : Token}, t.Ends → ∀ us l,
      ∃ l', item ⟨l, ts ++ t :: us⟩ x ⟨l', t :: us⟩)
    (hseparator : separator ≠ "(") (hstop : stop ≠ "(") (rest : List Token) (l : Option Token) :
    ∃ s l', Passes .punctuation start ⟨l, ts ++ rest⟩ s ∧
      Sequence o item stop separator true s xs ⟨l', rest⟩ := by
  cases h with
  | empty h =>
    obtain ⟨hopen, hclose⟩ := h
    exact ⟨_, _, ⟨hopen⟩, .close ⟨hclose⟩⟩
  | filled hxs h =>
    obtain @⟨opening, closing, hopen, hclose⟩ := h
    obtain ⟨x, xs, s, rfl, hx, hxs⟩ :=
      hxs.sequence (o := o) hitem hseparator hstop hclose rest (some opening)
    rw [List.cons_append, List.append_assoc]
    exact ⟨_, _, ⟨hopen⟩, .first hx hxs⟩

/-- Expressions are read one after the other. -/
theorem Delimited.expressions (h : Delimited start stop separator (ReadsExpression o k) ts es)
    (hseparator : separator ≠ "(") (hstop : stop ≠ "(") (rest : List Token) (l : Option Token) :
    ∃ s l', Passes .punctuation start ⟨l, ts ++ rest⟩ s ∧
      Reads o (.sequence k stop separator true) s es ⟨l', rest⟩ := by
  obtain ⟨s, l', hopen, hes⟩ : ∃ s l', _ ∧
      Sequence o (fun s e s' => Reads o (.expression k) s [e] s') stop separator true s es ⟨l', rest⟩ :=
    h.sequence (fun he _ ht us l => he.before ht us l) hseparator hstop rest l
  exact ⟨s, l', hopen, reads_sequence_iff.mpr hes⟩

/-- An expression in parentheses is read, whatever comes after it. -/
theorem Enclosed.group (h : Enclosed "(" ")" ts us) (he : ReadsExpression o k ts e) (rest : List Token)
    (l : Option Token) : ∃ l', Reads o (.primary k) ⟨l, us ++ rest⟩ [e] ⟨l', rest⟩ := by
  obtain @⟨opening, closing, hopen, hclose⟩ := h
  obtain ⟨l', he⟩ := he.before (Token.closes_of_is hclose (by decide)).ends rest (some opening)
  rw [List.cons_append, List.append_assoc]
  exact ⟨_, .group ⟨hopen⟩ he ⟨hclose⟩⟩

end Lists

/-! ## Ways to put expressions together -/

/-- The tokens are put together from those of expressions, and the tree from the trees of these. -/
inductive Composed (o : ParseOptions) : List Token → Node → Prop where
  /-- Parentheses leave no node. -/
  | group {as ts : List Token} {a : Node} : ExpressionText o as a → Enclosed "(" ")" as ts →
    Composed o ts a
  /-- Nor do braces around a single expression. -/
  | braces {as ts : List Token} {a : Node} : ExpressionText o as a → Enclosed "\x7b" "\x7d" as ts →
    Composed o ts a
  | block {ts : List Token} {a b : Node} {es : List Node} :
    Delimited "\x7b" "\x7d" ";" (ExpressionText o) ts (a :: b :: es) →
    Composed o ts (.program (a :: b :: es) none)
  | call {as us ts : List Token} {a : Node} {es : List Node} : ExpressionText o as a →
    Enclosed "(" ")" as us → Delimited "(" ")" "," (ExpressionText o) ts es →
    Composed o (us ++ ts) (.call a es none)
  | lambda {word : Token} {ts as : List Token} {params : List String} {a : Node} :
    word.is .keyword "lambda" = true → Delimited "(" ")" "," IsParameter ts params →
    ExpressionText o as a → Composed o (word :: (ts ++ as)) (.lambda params a none)
  | ifThen {word consequent : Token} {as bs : List Token} {a b : Node} :
    word.is .keyword "if" = true → ExpressionText o as a → consequent.is .keyword "then" = true →
    ExpressionText o bs b → Composed o (word :: (as ++ consequent :: bs)) (.ifThen a b none)
  | ifElse {word consequent alternative : Token} {as bs us cs : List Token} {a b c : Node} :
    word.is .keyword "if" = true → ExpressionText o as a → consequent.is .keyword "then" = true →
    ExpressionText o bs b → Enclosed "(" ")" bs us → alternative.is .keyword "else" = true →
    ExpressionText o cs c →
    Composed o (word :: (as ++ consequent :: (us ++ alternative :: cs))) (.ifElse a b c none)
  | assign {operator : Token} {as us bs vs : List Token} {a b : Node} : ExpressionText o as a →
    Enclosed "(" ")" as us → operator.is .operator Node.assignSymbol = true → ExpressionText o bs b →
    Enclosed "(" ")" bs vs → Composed o (us ++ operator :: vs) (.assign a b none)
  | binary {operator : Token} {as us bs vs : List Token} {a b : Node} : ExpressionText o as a →
    Enclosed "(" ")" as us → operator.kind = .operator →
    (Precedence.table.lookup operator.text).isSome = true → operator.text ≠ Node.assignSymbol →
    ExpressionText o bs b → Enclosed "(" ")" bs vs →
    Composed o (us ++ operator :: vs) (.binary operator.text a b none)

section Forms

variable {o : ParseOptions} {i j k : Nat} {as bs us vs ts : List Token} {a b n : Node} {operator : Token}

/-- Nothing goes on before a token that opens no call and is no operator. -/
theorem Spot.rests_cons {t : Token} (hcall : t.is .punctuation "(" = false) (hkind : t.kind ≠ .operator)
    (l : Option Token) (rest : List Token) : Rests ⟨l, t :: rest⟩ := by
  refine ⟨hcall, fun bound => ?_⟩
  rintro ⟨u, hu, htight⟩
  obtain rfl := Option.some.inj hu
  exact hkind htight.1

/-- Operands in parentheses are read as what an operator between them joins. -/
theorem Enclosed.joined (has : Enclosed "(" ")" as us) (ha : ReadsExpression o i as a)
    (hbs : Enclosed "(" ")" bs vs) (hb : ReadsExpression o j bs b)
    (hoperator : Grammar.Mark.binary.fits operator = true)
    (hbare : (Node.joined operator.text a b).bare = n.bare) :
    HasTree o (us ++ operator :: vs) n := by
  have hkind : operator.kind = .operator := (Grammar.tighter_zero_iff.mpr hoperator).1
  have hcall : operator.is .punctuation "(" = false := Grammar.Mark.not_is_of_fits hoperator "("
  obtain ⟨l₁, hleft⟩ := has.group (ha.mono (show i ≤ max i j + 2 by omega)) (operator :: vs) none
  obtain ⟨l₂, hright⟩ := hbs.group (hb.mono (Nat.le_max_right i j)) [] (some operator)
  rw [List.append_nil] at hright
  have hend : Rests ⟨l₂, []⟩ := rests_of_rest_eq_nil rfl
  -- Nothing comes behind the right operand, so it ends the fold and the whole.
  have hoperand : Reads o (.operand (max i j + 1) (Parser.rightBound o operator.text))
      ⟨some operator, vs⟩ [b] ⟨l₂, []⟩ :=
    .operand (.atom hright (.bare hend.not_call)) (.settled (hend.not_tighter _))
  have hfold : Reads o (.operators (max i j + 2) a Precedence.nothing.strength) ⟨l₁, operator :: vs⟩
      [.joined operator.text a b] ⟨l₂, []⟩ :=
    .fold (Grammar.tighter_zero_iff.mpr hoperator) hoperand (.settled (hend.not_tighter _))
  have hwhole := Reads.expression (.atom hleft (.bare hcall)) hfold (.bare hend.not_call)
  obtain ⟨hvs, hne⟩ := hbs.unterminated (by decide)
  refine hwhole.hasTree hbare ?_
  rw [← List.singleton_append]
  exact (hvs.behind hne [operator]).behind (by simp) us

/-- What is put together from expressions is parsed as what their trees are put together to. -/
theorem Composed.parse_hasTree (h : Composed o ts n) : HasTree o ts n := by
  cases h with
  | group ha has =>
    obtain ⟨k, hreads⟩ := ha.reads
    obtain ⟨l, hprimary⟩ := has.group hreads [] none
    rw [List.append_nil] at hprimary
    exact hprimary.hasTree_primary rfl (has.unterminated (by decide)).1
  | braces ha has =>
    obtain ⟨k, hreads⟩ := ha.reads
    have hlist : Delimited "\x7b" "\x7d" ";" (ReadsExpression o k) ts [n] := .filled (.one hreads) has
    obtain ⟨s, l, hopen, hbody⟩ := hlist.expressions (by decide) (by decide) [] none
    rw [List.append_nil] at hopen
    exact (Reads.block hopen hbody).hasTree_primary rfl (has.unterminated (by decide)).1
  | block hes =>
    obtain ⟨k, hreads⟩ := hes.reads
    obtain ⟨s, l, hopen, hbody⟩ := (hreads k (Nat.le_refl k)).expressions (by decide) (by decide) [] none
    rw [List.append_nil] at hopen
    exact (Reads.block hopen hbody).hasTree_primary rfl (hes.unterminated (by decide)).1
  | @call as us ts a es ha has hes =>
    obtain ⟨i, ha⟩ := ha.reads
    obtain ⟨j, hreads⟩ := hes.reads
    obtain ⟨l₁, hcallee⟩ := has.group (ha.mono (Nat.le_max_left i j)) ts none
    obtain ⟨s, l₂, hopen, hargs⟩ :=
      (hreads _ (Nat.le_max_right i j)).expressions (by decide) (by decide) [] l₁
    rw [List.append_nil] at hopen
    have hend : Rests ⟨l₂, []⟩ := rests_of_rest_eq_nil rfl
    have hwhole := Reads.expression (.atom hcallee (.call hopen hargs)) (.settled (hend.not_tighter _))
      (.bare hend.not_call)
    obtain ⟨hts, hne⟩ := hes.unterminated (by decide)
    exact hwhole.hasTree rfl (hts.behind hne us)
  | @lambda word ts as params a hword hparams ha =>
    obtain ⟨k, hreads⟩ := ha.reads
    obtain ⟨s, l, hopen, hnames⟩ : ∃ s l', _ ∧
        Sequence o Names ")" "," true s params ⟨l', as⟩ :=
      hparams.sequence (fun hx _ _ us l => by obtain ⟨hk⟩ := hx; exact ⟨_, ⟨hk⟩⟩) (by decide) (by decide)
        as (some word)
    obtain ⟨l', hbody⟩ := hreads l
    refine (Reads.lambda ⟨hword⟩ hopen hnames hbody).hasTree_primary rfl ?_
    rw [← List.cons_append]
    exact ha.1.behind hreads.ne_nil (word :: ts)
  | @ifThen word consequent as bs a b hword ha hthen hb =>
    obtain ⟨i, hreads⟩ := ha.reads
    obtain ⟨j, hreads'⟩ := hb.reads
    obtain ⟨l₁, hcondition⟩ :=
      (hreads.mono (Nat.le_max_left i j)).before (Token.ends_of_then hthen) bs (some word)
    obtain ⟨l₂, hpositive⟩ := hreads'.mono (Nat.le_max_right i j) (some consequent)
    refine (Reads.ifThen ⟨hword⟩ hcondition (.word ⟨hthen⟩) hpositive rfl).hasTree_primary rfl ?_
    rw [← List.cons_append, List.append_cons]
    exact hb.1.behind hreads'.ne_nil _
  | @ifElse word consequent alternative as bs us cs a b c hword ha hthen hb hbs helse hc =>
    obtain ⟨i, hreads⟩ := ha.reads
    obtain ⟨j, hreads'⟩ := hb.reads
    obtain ⟨k, hreads''⟩ := hc.reads
    -- As many levels as each of the parts needs; the parentheses need one more.
    have hi : i ≤ max i (max j k) + 1 := by omega
    have hj : j ≤ max i (max j k) := by omega
    have hk : k ≤ max i (max j k) + 1 := by omega
    obtain ⟨l₁, hcondition⟩ := (hreads.mono hi).before (Token.ends_of_then hthen)
      (us ++ alternative :: cs) (some word)
    obtain ⟨l₂, hbranch⟩ := hbs.group (hreads'.mono hj) (alternative :: cs) (some consequent)
    have helse' : Rests ⟨l₂, alternative :: cs⟩ :=
      rests_cons (by simp [Token.is_eq helse]) (by simp [Token.kind_of_is helse]) l₂ cs
    obtain ⟨l₃, hnegative⟩ := hreads''.mono hk (some alternative)
    refine (Reads.ifElse ⟨hword⟩ hcondition (.word ⟨hthen⟩) (hbranch.alone helse') ⟨helse⟩
      hnegative).hasTree_primary rfl ?_
    have hlast := hc.1.behind hreads''.ne_nil [alternative]
    rw [← List.cons_append, List.append_cons]
    exact (hlast.behind (by simp) us).behind (by simp) _
  | @assign operator as us bs vs a b ha has hoperator hb hbs =>
    obtain ⟨i, ha⟩ := ha.reads
    obtain ⟨j, hb⟩ := hb.reads
    have hfits : Grammar.Mark.binary.fits operator = true := by
      rw [Grammar.Mark.fits, Token.kind_of_is hoperator, Token.text_of_is hoperator]
      decide
    refine has.joined ha hbs hb hfits ?_
    rw [Node.bare_joined, if_pos (Token.text_of_is hoperator)]
    rfl
  | @binary operator as us bs vs a b ha has hkind hlisted hassign hb hbs =>
    obtain ⟨i, ha⟩ := ha.reads
    obtain ⟨j, hb⟩ := hb.reads
    have hfits : Grammar.Mark.binary.fits operator = true := by
      rw [Grammar.Mark.fits, hkind, hlisted]
      rfl
    refine has.joined ha hbs hb hfits ?_
    rw [Node.bare_joined, if_neg hassign]
    rfl

/-- The law for `if a then (if b then c) else d`, where the parentheses keep `else` from the inner
conditional. -/
theorem Composed.parse_hasTree_conditional :
    let word (kind : TokenKind) (text : String) (i : Int) : Token := .plain kind text ⟨"x", 1, i, i⟩
    let name (text : String) (i : Int) : Node :=
      .reference text (some ⟨⟨"x", 1, i, i⟩, ⟨"x", 1, i, i⟩⟩)
    HasTree {}
      [word .keyword "if" 0, word .identifier "a" 3, word .keyword "then" 5, word .punctuation "(" 10,
        word .keyword "if" 11, word .identifier "b" 14, word .keyword "then" 16,
        word .identifier "c" 21, word .punctuation ")" 22, word .keyword "else" 24,
        word .identifier "d" 29]
      (.ifElse (name "a" 3) (.ifThen (name "b" 14) (name "c" 21) none) (name "d" 29) none) := by
  intro word name
  have hword (kind : TokenKind) (text : String) (i : Int) : (word kind text i).is kind text = true := by
    simp [Token.is, Token.hasText, word, Token.plain]
  have hname (text : String) (i : Int) :
      ExpressionText {} [word .identifier text i] (name text i) :=
    (readsExpression_variable (k := 0) rfl).expressionText fun t ht => by cases ht; rfl
  have hinner := Composed.parse_hasTree
    (.ifThen (hword .keyword "if" 11) (hname "b" 14) (hword .keyword "then" 16) (hname "c" 21))
  obtain ⟨e, hbare, he⟩ := hinner.expressionText
  have hwhole := Composed.parse_hasTree (.ifElse (hword .keyword "if" 0) (hname "a" 3)
    (hword .keyword "then" 5) he ⟨hword .punctuation "(" 10, hword .punctuation ")" 22⟩
    (hword .keyword "else" 24) (hname "d" 29))
  exact hwhole.congr (by rw [Node.bare, hbare]; rfl)

end Forms

end LambdaReader
