import Mathlib.Control.Monad.Basic
import Mathlib.Data.List.TakeWhile
import LambdaReader.Proofs.Reads.Extend
import LambdaReader.Proofs.Climbing
import LambdaReader.Proofs.Recorded
import LambdaReader.Proofs.Grammar.Language

/-!
# `Proofs.Calls` — calls of calls

A name with lists of arguments behind it is a call of calls. The parser reads the first list with the
name, as part of the operand, so it binds tighter than every operator. A second list is read only behind
the whole chain of operands, which it calls, and a third list is read nowhere.

The operand stands in a chain with what leads up to it and with links after it, both of which may be
missing. The proofs put together one reading of the expression at the start of the tokens; by
`Reads.expression_unique` it is the only one, so the program is refused if it leaves anything but a
separator.

## Main result
- `Source.parse_calls`: which calls of calls are read in a chain, and as what.
-/

namespace LambdaReader

open Link TokenSource

/-! ## Calls and the places for them -/

/-- A variable called with the first list of arguments, the outcome with the second one, and so on. -/
def Node.calls (f : String) (lists : List (List Node)) : Node :=
  lists.foldl (fun callee args => .call callee args none) (.reference f none)

/-- In some state in front of these tokens, with some limit of nesting, the parser reads them as an
expression and leaves none. -/
def Parser.TakesExpression (σ : Type) [TokenSource σ] (o : ParseOptions) (ts : List Token) (e : Node) :
    Prop :=
  ∃ (d : Int) (p p' : Parser σ), p.spot.rest = ts ∧
    Parser.expression { o with maxDepth := d } p = .ok e p' ∧ p'.spot.rest = []

/-- Expressions with commas between them. -/
inductive Listed (Expr : List Token → Node → Prop) : List Token → List Node → Prop where
  | one {ts : List Token} {e : Node} : Expr ts e → Listed Expr ts [e]
  | more {ts us : List Token} {comma : Token} {e : Node} {es : List Node} :
    Expr ts e → comma.is .punctuation "," = true → Listed Expr us es →
    Listed Expr (ts ++ comma :: us) (e :: es)

/-- A list of arguments in its parentheses. -/
inductive Arguments (o : ParseOptions) (Expr : List Token → Node → Prop) :
    List Token → List Node → Prop where
  | empty {opening closing : Token} :
    opening.is .punctuation "(" = true → closing.is .punctuation ")" = true →
    Arguments o Expr [opening, closing] []
  | listed {opening closing : Token} {ts : List Token} {es : List Node} :
    opening.is .punctuation "(" = true → Listed Expr ts es → closing.is .punctuation ")" = true →
    Arguments o Expr (opening :: (ts ++ [closing])) es
  | trailing {opening comma closing : Token} {ts : List Token} {es : List Node} :
    o.trailingSeparators = true → opening.is .punctuation "(" = true → Listed Expr ts es →
    comma.is .punctuation "," = true → closing.is .punctuation ")" = true →
    Arguments o Expr (opening :: (ts ++ [comma, closing])) es

/-- Lists of arguments one behind the other. -/
inductive Suffixes (o : ParseOptions) (Expr : List Token → Node → Prop) :
    List Token → List (List Node) → Prop where
  | nil : Suffixes o Expr [] []
  | cons {ts us : List Token} {args : List Node} {lists : List (List Node)} :
    Arguments o Expr ts args → Suffixes o Expr us lists → Suffixes o Expr (ts ++ us) (args :: lists)

/-- What leads up to an operand of a chain: nothing, or a chain and an operator. -/
inductive Lead where
  | nothing
  | chain (first : List Token) (node : Node) (links : List Link) (operator : Token)

namespace Lead

def tokens : Lead → List Token
  | nothing => []
  | chain first _ links operator => first ++ (Link.tokens links ++ [operator])

/-- Before `rest` the operators are of the table and the operands are, as `Atom` says, atoms up to the next
operator. -/
def Precedes (Atom : List Token → List Token → Node → Prop) (rest : List Token) : Lead → Prop
  | nothing => True
  | chain first node links operator =>
    Atom first (Link.tokens links ++ operator :: rest) node ∧ Chained Atom (operator :: rest) links ∧
      Grammar.Mark.binary.fits operator = true

/-- The tree of the whole chain, with the operand `a` next and some links after it. -/
def Groups (o : ParseOptions) (a : Node) (after : List Link) (t : Node) : Lead → Prop
  | nothing => Grouped o a after t
  | chain _ node links operator => ∃ ts, Grouped o node (links ++ ⟨operator, ts, a⟩ :: after) t

end Lead

/-! ## Readings of arguments -/

/-- Whatever was taken before, the tokens are read as an expression up to their end. -/
def ReadsExpression (o : ParseOptions) (k : Nat) (ts : List Token) (e : Node) : Prop :=
  ∀ l, ∃ l', Reads o (.expression k) ⟨l, ts⟩ [e] ⟨l', []⟩

section Readings

variable {o : ParseOptions} {k n : Nat} {ts us rest : List Token} {e : Node} {es : List Node}
  {lists : List (List Node)} {t : Token} {l : Option Token}

theorem ReadsExpression.mono (h : ReadsExpression o k ts e) (hkn : k ≤ n) : ReadsExpression o n ts e := by
  intro l
  obtain ⟨l', hreads⟩ := h l
  obtain ⟨j, rfl⟩ : ∃ j, n = j + k := ⟨n - k, by omega⟩
  exact ⟨l', hreads.relax j o.maxDepth⟩

theorem Parser.TakesExpression.readsExpression {σ : Type} [TokenSource σ] [LawfulTokenSource σ]
    (h : TakesExpression σ o ts e) : ∃ k, ReadsExpression o k ts e := by
  obtain ⟨d, p, p', hrest, hrun, hrest'⟩ := h
  refine ⟨p.levels { o with maxDepth := d }, ?_⟩
  intro l
  refine ⟨p'.last, ?_⟩
  obtain ⟨hreads, _⟩ := (Parser.expression_exact p.spot).sound rfl rfl hrun
  rw [← hrest, ← hrest']
  exact (hreads.forget trivial l).limit o.maxDepth

/-- The other way round, a record of the tokens is enough to take them. -/
theorem ReadsExpression.takesExpression (h : ReadsExpression o k ts e) :
    Parser.TakesExpression Replay o ts e := by
  obtain ⟨l', hreads⟩ := h none
  obtain ⟨p', hrun, hspot⟩ := hreads.run
  refine ⟨k, Spot.parser ⟨none, ts⟩, p', ?_, hrun, ?_⟩
  · rw [Spot.spot_parser]
  · rw [hspot]

/-- An expression that is read up to the end is read before a token that no expression goes on with. -/
theorem ReadsExpression.before (h : ReadsExpression o k ts e) (ht : t.Ends) (us : List Token)
    (l : Option Token) : ∃ l', Reads o (.expression k) ⟨l, ts ++ t :: us⟩ [e] ⟨l', t :: us⟩ := by
  obtain ⟨l', hreads⟩ := h l
  exact ⟨l', hreads.extend trivial ht us⟩

/-- Before marks that end a sequence its expressions are read one after the other. -/
theorem Listed.reads (h : Listed (ReadsExpression o k) ts es) (ht : t.Closes) {us : List Token} {s : Spot}
    (hend : ∀ l, Reads o (.sequence k ")" "," false) ⟨l, t :: us⟩ [] s) (l : Option Token) :
    ∃ e es' s', es = e :: es' ∧ Reads o (.expression k) ⟨l, ts ++ t :: us⟩ [e] s' ∧
      Reads o (.sequence k ")" "," false) s' es' s := by
  induction h generalizing l with
  | @one ts e he =>
    obtain ⟨l', hreads⟩ := he.before ht.ends us l
    exact ⟨e, [], _, rfl, hreads, hend l'⟩
  | @more ts vs comma e es he hcomma _ ih =>
    have hends := (Token.closes_of_is hcomma (by decide)).ends
    obtain ⟨l', hreads⟩ := he.before hends (vs ++ t :: us) l
    obtain ⟨e', es', s', rfl, he', hes'⟩ := ih (some comma)
    rw [List.append_assoc, List.cons_append]
    exact ⟨e, e' :: es', _, rfl, hreads, .seqMore ⟨hcomma⟩ he' hes'⟩

/-- A list of arguments is read behind what it calls, whatever comes after it. -/
theorem Arguments.reads (h : Arguments o (ReadsExpression o k) ts es) (rest : List Token) :
    ∃ l', ∀ (l : Option Token) (callee : Node), Reads o (.suffix k callee) ⟨l, ts ++ rest⟩
      [.called callee es ⟨l', rest⟩] ⟨l', rest⟩ := by
  cases h with
  | @empty opening closing hopen hclose =>
    exact ⟨some closing, fun l callee => .call ⟨hopen⟩ (.seqClose ⟨hclose⟩)⟩
  | @listed opening closing ts es hopen hes hclose =>
    refine ⟨some closing, fun l callee => ?_⟩
    have hend (l : Option Token) :
        Reads o (.sequence k ")" "," false) ⟨l, closing :: rest⟩ [] ⟨some closing, rest⟩ :=
      .seqClose ⟨hclose⟩
    obtain ⟨e, es', s', rfl, he, hes'⟩ :=
      hes.reads (Token.closes_of_is hclose (by decide)) hend (some opening)
    rw [List.cons_append, List.append_assoc]
    exact .call ⟨hopen⟩ (.seqFirst he hes')
  | @trailing opening comma closing ts es ho hopen hes hcomma hclose =>
    refine ⟨some closing, fun l callee => ?_⟩
    have hend (l : Option Token) :
        Reads o (.sequence k ")" "," false) ⟨l, comma :: closing :: rest⟩ [] ⟨some closing, rest⟩ :=
      .seqTrailing ho ⟨hcomma⟩ ⟨hclose⟩
    obtain ⟨e, es', s', rfl, he, hes'⟩ :=
      hes.reads (Token.closes_of_is hcomma (by decide)) hend (some opening)
    rw [List.cons_append, List.append_assoc]
    exact .call ⟨hopen⟩ (.seqFirst he hes')

theorem Arguments.opens {Expr : List Token → Node → Prop} (h : Arguments o Expr ts es) :
    ∃ t us, ts = t :: us ∧ t.is .punctuation "(" = true := by
  cases h with
  | empty hopen _ => exact ⟨_, _, rfl, hopen⟩
  | listed hopen _ _ => exact ⟨_, _, rfl, hopen⟩
  | trailing _ hopen _ _ _ => exact ⟨_, _, rfl, hopen⟩

end Readings

section Levels

variable {o : ParseOptions} {ts : List Token} {es : List Node} {lists : List (List Node)}
  {Expr Expr' : List Token → Node → Prop}

theorem Listed.imp (h : Listed Expr ts es) (hexpr : ∀ {ts e}, Expr ts e → Expr' ts e) :
    Listed Expr' ts es := by
  induction h with
  | one he => exact .one (hexpr he)
  | more he hcomma _ ih => exact .more (hexpr he) hcomma ih

theorem Arguments.imp (h : Arguments o Expr ts es) (hexpr : ∀ {ts e}, Expr ts e → Expr' ts e) :
    Arguments o Expr' ts es := by
  cases h with
  | empty hopen hclose => exact .empty hopen hclose
  | listed hopen hes hclose => exact .listed hopen (hes.imp hexpr) hclose
  | trailing ho hopen hes hcomma hclose => exact .trailing ho hopen (hes.imp hexpr) hcomma hclose

theorem Suffixes.imp (h : Suffixes o Expr ts lists) (hexpr : ∀ {ts e}, Expr ts e → Expr' ts e) :
    Suffixes o Expr' ts lists := by
  induction h with
  | nil => exact .nil
  | cons hargs _ ih => exact .cons (hargs.imp hexpr) ih

variable {σ : Type} [TokenSource σ] [LawfulTokenSource σ]

/-- Some number of levels is enough for all of the expressions. -/
theorem Listed.readsExpression (h : Listed (Parser.TakesExpression σ o) ts es) :
    ∃ k, Listed (ReadsExpression o k) ts es := by
  induction h with
  | one he =>
    obtain ⟨k, he⟩ := he.readsExpression
    exact ⟨k, .one he⟩
  | more he hcomma _ ih =>
    obtain ⟨i, he⟩ := he.readsExpression
    obtain ⟨j, hes⟩ := ih
    exact ⟨max i j, .more (he.mono (Nat.le_max_left i j)) hcomma
      (hes.imp fun h => h.mono (Nat.le_max_right i j))⟩

theorem Arguments.readsExpression (h : Arguments o (Parser.TakesExpression σ o) ts es) :
    ∃ k, Arguments o (ReadsExpression o k) ts es := by
  cases h with
  | empty hopen hclose => exact ⟨0, .empty hopen hclose⟩
  | listed hopen hes hclose =>
    obtain ⟨k, hes⟩ := hes.readsExpression
    exact ⟨k, .listed hopen hes hclose⟩
  | trailing ho hopen hes hcomma hclose =>
    obtain ⟨k, hes⟩ := hes.readsExpression
    exact ⟨k, .trailing ho hopen hes hcomma hclose⟩

theorem Suffixes.readsExpression (h : Suffixes o (Parser.TakesExpression σ o) ts lists) :
    ∃ k, Suffixes o (ReadsExpression o k) ts lists := by
  induction h with
  | nil => exact ⟨0, .nil⟩
  | cons hargs _ ih =>
    obtain ⟨i, hargs⟩ := hargs.readsExpression
    obtain ⟨j, hlists⟩ := ih
    exact ⟨max i j, .cons (hargs.imp fun h => h.mono (Nat.le_max_left i j))
      (hlists.imp fun h => h.mono (Nat.le_max_right i j))⟩

end Levels

/-! ## Readings of chains -/

section Chains

variable {o : ParseOptions} {k : Nat} {f : Token} {ts rest tail : List Token} {args : List Node}
  {lead : Lead} {links : List Link} {c : Node}

/-- A variable that no call follows is an atom. -/
theorem readsAtom_variable (hf : f.kind = .identifier)
    (hrest : ∀ l, (⟨l, rest⟩ : Spot).isAt .punctuation "(" = false) :
    ReadsAtom o k [f] rest (.reference f.text (some ⟨f.location, f.location⟩)) := by
  intro l
  have hleaf : f.leaf? = some (.reference f.text (some ⟨f.location, f.location⟩)) := by
    rw [Token.leaf?, hf]
  exact ⟨some f, .atom (.leaf hleaf) (.bare (hrest _))⟩

/-- A variable by itself is an expression. -/
theorem readsExpression_variable (hf : f.kind = .identifier) :
    ReadsExpression o (k + 1) [f] (.reference f.text (some ⟨f.location, f.location⟩)) := by
  intro l
  have hbare (l : Option Token) : (⟨l, []⟩ : Spot).isAt .punctuation "(" = false := rfl
  obtain ⟨l', hatom⟩ := readsAtom_variable (o := o) (k := k) hf hbare l
  have hsettled : ¬Spot.Tighter ⟨l', []⟩ Precedence.nothing.strength := by
    rintro ⟨t, ht, _⟩
    cases ht
  exact ⟨l', .expression hatom (.settled hsettled) (.bare rfl)⟩

/-- A variable with a list of arguments is an atom, whatever comes after it. -/
theorem readsAtom_call (hf : f.kind = .identifier) (hargs : Arguments o (ReadsExpression o k) ts args)
    (rest : List Token) :
    ∃ c, c.bare = (Node.calls f.text [args]).bare ∧ ReadsAtom o k (f :: ts) rest c := by
  have hleaf : f.leaf? = some (.reference f.text (some ⟨f.location, f.location⟩)) := by
    rw [Token.leaf?, hf]
  obtain ⟨l', hreads⟩ := hargs.reads rest
  refine ⟨.called (.reference f.text (some ⟨f.location, f.location⟩)) args ⟨l', rest⟩, rfl, fun l => ?_⟩
  exact ⟨l', .atom (.leaf hleaf) (hreads (some f) _)⟩

theorem Link.tokens_append (xs ys : List Link) : tokens (xs ++ ys) = tokens xs ++ tokens ys :=
  List.flatMap_append

/-- The links of two chains that come one after the other. -/
theorem Chained.append {Atom : List Token → List Token → Node → Prop} {xs ys : List Link}
    (hxs : Chained Atom (tokens ys ++ tail) xs) (hys : Chained Atom tail ys) :
    Chained Atom tail (xs ++ ys) := by
  induction hxs with
  | nil => exact hys
  | @cons x links hfits hx _ ih =>
    have hx' : Atom x.operand (tokens (links ++ ys) ++ tail) x.node := by
      rw [tokens_append, List.append_assoc]
      exact hx
    exact .cons hfits hx' ih

/-- An operator of the table is no mark. -/
theorem Grammar.Mark.not_is_of_fits (h : Grammar.Mark.binary.fits f = true) (x : String) :
    f.is .punctuation x = false := by
  have hkind : f.kind = .operator := (Grammar.tighter_zero_iff.mpr h).1
  simp [Token.is, hkind]

/-- All operators of a chain bind tighter than the bound of an expression. -/
theorem Chained.strength_pos {Atom : List Token → List Token → Node → Prop} (h : Chained Atom tail links) :
    ∀ x ∈ links, decide (0 < x.strength) = true := by
  induction h with
  | nil => intro x hx; cases hx
  | cons hfits _ _ ih =>
    have htight := Grammar.tighter_zero_iff.mpr hfits
    exact List.forall_mem_cons.mpr ⟨decide_eq_true htight.2, ih⟩

/-- An operand and the links after it are read as the tree of their chain. -/
theorem reads_chain {first : List Token} {a : Node} (hfirst : ReadsAtom o k first (tokens links ++ tail) a)
    (hlinks : Chained (ReadsAtom o k) tail links) (htail : ∀ t, tail.head? = some t → ¬t.Tighter 0) :
    ∃ t, Grouped o a links t ∧ ∃ n, ∀ m, n ≤ m → ∀ l, ∃ s' l',
      Reads o (.atom m) ⟨l, first ++ (tokens links ++ tail)⟩ [a] s' ∧
      Reads o (.operators m a 0) s' [t] ⟨l', tail⟩ := by
  have hall := hlinks.strength_pos
  have hrun (m : Nat) (hm : k + 2 * links.length ≤ m) (l : Option Token) :
      ∃ t l', Reads o (.operators m a 0) ⟨l, tokens links ++ tail⟩ [t] ⟨l', tail⟩ ∧
        Grouped o a links t := by
    obtain ⟨t, l', ht, hgrouped⟩ := reads_operators_of_chained hlinks htail hm a l
    rw [List.dropWhile_eq_nil_iff.mpr hall] at ht
    rw [List.takeWhile_eq_self_iff.mpr hall] at hgrouped
    exact ⟨t, l', ht, hgrouped⟩
  obtain ⟨t, _, _, ht⟩ := hrun _ (Nat.le_refl _) none
  refine ⟨t, ht, k + 2 * links.length, fun m hm l => ?_⟩
  obtain ⟨l₁, hatom⟩ := hfirst.mono (show k ≤ m by omega) l
  obtain ⟨t', l₂, hoperators, ht'⟩ := hrun m hm l₁
  obtain rfl := ht.unique ht'
  exact ⟨_, l₂, hatom, hoperators⟩

/-- So are the chain that leads up to an operand, the operand and the links after it. -/
theorem Lead.reads (after : List Link) (tail : List Token)
    (hlead : lead.Precedes (ReadsAtom o k) (ts ++ (Link.tokens after ++ tail)))
    (hc : ReadsAtom o k ts (Link.tokens after ++ tail) c) (hafter : Chained (ReadsAtom o k) tail after)
    (htail : ∀ t, tail.head? = some t → ¬t.Tighter 0) :
    ∃ t, lead.Groups o c after t ∧ ∃ n, ∀ m, n ≤ m → ∃ a s' l',
      Reads o (.atom m) ⟨none, lead.tokens ++ (ts ++ (Link.tokens after ++ tail))⟩ [a] s' ∧
      Reads o (.operators m a 0) s' [t] ⟨l', tail⟩ := by
  cases lead with
  | nothing =>
    obtain ⟨t, ht, n, hreads⟩ := reads_chain hc hafter htail
    exact ⟨t, ht, n, fun m hm => ⟨c, hreads m hm none⟩⟩
  | chain first node links operator =>
    obtain ⟨hfirst, hlinks, hfits⟩ := hlead
    -- The operand is one more link of the chain.
    have hlink : Chained (ReadsAtom o k) tail (⟨operator, ts, c⟩ :: after) := .cons hfits hc hafter
    have htokens : Link.tokens (⟨operator, ts, c⟩ :: after) ++ tail =
        operator :: (ts ++ (Link.tokens after ++ tail)) := by
      rw [tokens_cons, List.cons_append, List.append_assoc]
    rw [← htokens] at hfirst hlinks
    rw [← List.append_assoc, ← tokens_append] at hfirst
    obtain ⟨t, ht, n, hreads⟩ := reads_chain hfirst (hlinks.append hlink) htail
    refine ⟨t, ⟨ts, ht⟩, n, fun m hm => ⟨node, ?_⟩⟩
    have hwhole := hreads m hm none
    rw [tokens_append, List.append_assoc, htokens] at hwhole
    simpa only [Lead.tokens, List.append_assoc, List.singleton_append] using hwhole

theorem Lead.Precedes.readsAtom {σ : Type} [TokenSource σ] [LawfulTokenSource σ]
    (h : lead.Precedes (Parser.TakesAtom σ o) rest) : ∃ k, lead.Precedes (ReadsAtom o k) rest := by
  cases lead with
  | nothing => exact ⟨0, trivial⟩
  | chain first node links operator =>
    obtain ⟨hfirst, hlinks, hfits⟩ := h
    obtain ⟨i, hfirst⟩ := hfirst.readsAtom
    obtain ⟨j, hlinks⟩ := hlinks.readsAtom
    exact ⟨max i j, hfirst.mono (Nat.le_max_left i j),
      hlinks.imp fun h => h.mono (Nat.le_max_right i j), hfits⟩

theorem Lead.Precedes.imp {Atom Atom' : List Token → List Token → Node → Prop}
    (h : lead.Precedes Atom rest) (hatom : ∀ {ts rest a}, Atom ts rest a → Atom' ts rest a) :
    lead.Precedes Atom' rest := by
  cases lead with
  | nothing => trivial
  | chain first node links operator => exact ⟨hatom h.1, h.2.1.imp hatom, h.2.2⟩

end Chains

/-! ## Programs -/

section Programs

variable {s : Source} {o : ParseOptions} {k : Nat} {f t : Token} {ts us suffix rest : List Token}
  {args args' : List Node} {lists : List (List Node)} {lead : Lead} {after : List Link} {e : Node}

/-- A source that is read as an expression up to its end is a program of it. -/
theorem Source.parse_of_reads {n : Nat} (hts : s.tokens = .ok ts)
    (h : ∀ m, n ≤ m → ∃ l, Reads o (.expression (m + 1)) ⟨none, ts⟩ [e] ⟨l, []⟩) :
    ∃ n : Nat, ∀ d : Int, n ≤ d → ∃ span, s.parse { o with maxDepth := d } = .ok (.program [e] span) := by
  obtain ⟨htokens, _, hdone⟩ := Source.drain_of_tokens hts
  obtain ⟨l, hreads⟩ := h n (Nat.le_refl n)
  exact ⟨n + 1, fun d hd => TokenSource.read_of_reads (Prod.ext htokens hdone) hreads hd⟩

/-- A source that is read as an expression up to something that does not separate is no program. -/
theorem Source.parse_ne_of_reads {l : Option Token} (hts : s.tokens = .ok ts)
    (h : Reads o (.expression k) ⟨none, ts⟩ [e] ⟨l, t :: rest⟩) (ht : t.is .punctuation ";" = false)
    (d : Int) (n : Node) : s.parse { o with maxDepth := d } ≠ .ok n := by
  intro hn
  obtain ⟨htokens, _, hdone⟩ := Source.drain_of_tokens hts
  have hread := TokenSource.read_eq_ok_iff (o := { o with maxDepth := d }) hdone
  rw [htokens] at hread
  obtain ⟨body, s', hbody, _⟩ := (hread n).mp hn
  have hne : ts ≠ [] := by
    rintro rfl
    exact Nat.not_lt_zero _ (h.length_lt trivial)
  obtain ⟨a, s₁, ha, s₂, hsep, _⟩ := (Parser.reads_statements_iff hne).mp hbody
  -- The expression is the one that is read already, so the separator would have to be `t`.
  obtain ⟨_, rfl⟩ := h.expression_unique (ha.limit o.maxDepth)
  rw [if_neg (List.cons_ne_nil t rest)] at hsep
  obtain ⟨hsemicolon⟩ := hsep
  rw [ht] at hsemicolon
  cases hsemicolon

/-- The operand with at most one list of arguments is an atom before anything that is no call. -/
theorem Suffixes.readsAtom (h : Suffixes o (ReadsExpression o k) suffix lists)
    (hf : f.kind = .identifier) (hlists : lists.length ≤ 1) (rest : List Token)
    (hrest : ∀ l, (⟨l, rest⟩ : Spot).isAt .punctuation "(" = false) :
    ∃ c, c.bare = (Node.calls f.text lists).bare ∧ ReadsAtom o k (f :: suffix) rest c := by
  cases h with
  | nil =>
    exact ⟨.reference f.text (some ⟨f.location, f.location⟩), rfl, readsAtom_variable hf hrest⟩
  | cons hargs h =>
    cases h with
    | nil =>
      rw [List.append_nil]
      exact readsAtom_call hf hargs rest
    | cons => simp at hlists

/-- Behind the first list of arguments the chain is at its end, and the second one calls all of it. -/
theorem Lead.reads_called (hlead : lead.Precedes (ReadsAtom o k) (f :: (ts ++ (us ++ rest))))
    (hf : f.kind = .identifier) (hargs : Arguments o (ReadsExpression o k) ts args)
    (hargs' : Arguments o (ReadsExpression o k) us args') :
    ∃ c t e l, c.bare = (Node.calls f.text [args]).bare ∧ lead.Groups o c [] t ∧
      e.bare = (Node.call t args' none).bare ∧ ∃ n, ∀ m, n ≤ m →
        Reads o (.expression (m + 1)) ⟨none, lead.tokens ++ f :: (ts ++ (us ++ rest))⟩ [e] ⟨l, rest⟩ := by
  obtain ⟨c, hbare, hc⟩ := readsAtom_call hf hargs (us ++ rest)
  have htail : ∀ t, (us ++ rest).head? = some t → ¬t.Tighter 0 := by
    obtain ⟨opening, vs, rfl, hopen⟩ := hargs'.opens
    intro t ht htight
    obtain rfl : opening = t := Option.some.inj ht
    have hkind : opening.kind = .punctuation := Token.kind_of_is hopen
    rw [htight.1] at hkind
    cases hkind
  obtain ⟨t, ht, n, hreads⟩ := Lead.reads [] _ hlead hc .nil htail
  obtain ⟨l, hcall⟩ := hargs'.reads rest
  refine ⟨c, t, .called t args' ⟨l, rest⟩, l, hbare, ht, rfl, max k n, fun m hm => ?_⟩
  obtain ⟨a, s', l', ha, hoperators⟩ := hreads m (by omega)
  obtain ⟨j, rfl⟩ : ∃ j, m = j + k := ⟨m - k, by omega⟩
  exact .expression ha hoperators ((hcall l' t).relax j o.maxDepth)

/-- A second list of arguments with anything but a separator behind it makes a program refused. -/
theorem Source.parse_ne_of_lists (hts : s.tokens = .ok (lead.tokens ++ f :: (suffix ++ rest)))
    (hf : f.kind = .identifier) (hsuffix : Suffixes o (ReadsExpression o k) suffix lists)
    (hlead : lead.Precedes (ReadsAtom o k) (f :: (suffix ++ rest)))
    (hlists : 2 < lists.length ∨
      lists.length = 2 ∧ ∃ t us, rest = t :: us ∧ t.is .punctuation ";" = false)
    (d : Int) (n : Node) : s.parse { o with maxDepth := d } ≠ .ok n := by
  cases hsuffix with
  | nil => simp at hlists
  | cons hargs hsuffix =>
  cases hsuffix with
  | nil => simp at hlists
  | @cons us vs args' lists hargs' hsuffix =>
    -- Behind the second list stands a third one, or else what follows all of them.
    have hnext : ∃ t ws, vs ++ rest = t :: ws ∧ t.is .punctuation ";" = false := by
      cases hsuffix with
      | nil =>
        obtain ⟨_, t, ws, hrest, ht⟩ := hlists.resolve_left (by simp)
        exact ⟨t, ws, hrest, ht⟩
      | cons hargs'' _ =>
        obtain ⟨t, ws, rfl, ht⟩ := hargs''.opens
        exact ⟨t, _, rfl, by rw [Token.is_eq ht]; rfl⟩
    obtain ⟨t, ws, hvs, ht⟩ := hnext
    rw [List.append_assoc, List.append_assoc, hvs] at hts hlead
    obtain ⟨_, _, e, l, _, _, _, j, hreads⟩ := Lead.reads_called hlead hf hargs hargs'
    exact Source.parse_ne_of_reads hts (hreads j (Nat.le_refl j)) ht d n

/-- In a chain of operands, one of which is a variable with lists of arguments behind it, the first list
belongs to the variable. The second one calls the whole chain, which has to end there, and there is no
place for a third. -/
theorem Source.parse_calls {σ : Type} [TokenSource σ] [LawfulTokenSource σ]
    (hts : s.tokens = .ok (lead.tokens ++ f :: (suffix ++ Link.tokens after)))
    (hf : f.kind = .identifier) (hsuffix : Suffixes o (Parser.TakesExpression σ o) suffix lists)
    (hlead : lead.Precedes (Parser.TakesAtom σ o) (f :: (suffix ++ Link.tokens after)))
    (hafter : Chained (Parser.TakesAtom σ o) [] after) :
    (lists.length ≤ 1 → ∃ c t, c.bare = (Node.calls f.text lists).bare ∧ lead.Groups o c after t ∧
      ∃ n : Nat, ∀ d : Int, n ≤ d → ∃ span,
        s.parse { o with maxDepth := d } = .ok (.program [t] span)) ∧
    (∀ args args', lists = [args, args'] → after = [] → ∃ c t e,
      c.bare = (Node.calls f.text [args]).bare ∧ lead.Groups o c [] t ∧
      e.bare = (Node.call t args' none).bare ∧ ∃ n : Nat, ∀ d : Int, n ≤ d → ∃ span,
        s.parse { o with maxDepth := d } = .ok (.program [e] span)) ∧
    (2 < lists.length ∨ lists.length = 2 ∧ after ≠ [] →
      ∀ (d : Int) (n : Node), s.parse { o with maxDepth := d } ≠ .ok n) := by
  obtain ⟨i, hsuffix⟩ := hsuffix.readsExpression
  obtain ⟨j, hlead⟩ := hlead.readsAtom
  obtain ⟨k, hafter⟩ := hafter.readsAtom
  -- As many levels as all of the parts need.
  have hi : i ≤ max i (max j k) := by omega
  have hj : j ≤ max i (max j k) := by omega
  have hk : k ≤ max i (max j k) := by omega
  replace hsuffix := hsuffix.imp fun h => h.mono hi
  replace hlead := hlead.imp fun h => h.mono hj
  replace hafter := hafter.imp fun h => h.mono hk
  generalize max i (max j k) = k at hsuffix hlead hafter
  refine ⟨fun hlists => ?_, fun args args' hlists hend => ?_, fun hlists => ?_⟩
  · have hcall (l : Option Token) :
        (⟨l, Link.tokens after ++ []⟩ : Spot).isAt .punctuation "(" = false := by
      cases hafter with
      | nil => rfl
      | cons hfits => exact Grammar.Mark.not_is_of_fits hfits "("
    rw [← List.append_nil (Link.tokens after), ← List.cons_append] at hlead
    obtain ⟨c, hbare, hc⟩ := hsuffix.readsAtom hf hlists _ hcall
    obtain ⟨t, ht, n, hreads⟩ := Lead.reads after [] hlead hc hafter nofun
    rw [List.append_nil] at hreads
    refine ⟨c, t, hbare, ht, Source.parse_of_reads (n := n) hts fun m hm => ?_⟩
    obtain ⟨a, s', l, ha, hoperators⟩ := hreads m hm
    exact ⟨l, .expression ha hoperators (.bare rfl)⟩
  · subst hlists hend
    cases hsuffix with
    | cons hargs hsuffix =>
    cases hsuffix with
    | cons hargs' hsuffix =>
    cases hsuffix
    rw [List.append_assoc, List.append_assoc] at hts hlead
    obtain ⟨c, t, e, l, hbare, ht, hcalled, n, hreads⟩ := Lead.reads_called hlead hf hargs hargs'
    exact ⟨c, t, e, hbare, ht, hcalled, Source.parse_of_reads hts fun m hm => ⟨l, hreads m hm⟩⟩
  · refine Source.parse_ne_of_lists hts hf hsuffix hlead (hlists.imp_right fun ⟨hlength, hne⟩ => ?_)
    refine ⟨hlength, ?_⟩
    cases hafter with
    | nil => exact absurd rfl hne
    | cons hfits => exact ⟨_, _, rfl, Grammar.Mark.not_is_of_fits hfits ";"⟩

/-- The law for `a - f(b) = c`: the call is an operand between two operators. -/
theorem Source.parse_calls_between :
    let word (kind : TokenKind) (text : String) (i : Int) : Token := .plain kind text ⟨"x", 1, i, i⟩
    let name (text : String) (i : Int) : Node :=
      .reference text (some ⟨⟨"x", 1, i, i⟩, ⟨"x", 1, i, i⟩⟩)
    let lead : Lead := .chain [word .identifier "a" 0] (name "a" 0) [] (word .operator "-" 2)
    let after : List Link := [⟨word .operator "=" 9, [word .identifier "c" 11], name "c" 11⟩]
    ∃ c t, c.bare = (Node.calls "f" [[name "b" 6]]).bare ∧ lead.Groups {} c after t ∧
      ∃ n : Nat, ∀ d : Int, n ≤ d → ∃ span,
        Source.parse { maxDepth := d } ⟨"a - f(b) = c", "x", false⟩ = .ok (.program [t] span) := by
  intro word name lead after
  let fresh (ts : List Token) : Parser Replay := .ofSource ⟨ts, .done (.start "x"), .start "x"⟩
  let suffix := [word .punctuation "(" 5, word .identifier "b" 6, word .punctuation ")" 7]
  let f := word .identifier "f" 4
  have hts : Source.tokens ⟨"a - f(b) = c", "x", false⟩ =
      .ok (lead.tokens ++ f :: (suffix ++ Link.tokens after)) := by
    decide +kernel
  have hb : Parser.TakesExpression Replay {} [word .identifier "b" 6] (name "b" 6) :=
    (readsExpression_variable (k := 0) rfl).takesExpression
  have hsuffix : Suffixes {} (Parser.TakesExpression Replay {}) suffix [[name "b" 6]] :=
    .cons (.listed (by decide) (.one hb) (by decide)) .nil
  have hlead : lead.Precedes (Parser.TakesAtom Replay {}) (f :: (suffix ++ Link.tokens after)) :=
    ⟨⟨1, fresh (lead.tokens ++ f :: (suffix ++ Link.tokens after)), _, rfl, rfl, rfl⟩, .nil, by decide⟩
  have hafter : Chained (Parser.TakesAtom Replay {}) [] after :=
    .cons (by decide) ⟨1, fresh [word .identifier "c" 11], _, rfl, rfl, rfl⟩ .nil
  exact (Source.parse_calls hts rfl hsuffix hlead hafter).1 (Nat.le_refl 1)

/-- A third list is refused, so is a second one before an operator, and behind an operator the second list
calls what the operator joins. -/
theorem Source.parse_calls_limits :
    (¬∃ (d : Int) (n : Node),
      Source.parse { maxDepth := d } ⟨"f(a)(b)(c)", "x", false⟩ = .ok n) ∧
    (¬∃ (d : Int) (n : Node),
      Source.parse { maxDepth := d } ⟨"f(a)(b) + c", "x", false⟩ = .ok n) ∧
    (Source.parse {} ⟨"a + f(b)(c)", "x", false⟩).toOption.map Node.render =
      some ("Program((Call(Binary('+', Variable('a'), Call(Variable('f'), (Variable('b'),))), " ++
        "(Variable('c'),)),))") := by
  let word (kind : TokenKind) (text : String) (i : Int) : Token := .plain kind text ⟨"x", 1, i, i⟩
  let name (text : String) (i : Int) : Node :=
    .reference text (some ⟨⟨"x", 1, i, i⟩, ⟨"x", 1, i, i⟩⟩)
  -- A list of one variable, with the opening mark at a column.
  let parens (text : String) (i : Int) : List Token :=
    [word .punctuation "(" i, word .identifier text (i + 1), word .punctuation ")" (i + 2)]
  have hparens (text : String) (i : Int) :
      Arguments {} (ReadsExpression {} 1) (parens text i) [name text (i + 1)] :=
    .listed rfl (.one (readsExpression_variable rfl)) rfl
  have htwo : Suffixes {} (ReadsExpression {} 1) (parens "a" 1 ++ (parens "b" 4 ++ []))
      [[name "a" 2], [name "b" 5]] :=
    .cons (hparens "a" 1) (.cons (hparens "b" 4) .nil)
  have hthree : Suffixes {} (ReadsExpression {} 1) (parens "a" 1 ++ (parens "b" 4 ++ (parens "c" 7 ++ [])))
      [[name "a" 2], [name "b" 5], [name "c" 8]] :=
    .cons (hparens "a" 1) (.cons (hparens "b" 4) (.cons (hparens "c" 7) .nil))
  refine ⟨?_, ?_, by decide +kernel⟩
  · rintro ⟨d, n, hn⟩
    have hts : Source.tokens ⟨"f(a)(b)(c)", "x", false⟩ = .ok (Lead.nothing.tokens ++
        word .identifier "f" 0 :: ((parens "a" 1 ++ (parens "b" 4 ++ (parens "c" 7 ++ []))) ++ [])) := by
      decide +kernel
    exact Source.parse_ne_of_lists hts rfl hthree trivial (.inl (by decide)) d n hn
  · rintro ⟨d, n, hn⟩
    have hts : Source.tokens ⟨"f(a)(b) + c", "x", false⟩ = .ok (Lead.nothing.tokens ++
        word .identifier "f" 0 :: ((parens "a" 1 ++ (parens "b" 4 ++ [])) ++
          [word .operator "+" 8, word .identifier "c" 10])) := by
      decide +kernel
    exact Source.parse_ne_of_lists hts rfl htwo trivial (.inr ⟨rfl, _, _, rfl, rfl⟩) d n hn

end Programs

end LambdaReader
