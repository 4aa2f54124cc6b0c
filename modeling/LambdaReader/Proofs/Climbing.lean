import LambdaReader.Proofs.Reads.Adequacy
import LambdaReader.Proofs.Grammar.Basic

/-!
# `Proofs.Climbing` — precedence climbing builds the tree of its chain

A chain is an operand followed by links, each an operator and the operand after it. Which tree it
denotes is said without a parser by `Grouped`: the weakest operator splits it, the rightmost of several,
or the leftmost if assignments group to the right.

The parser never looks for the weakest operator. It folds operators onto what is on their left, and
gives the right operand of each the operators that bind tighter. The two meet in `Grouped.fold`: as long
as no operator binds tighter than the bound at which the right operand stopped, folding the first
operator and its right operand into the left operand changes nothing in how the chain splits.
-/

namespace LambdaReader

/-! ## Chains and their trees -/

/-- An operator with the tokens and the node of the operand after it. -/
structure Link where
  operator : Token
  operand : List Token
  node : Node

namespace Link

/-- The text of the operator. -/
def symbol (x : Link) : String := x.operator.text

/-- How tightly the operator binds. -/
def strength (x : Link) : Int := (Precedence.ofSymbol x.symbol).strength

/-- The operator groups to the right. -/
def GroupsRight (o : ParseOptions) (x : Link) : Prop :=
  x.symbol = Node.assignSymbol ∧ o.rightAssignment = true

/-- The tokens of links. -/
def tokens (links : List Link) : List Token := links.flatMap fun x => x.operator :: x.operand

theorem tokens_cons (x : Link) (links : List Link) :
    tokens (x :: links) = x.operator :: (x.operand ++ tokens links) := by
  rw [tokens, List.flatMap_cons, List.cons_append]
  rfl

end Link

open Link

/-- A chain of links splits at `y`: none of the operators is weaker, and none of the same strength comes
after it, or before it if `y` groups to the right. -/
def SplitsAt (o : ParseOptions) (before : List Link) (y : Link) (after : List Link) : Prop :=
  (y.GroupsRight o → (∀ x ∈ before, y.strength < x.strength) ∧ ∀ x ∈ after, y.strength ≤ x.strength) ∧
  (¬ y.GroupsRight o → (∀ x ∈ before, y.strength ≤ x.strength) ∧ ∀ x ∈ after, y.strength < x.strength)

/-- The tree of an operand and the links after it. -/
inductive Grouped (o : ParseOptions) : Node → List Link → Node → Prop where
  | operand (a : Node) : Grouped o a [] a
  | split {a l r : Node} {before after : List Link} {y : Link} :
    SplitsAt o before y after → Grouped o a before l → Grouped o y.node after r →
    Grouped o a (before ++ y :: after) (.joined y.symbol l r)

/-! ## A chain has one tree -/

/-- Only assignments are as weak as assignments. -/
theorem Precedence.eq_assignSymbol_of_strength {symbol : String}
    (h : (Precedence.ofSymbol symbol).strength = 1) : symbol = Node.assignSymbol := by
  -- The strength of assignments occurs once in the table.
  unfold Precedence.ofSymbol at h
  cases hlookup : Precedence.table.lookup symbol with
  | none => rw [hlookup] at h; cases h
  | some p =>
    have hall : ∀ e ∈ Precedence.table, e.2.strength = 1 → e.1 = Node.assignSymbol := by decide
    obtain ⟨l, r, htable, _⟩ := List.lookup_eq_some_iff.mp hlookup
    rw [hlookup, Option.getD_some] at h
    exact hall (symbol, p) (by rw [htable]; simp) h

theorem Link.GroupsRight.of_strength {x y : Link} {o : ParseOptions} (hx : x.GroupsRight o)
    (h : y.strength = x.strength) : y.GroupsRight o := by
  have hone : (Precedence.ofSymbol y.symbol).strength = 1 := by
    rw [strength, strength, hx.1] at h
    exact h
  exact ⟨Precedence.eq_assignSymbol_of_strength hone, hx.2⟩

namespace SplitsAt

variable {o : ParseOptions} {before after before' after' : List Link} {x y z : Link}

theorem le_before (h : SplitsAt o before y after) (hx : x ∈ before) : y.strength ≤ x.strength := by
  by_cases hy : y.GroupsRight o
  · exact Int.le_of_lt ((h.1 hy).1 x hx)
  · exact (h.2 hy).1 x hx

theorem le_after (h : SplitsAt o before y after) (hx : x ∈ after) : y.strength ≤ x.strength := by
  by_cases hy : y.GroupsRight o
  · exact (h.1 hy).2 x hx
  · exact Int.le_of_lt ((h.2 hy).2 x hx)

/-- Two places cannot both be where a chain splits. -/
theorem not_both (h : SplitsAt o before y after) (h' : SplitsAt o before' z after') (hz : z ∈ after)
    (hy : y ∈ before') : False := by
  have heq : y.strength = z.strength := Int.le_antisymm (h.le_after hz) (h'.le_before hy)
  by_cases hright : y.GroupsRight o
  · have hlt := (h'.1 (hright.of_strength heq.symm)).1 y hy
    omega
  · have hlt := (h.2 hright).2 z hz
    omega

/-- A chain splits at one place only. -/
theorem unique (h : SplitsAt o before y after) (h' : SplitsAt o before' z after')
    (heq : before ++ y :: after = before' ++ z :: after') :
    before = before' ∧ y = z ∧ after = after' := by
  -- Were one place before the other, each would be among the links of the other.
  rcases List.append_eq_append_iff.mp heq with ⟨c, hc, hc'⟩ | ⟨c, hc, hc'⟩
  · cases c with
    | nil =>
      obtain ⟨rfl, rfl⟩ := List.cons.inj hc'
      exact ⟨by rw [hc, List.append_nil], rfl, rfl⟩
    | cons w c =>
      obtain ⟨rfl, rfl⟩ := List.cons.inj hc'
      exact (h.not_both h' (by simp) (by rw [hc]; simp)).elim
  · cases c with
    | nil =>
      obtain ⟨rfl, rfl⟩ := List.cons.inj hc'
      exact ⟨by rw [hc, List.append_nil], rfl, rfl⟩
    | cons w c =>
      obtain ⟨rfl, rfl⟩ := List.cons.inj hc'
      exact (h'.not_both h (by simp) (by rw [hc]; simp)).elim

end SplitsAt

/-- A chain has one tree. -/
theorem Grouped.unique {o : ParseOptions} {a t t' : Node} {links : List Link}
    (h : Grouped o a links t) (h' : Grouped o a links t') : t = t' := by
  induction h generalizing t' with
  | operand a =>
    generalize hlinks : ([] : List Link) = links at h'
    cases h' with
    | operand => rfl
    | split => simp at hlinks
  | @split a l r before after y hy hl hr ihl ihr =>
    generalize hlinks : before ++ y :: after = links at h'
    cases h' with
    | operand => simp at hlinks
    | split hy' hl' hr' =>
      obtain ⟨rfl, rfl, rfl⟩ := hy.unique hy' hlinks
      rw [ihl hl', ihr hr']

/-! ## Folding the first operator -/

/-- The bound at which the right operand of an operator stops. -/
def Link.rightBound (o : ParseOptions) (x : Link) : Int := Parser.rightBound o x.symbol

theorem Link.rightBound_of_groupsRight {o : ParseOptions} {x : Link} (h : x.GroupsRight o) :
    x.rightBound o = x.strength - 1 :=
  if_pos h

theorem Link.rightBound_of_not_groupsRight {o : ParseOptions} {x : Link} (h : ¬ x.GroupsRight o) :
    x.rightBound o = x.strength :=
  if_neg h

theorem Link.le_rightBound {o : ParseOptions} {x : Link} {bound : Int} (h : bound < x.strength) :
    bound ≤ x.rightBound o := by
  by_cases hx : x.GroupsRight o
  · rw [Link.rightBound_of_groupsRight hx]
    omega
  · rw [Link.rightBound_of_not_groupsRight hx]
    omega

/-- Before its right operand's operators an operator is the weakest. -/
theorem splitsAt_first {o : ParseOptions} {x : Link} {inner : List Link}
    (htight : ∀ y ∈ inner, x.rightBound o < y.strength) : SplitsAt o [] x inner := by
  constructor
  · intro hx
    refine ⟨nofun, ?_⟩
    intro y hy
    have hlt := htight y hy
    rw [Link.rightBound_of_groupsRight hx] at hlt
    omega
  · intro hx
    refine ⟨nofun, ?_⟩
    intro y hy
    have hlt := htight y hy
    rw [Link.rightBound_of_not_groupsRight hx] at hlt
    exact hlt

/-- An operator that does not get into the right operand of `x` is weaker than `x` and than all that
does, and as strong as `x` only if it groups to the left. -/
theorem SplitsAt.extend {o : ParseOptions} {x y : Link} {inner before after : List Link}
    (hy : SplitsAt o before y after) (htight : ∀ z ∈ inner, x.rightBound o < z.strength)
    (hle : y.strength ≤ x.rightBound o) : SplitsAt o (x :: (inner ++ before)) y after := by
  refine ⟨fun hright => ⟨?_, (hy.1 hright).2⟩, fun hright => ⟨?_, (hy.2 hright).2⟩⟩
  · -- `y` groups to the right, so it has to be weaker than `x`, which comes before it.
    have hx : y.strength < x.strength := by
      by_cases hx : x.GroupsRight o
      · rw [Link.rightBound_of_groupsRight hx] at hle
        omega
      · have hne : x.strength ≠ y.strength := fun h => hx (hright.of_strength h)
        rw [Link.rightBound_of_not_groupsRight hx] at hle
        omega
    intro z hz
    rcases List.mem_cons.mp hz with rfl | hz
    · exact hx
    · rcases List.mem_append.mp hz with hz | hz
      · exact Int.lt_of_le_of_lt hle (htight z hz)
      · exact (hy.1 hright).1 z hz
  · have hx : x.rightBound o ≤ x.strength := by
      by_cases hx : x.GroupsRight o
      · rw [Link.rightBound_of_groupsRight hx]
        omega
      · exact Int.le_of_eq (Link.rightBound_of_not_groupsRight hx)
    intro z hz
    rcases List.mem_cons.mp hz with rfl | hz
    · exact Int.le_trans hle hx
    · rcases List.mem_append.mp hz with hz | hz
      · exact Int.le_of_lt (Int.lt_of_le_of_lt hle (htight z hz))
      · exact (hy.2 hright).1 z hz

/-- The first operator may be folded with a right operand that stopped where the next operator does not
bind tighter. -/
theorem Grouped.fold {o : ParseOptions} {a m t : Node} {x : Link} {inner outer : List Link}
    (hinner : Grouped o x.node inner m) (htight : ∀ y ∈ inner, x.rightBound o < y.strength)
    (hstop : ∀ y, outer.head? = some y → y.strength ≤ x.rightBound o)
    (h : Grouped o (.joined x.symbol a m) outer t) : Grouped o a (x :: (inner ++ outer)) t := by
  generalize hb : Node.joined x.symbol a m = b at h
  -- The tree of the outer links is built on the folded node; each of its splits is one of the whole.
  induction h with
  | operand =>
    rw [List.append_nil, ← hb]
    exact .split (splitsAt_first htight) (.operand a) hinner
  | @split b l r before after y hy hl hr ihl ihr =>
    -- The first of the outer links is one of `before`, which are no weaker than `y`, or is `y`.
    have hle : y.strength ≤ x.rightBound o := by
      cases before with
      | nil => exact hstop y rfl
      | cons z before => exact Int.le_trans (hy.le_before List.mem_cons_self) (hstop z rfl)
    have hbefore : Grouped o a (x :: (inner ++ before)) l := by
      apply ihl _ hb
      intro z hz
      cases before with
      | nil => cases hz
      | cons w before => exact hstop z hz
    rw [← List.append_assoc, ← List.cons_append]
    exact .split (hy.extend htight hle) hbefore hr

/-! ## What the parser does on a chain -/

/-- Each operator is one of the table and each operand is, as `Atom` says, an atom up to the next
operator or to the end of the chain. -/
inductive Chained (Atom : List Token → List Token → Node → Prop) (tail : List Token) :
    List Link → Prop where
  | nil : Chained Atom tail []
  | cons {x : Link} {links : List Link} :
    Grammar.Mark.binary.fits x.operator = true →
    Atom x.operand (tokens links ++ tail) x.node → Chained Atom tail links →
    Chained Atom tail (x :: links)

namespace Chained

variable {Atom Atom' : List Token → List Token → Node → Prop} {tail : List Token} {links : List Link}

theorem imp (h : Chained Atom tail links) (hatom : ∀ {ts rest a}, Atom ts rest a → Atom' ts rest a) :
    Chained Atom' tail links := by
  induction h with
  | nil => exact .nil
  | cons hfits hx _ ih => exact .cons hfits (hatom hx) ih

theorem dropWhile (h : Chained Atom tail links) (p : Link → Bool) :
    Chained Atom tail (links.dropWhile p) := by
  induction h with
  | nil => exact .nil
  | @cons x links hfits hx hlinks ih =>
    rw [List.dropWhile_cons]
    split
    · exact ih
    · exact .cons hfits hx hlinks

end Chained

/-- Whatever was taken before, the tokens are read as an atom up to the rest. -/
def ReadsAtom (o : ParseOptions) (k : Nat) (ts rest : List Token) (a : Node) : Prop :=
  ∀ l, ∃ l', Reads o (.atom k) ⟨l, ts ++ rest⟩ [a] ⟨l', rest⟩

theorem ReadsAtom.mono {o : ParseOptions} {k n : Nat} {ts rest : List Token} {a : Node}
    (h : ReadsAtom o k ts rest a) (hkn : k ≤ n) : ReadsAtom o n ts rest a := by
  intro l
  obtain ⟨l', hreads⟩ := h l
  obtain ⟨j, rfl⟩ : ∃ j, n = j + k := ⟨n - k, by omega⟩
  exact ⟨l', hreads.relax j o.maxDepth⟩

/-- A stretch is the part in a narrower class and then a stretch again. -/
theorem takeWhile_eq_append {α : Type} {p q : α → Bool} (h : ∀ x, q x = true → p x = true)
    (xs : List α) : xs.takeWhile p = xs.takeWhile q ++ (xs.dropWhile q).takeWhile p ∧
      xs.dropWhile p = (xs.dropWhile q).dropWhile p := by
  induction xs with
  | nil => exact ⟨rfl, rfl⟩
  | cons x xs ih =>
    cases hq : q x with
    | false => simp [hq]
    | true => simp [hq, h x hq, ih.1, ← ih.2]

/-- What comes first behind the part in the narrower class is not in that class. -/
theorem eq_false_of_head?_takeWhile {α : Type} {p q : α → Bool} {xs : List α} {x : α}
    (h : ((xs.dropWhile q).takeWhile p).head? = some x) : q x = false := by
  have hnot := List.head?_dropWhile_not q xs
  cases hrest : xs.dropWhile q with
  | nil =>
    rw [hrest] at h
    cases h
  | cons y ys =>
    rw [hrest, List.takeWhile_cons] at h
    rw [hrest] at hnot
    split at h
    · cases h
      simpa using hnot
    · cases h

/-- The operators of a chain that bind tighter than a bound are folded to the tree of their links. -/
theorem reads_operators_of_chained {o : ParseOptions} {k : Nat} {tail : List Token}
    {links : List Link} (hlinks : Chained (ReadsAtom o k) tail links) {b : Int}
    (htail : ∀ t, tail.head? = some t → ¬ t.Tighter b) {n : Nat} (hn : k + 2 * links.length ≤ n)
    (a : Node) (l : Option Token) :
    ∃ t l', Reads o (.operators n a b) ⟨l, tokens links ++ tail⟩ [t]
        ⟨l', tokens (links.dropWhile (b < ·.strength)) ++ tail⟩ ∧
      Grouped o a (links.takeWhile (b < ·.strength)) t := by
  -- The loop goes on behind the links of a right operand, so the induction is on their number.
  induction hlen : links.length using Nat.strongRecOn generalizing links b n a l with
  | ind len ih =>
    cases hlinks with
    | nil =>
      refine ⟨a, l, .settled ?_, .operand a⟩
      rintro ⟨t, ht, htight⟩
      exact htail t ht htight
    | @cons x links hfits hx hlinks =>
      have htokens : tokens (x :: links) ++ tail =
          x.operator :: (x.operand ++ (tokens links ++ tail)) := by
        rw [tokens_cons, List.cons_append, List.append_assoc]
      by_cases hbound : b < x.strength
      · have htight : x.operator.Tighter b := ⟨(Grammar.tighter_zero_iff.mpr hfits).1, hbound⟩
        have hle : b ≤ x.rightBound o := Link.le_rightBound hbound
        rw [List.length_cons] at hn hlen
        obtain ⟨n, rfl⟩ : ∃ n', n = n' + 2 := ⟨n - 2, by omega⟩
        -- The right operand takes the links that bind tighter than its bound.
        obtain ⟨l₁, hatom⟩ := hx.mono (show k ≤ n by omega) (some x.operator)
        have htailRight : ∀ t, tail.head? = some t → ¬ t.Tighter (x.rightBound o) := by
          intro t ht h
          exact htail t ht ⟨h.1, Int.lt_of_le_of_lt hle h.2⟩
        obtain ⟨m, l₂, hright, hm⟩ := ih links.length (by omega) hlinks htailRight (n := n)
          (by omega) x.node l₁ rfl
        -- The links it left are folded onto the node that has come about.
        have hdrop : (links.dropWhile (x.rightBound o < ·.strength)).length ≤ links.length :=
          (List.dropWhile_suffix _).length_le
        obtain ⟨t, l₃, hrest, ht⟩ := ih _ (by omega)
          (hlinks.dropWhile (x.rightBound o < ·.strength)) htail (n := n + 1) (by omega)
          (.joined x.symbol a m) l₂ rfl
        have hnarrow : ∀ y : Link, decide (x.rightBound o < y.strength) = true →
            decide (b < y.strength) = true := by
          intro y hy
          exact decide_eq_true (Int.lt_of_le_of_lt hle (of_decide_eq_true hy))
        obtain ⟨htake, hdropAll⟩ := takeWhile_eq_append hnarrow links
        refine ⟨t, l₃, ?_, ?_⟩
        · rw [htokens, List.dropWhile_cons, if_pos (by simpa using hbound), hdropAll]
          exact .fold htight (.operand hatom hright) hrest
        · rw [List.takeWhile_cons, if_pos (by simpa using hbound), htake]
          have hinner : ∀ y ∈ links.takeWhile (x.rightBound o < ·.strength),
              x.rightBound o < y.strength := by
            intro y hy
            simpa using List.all_eq_true.mp List.all_takeWhile y hy
          refine .fold hm hinner ?_ ht
          intro y hy
          have hnot := eq_false_of_head?_takeWhile hy
          simpa using hnot
      · refine ⟨a, l, ?_, ?_⟩
        · rw [List.dropWhile_cons, if_neg (by simpa using hbound)]
          apply Reads.settled
          rintro ⟨t, ht, htight⟩
          rw [htokens] at ht
          cases ht
          exact hbound htight.2
        · rw [List.takeWhile_cons, if_neg (by simpa using hbound)]
          exact .operand a

/-! ## Runs of the parser -/

/-- In some state in front of these tokens, with some limit of nesting, the parser reads an atom: it
takes `ts` and leaves `rest`. -/
def Parser.TakesAtom (σ : Type) [TokenSource σ] (o : ParseOptions) (ts rest : List Token) (a : Node) :
    Prop :=
  ∃ (d : Int) (p p' : Parser σ), p.spot.rest = ts ++ rest ∧
    Parser.atom { o with maxDepth := d } p = .ok a p' ∧ p'.spot.rest = rest

theorem Parser.TakesAtom.readsAtom {σ : Type} [TokenSource σ] [LawfulTokenSource σ]
    {o : ParseOptions} {ts rest : List Token} {a : Node} (h : TakesAtom σ o ts rest a) :
    ∃ k, ReadsAtom o k ts rest a := by
  obtain ⟨d, p, p', hrest, hrun, hrest'⟩ := h
  refine ⟨p.levels { o with maxDepth := d }, ?_⟩
  intro l
  refine ⟨p'.last, ?_⟩
  obtain ⟨hreads, _⟩ := (Parser.atom_exact p.spot).sound rfl rfl hrun
  rw [← hrest, ← hrest']
  exact (hreads.forget trivial l).limit o.maxDepth

theorem Chained.readsAtom {σ : Type} [TokenSource σ] [LawfulTokenSource σ] {o : ParseOptions}
    {tail : List Token} {links : List Link} (h : Chained (Parser.TakesAtom σ o) tail links) :
    ∃ k, Chained (ReadsAtom o k) tail links := by
  induction h with
  | nil => exact ⟨0, .nil⟩
  | cons hfits hx _ ih =>
    obtain ⟨i, hx⟩ := hx.readsAtom
    obtain ⟨j, hlinks⟩ := ih
    exact ⟨max i j, .cons hfits (hx.mono (Nat.le_max_left i j))
      (hlinks.imp fun h => h.mono (Nat.le_max_right i j))⟩

/-- An atom with the operators after it that bind tighter than a bound is run as it is read. -/
theorem Parser.atom_operators_exact {σ : Type} [TokenSource σ] [LawfulTokenSource σ]
    {o : ParseOptions} {n : Nat} (bound : Int) (s : Spot) :
    ExactAt (σ := σ) o n s (atom o >>= fun left => operators o left bound) fun e s'' =>
      ∃ a s', Reads o (.atom n) s [a] s' ∧ Reads o (.operators n a bound) s' [e] s'' :=
  ExactAt.bind (atom_exact s) fun _ s' ha => operators_exact (ha.spanned trivial) bound s'

/-- An atom and the operators after it that bind tighter than a bound are read as the tree of their
chain, given enough levels of nesting; what is left starts with the first operator that does not. The
source may fail behind the chain, though not where the next token should be. -/
theorem Parser.operators_of_chain {σ τ : Type} [TokenSource σ] [LawfulTokenSource σ] [TokenSource τ]
    [LawfulTokenSource τ] {o : ParseOptions} {first tail : List Token} {a : Node} {links : List Link}
    {bound : Int} (hfirst : TakesAtom τ o first (Link.tokens links ++ tail) a)
    (hlinks : Chained (TakesAtom τ o) tail links)
    (htail : ∀ t, tail.head? = some t → ¬ t.Tighter bound) :
    ∃ t, Grouped o a (links.takeWhile (bound < ·.strength)) t ∧
      (∀ t', Grouped o a (links.takeWhile (bound < ·.strength)) t' → t' = t) ∧
      ∃ n : Nat, ∀ (d : Int) (p : Parser σ), (tail = [] → p.Unfailing) →
        p.spot.rest = first ++ (Link.tokens links ++ tail) → n + p.depth ≤ d →
        ∃ p', (atom { o with maxDepth := d } >>= fun left =>
            operators { o with maxDepth := d } left bound) p = .ok t p' ∧ p'.depth = p.depth ∧
          p'.spot.rest = Link.tokens (links.dropWhile (bound < ·.strength)) ++ tail := by
  obtain ⟨i, hatom⟩ := hfirst.readsAtom
  obtain ⟨j, hlinks⟩ := hlinks.readsAtom
  -- Enough levels for every operand and two more for every operator.
  let n := max i j + 2 * links.length
  have hchain := fun m (hm : n ≤ m) => reads_operators_of_chained (b := bound)
    (hlinks.imp fun h => h.mono (Nat.le_max_right i j)) htail hm a
  obtain ⟨t, _, _, ht⟩ := hchain n (Nat.le_refl n) none
  refine ⟨t, ht, fun t' ht' => ht'.unique ht, n, fun d p hend hrest hd => ?_⟩
  have hlevels : n ≤ p.levels { o with maxDepth := d } := by
    show n ≤ (d - p.depth).toNat
    omega
  have hi : i ≤ p.levels { o with maxDepth := d } := by
    have hmax : i ≤ max i j := Nat.le_max_left i j
    omega
  obtain ⟨l₁, hfirst⟩ := hatom.mono hi p.last
  obtain ⟨t', l₂, hoperators, ht'⟩ := hchain _ hlevels l₁
  obtain rfl := ht'.unique ht
  have hspot : p.spot = ⟨p.last, first ++ (Link.tokens links ++ tail)⟩ := by
    rw [← hrest]
    rfl
  have hexact := atom_operators_exact (σ := σ) (o := { o with maxDepth := d })
    (n := p.levels { o with maxDepth := d }) bound p.spot
  have hreads := hfirst.limit d
  rw [← hspot] at hreads
  obtain ⟨p', hrun, hspot'⟩ := hexact.complete rfl rfl ⟨a, _, hreads, hoperators.limit d⟩
    fun hnil => hend (List.append_eq_nil_iff.mp hnil).2
  obtain ⟨_, hdepth, _⟩ := hexact.sound rfl rfl hrun
  exact ⟨p', hrun, hdepth, by rw [hspot']⟩

/-- The chain `a - b = c;` at the bound of assignments: the subtraction is folded, the assignment left. -/
theorem Parser.operators_of_chain_subtraction :
    let word (kind : TokenKind) (text : String) (i : Int) : Token := .plain kind text ⟨"x", 1, i, i⟩
    let name (text : String) (i : Int) : Node :=
      .reference text (some ⟨⟨"x", 1, i, i⟩, ⟨"x", 1, i, i⟩⟩)
    let links : List Link :=
      [⟨word .operator "-" 2, [word .identifier "b" 4], name "b" 4⟩,
        ⟨word .operator "=" 6, [word .identifier "c" 8], name "c" 8⟩]
    let tail := [word .punctuation ";" 9]
    TakesAtom Replay {} [word .identifier "a" 0] (Link.tokens links ++ tail) (name "a" 0) ∧
    Chained (TakesAtom Replay {}) tail links ∧ (∀ t, tail.head? = some t → ¬ t.Tighter 1) ∧
    ∃ t, Grouped {} (name "a" 0) (links.take 1) t ∧ ∃ n : Nat, ∀ (d : Int) (p : Parser Scanner),
      p.spot.rest = [word .identifier "a" 0] ++ (Link.tokens links ++ tail) → n + p.depth ≤ d →
      ∃ p', (atom { maxDepth := d } >>= fun left => operators { maxDepth := d } left 1) p = .ok t p' ∧
        p'.spot.rest = Link.tokens (links.drop 1) ++ tail := by
  intro word name links tail
  -- A fresh parser on each operand and what comes after it.
  let fresh (ts : List Token) : Parser Replay := .ofSource ⟨ts, .done (.start "x"), .start "x"⟩
  have ha : TakesAtom Replay {} [word .identifier "a" 0] (Link.tokens links ++ tail) (name "a" 0) :=
    ⟨1, fresh (word .identifier "a" 0 :: (Link.tokens links ++ tail)), _, rfl, rfl, rfl⟩
  have hb : TakesAtom Replay {} [word .identifier "b" 4] (Link.tokens (links.drop 1) ++ tail)
      (name "b" 4) :=
    ⟨1, fresh (word .identifier "b" 4 :: (Link.tokens (links.drop 1) ++ tail)), _, rfl, rfl, rfl⟩
  have hc : TakesAtom Replay {} [word .identifier "c" 8] (Link.tokens [] ++ tail) (name "c" 8) :=
    ⟨1, fresh (word .identifier "c" 8 :: tail), _, rfl, rfl, rfl⟩
  have hlinks : Chained (TakesAtom Replay {}) tail links :=
    .cons (by decide) hb (.cons (by decide) hc .nil)
  have htail : ∀ t, tail.head? = some t → ¬ t.Tighter 1 := by
    rintro t ⟨⟩
    decide
  obtain ⟨t, ht, _, n, hrun⟩ := operators_of_chain (σ := Scanner) ha hlinks htail
  refine ⟨ha, hlinks, htail, t, ht, n, fun d p hrest hd => ?_⟩
  obtain ⟨p', hp', _, hspot⟩ := hrun d p nofun hrest hd
  exact ⟨p', hp', hspot⟩

end LambdaReader
