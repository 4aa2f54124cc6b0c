import LambdaReader.Proofs.Reads.Basic

/-!
# `Proofs.Reads.Laws` — what holds of every reading

A reading takes tokens from the front, more levels do no harm, what was taken before does not matter,
and every node that is read has a span. The token that a primary starts with decides its form.
-/

namespace LambdaReader

/-! ## A reading takes tokens from the front -/

namespace Spot

/-- From one place to another these tokens are taken. -/
def Takes (s : Spot) (ts : List Token) (s' : Spot) : Prop :=
  s.rest = ts ++ s'.rest ∧ s'.last = ts.getLast?.or s.last

theorem Takes.nil (s : Spot) : s.Takes [] s := ⟨rfl, rfl⟩

theorem Takes.one (last : Option Token) (t : Token) (rest : List Token) :
    Takes ⟨last, t :: rest⟩ [t] ⟨some t, rest⟩ := ⟨rfl, rfl⟩

theorem Takes.append {s s₁ s₂ : Spot} {ts us : List Token} (h : s.Takes ts s₁)
    (h' : s₁.Takes us s₂) : s.Takes (ts ++ us) s₂ := by
  refine ⟨?_, ?_⟩
  · rw [h.1, h'.1, List.append_assoc]
  · rw [h'.2, h.2, List.getLast?_append, Option.or_assoc]

theorem Takes.length {s s' : Spot} {ts : List Token} (h : s.Takes ts s') :
    s.rest.length = ts.length + s'.rest.length := by
  rw [h.1, List.length_append]

theorem Passes.takes {kind : TokenKind} {x : String} {s s' : Spot} (h : s.Passes kind x s') :
    ∃ t, t.is kind x = true ∧ s.Takes [t] s' := by
  obtain ⟨ht⟩ := h
  exact ⟨_, ht, Takes.one _ _ _⟩

theorem Names.takes {x : String} {s s' : Spot} (h : s.Names x s') :
    ∃ t, t.kind = .identifier ∧ t.text = x ∧ s.Takes [t] s' := by
  obtain ⟨ht⟩ := h
  exact ⟨_, ht, rfl, Takes.one _ _ _⟩

theorem Then.takes {s s' : Spot} (h : s.Then s') : ∃ ts, s.Takes ts s' := by
  cases h with
  | block => exact ⟨[], Takes.nil s⟩
  | word h => obtain ⟨t, _, ht⟩ := h.takes; exact ⟨[t], ht⟩

end Spot

open Spot

theorem Sequence.takes {α : Type} {o : ParseOptions} {item : Spot → α → Spot → Prop}
    {stop separator : String} (hitem : ∀ {s x s'}, item s x s' → ∃ ts, s.Takes ts s')
    {first : Bool} {s s' : Spot} {xs : List α} (h : Sequence o item stop separator first s xs s') :
    ∃ ts, s.Takes ts s' := by
  induction h with
  | close hstop => obtain ⟨t, _, ht⟩ := hstop.takes; exact ⟨_, ht⟩
  | trailing _ hsep hstop =>
    obtain ⟨t, _, ht⟩ := hsep.takes
    obtain ⟨u, _, hu⟩ := hstop.takes
    exact ⟨_, ht.append hu⟩
  | first hx _ ih =>
    obtain ⟨ts, hts⟩ := hitem hx
    obtain ⟨us, hus⟩ := ih
    exact ⟨_, hts.append hus⟩
  | more hsep hx _ ih =>
    obtain ⟨t, _, ht⟩ := hsep.takes
    obtain ⟨ts, hts⟩ := hitem hx
    obtain ⟨us, hus⟩ := ih
    exact ⟨_, (ht.append hts).append hus⟩

/-- The task gives nothing before it has taken a token. -/
def Task.Taking : Task → Prop
  | statements _ | operators .. | suffix .. => False
  | _ => True

/-- A reading takes tokens from the front, and most tasks take at least one. -/
theorem Reads.takes {o : ParseOptions} {task : Task} {s s' : Spot} {ns : List Node}
    (h : Reads o task s ns s') : ∃ ts, s.Takes ts s' ∧ (task.Taking → ts ≠ []) := by
  -- The parts of a form take their tokens one after another; one of them takes at least one.
  induction h with
  | done => exact ⟨_, .nil _, nofun⟩
  | last _ _ ih =>
    obtain ⟨ts, hts, _⟩ := ih
    exact ⟨_, hts, nofun⟩
  | next _ hsep _ ihe ih =>
    obtain ⟨ts, hts, _⟩ := ihe
    obtain ⟨t, _, ht⟩ := hsep.takes
    obtain ⟨us, hus, _⟩ := ih
    exact ⟨_, (hts.append ht).append hus, nofun⟩
  | expression _ _ _ iha iho ihs =>
    obtain ⟨ts, hts, hne⟩ := iha
    obtain ⟨us, hus, _⟩ := iho
    obtain ⟨vs, hvs, _⟩ := ihs
    exact ⟨_, (hts.append hus).append hvs, fun _ => by simp [hne trivial]⟩
  | operand _ _ iha iho =>
    obtain ⟨ts, hts, hne⟩ := iha
    obtain ⟨us, hus, _⟩ := iho
    exact ⟨_, hts.append hus, fun _ => by simp [hne trivial]⟩
  | settled => exact ⟨_, .nil _, nofun⟩
  | fold _ _ _ ihr iho =>
    obtain ⟨ts, hts, _⟩ := ihr
    obtain ⟨us, hus, _⟩ := iho
    exact ⟨_, ((Takes.one _ _ _).append hts).append hus, nofun⟩
  | atom _ _ ihp ihs =>
    obtain ⟨ts, hts, hne⟩ := ihp
    obtain ⟨us, hus, _⟩ := ihs
    exact ⟨_, hts.append hus, fun _ => by simp [hne trivial]⟩
  | bare => exact ⟨_, .nil _, nofun⟩
  | call hopen _ ih =>
    obtain ⟨t, _, ht⟩ := hopen.takes
    obtain ⟨ts, hts, _⟩ := ih
    exact ⟨_, ht.append hts, nofun⟩
  | group hopen _ hstop ih =>
    obtain ⟨t, _, ht⟩ := hopen.takes
    obtain ⟨ts, hts, _⟩ := ih
    obtain ⟨u, _, hu⟩ := hstop.takes
    exact ⟨_, (ht.append hts).append hu, fun _ => by simp⟩
  | block hopen _ ih =>
    obtain ⟨t, _, ht⟩ := hopen.takes
    obtain ⟨ts, hts, _⟩ := ih
    exact ⟨_, ht.append hts, fun _ => by simp⟩
  | ifThen hif _ hthen _ _ ihc ihp =>
    obtain ⟨t, _, ht⟩ := hif.takes
    obtain ⟨cs, hcs, _⟩ := ihc
    obtain ⟨us, hus⟩ := hthen.takes
    obtain ⟨ps, hps, _⟩ := ihp
    exact ⟨_, ((ht.append hcs).append hus).append hps, fun _ => by simp⟩
  | ifElse hif _ hthen _ helse _ ihc ihp ihq =>
    obtain ⟨t, _, ht⟩ := hif.takes
    obtain ⟨cs, hcs, _⟩ := ihc
    obtain ⟨us, hus⟩ := hthen.takes
    obtain ⟨ps, hps, _⟩ := ihp
    obtain ⟨v, _, hv⟩ := helse.takes
    obtain ⟨qs, hqs, _⟩ := ihq
    exact ⟨_, ((((ht.append hcs).append hus).append hps).append hv).append hqs, fun _ => by simp⟩
  | lambda hword hopen hparams _ ihb =>
    obtain ⟨t, _, ht⟩ := hword.takes
    obtain ⟨u, _, hu⟩ := hopen.takes
    obtain ⟨ps, hps⟩ := hparams.takes fun hx => by
      obtain ⟨v, _, _, hv⟩ := hx.takes
      exact ⟨_, hv⟩
    obtain ⟨bs, hbs, _⟩ := ihb
    exact ⟨_, ((ht.append hu).append hps).append hbs, fun _ => by simp⟩
  | truth h => obtain ⟨t, _, ht⟩ := h.takes; exact ⟨_, ht, fun _ => by simp⟩
  | leaf => exact ⟨_, .one _ _ _, fun _ => by simp⟩
  | seqClose hstop => obtain ⟨t, _, ht⟩ := hstop.takes; exact ⟨_, ht, fun _ => by simp⟩
  | seqTrailing _ hsep hstop =>
    obtain ⟨t, _, ht⟩ := hsep.takes
    obtain ⟨u, _, hu⟩ := hstop.takes
    exact ⟨_, ht.append hu, fun _ => by simp⟩
  | seqFirst _ _ ihe ih =>
    obtain ⟨ts, hts, hne⟩ := ihe
    obtain ⟨us, hus, _⟩ := ih
    exact ⟨_, hts.append hus, fun _ => by simp [hne trivial]⟩
  | seqMore hsep _ _ ihe ih =>
    obtain ⟨t, _, ht⟩ := hsep.takes
    obtain ⟨ts, hts, _⟩ := ihe
    obtain ⟨us, hus, _⟩ := ih
    exact ⟨_, (ht.append hts).append hus, fun _ => by simp⟩

/-- A task that takes a token leaves fewer. -/
theorem Reads.length_lt {o : ParseOptions} {task : Task} {s s' : Spot} {ns : List Node}
    (h : Reads o task s ns s') (htask : task.Taking) : s'.rest.length < s.rest.length := by
  obtain ⟨ts, hts, hne⟩ := h.takes
  have hpos : 0 < ts.length := List.length_pos_iff.mpr (hne htask)
  rw [hts.length]
  omega

/-! ## More levels do no harm -/

/-- The task with more levels. -/
def Task.raise (k : Nat) : Task → Task
  | statements n => statements (k + n)
  | expression n => expression (k + n)
  | operand n bound => operand (k + n) bound
  | operators n left bound => operators (k + n) left bound
  | atom n => atom (k + n)
  | primary n => primary (k + n)
  | suffix n callee => suffix (k + n) callee
  | sequence n stop separator first => sequence (k + n) stop separator first

theorem Sequence.limit {α : Type} {o : ParseOptions} {item : Spot → α → Spot → Prop}
    {stop separator : String} {first : Bool} {s s' : Spot} {xs : List α} (d : Int)
    (h : Sequence o item stop separator first s xs s') :
    Sequence { o with maxDepth := d } item stop separator first s xs s' := by
  induction h with
  | close hstop => exact .close hstop
  | trailing ho hsep hstop => exact .trailing ho hsep hstop
  | first hx _ ih => exact .first hx ih
  | more hsep hx _ ih => exact .more hsep hx ih

/-- The limit of nesting matters only through the levels that are left, and more of them do no harm. -/
theorem Reads.relax {o : ParseOptions} {task : Task} {s s' : Spot} {ns : List Node} (k : Nat) (d : Int)
    (h : Reads o task s ns s') : Reads { o with maxDepth := d } (task.raise k) s ns s' := by
  -- No rule asks for the limit, and `k` more levels are `k` more in every part.
  induction h with
  | done h => exact .done h
  | last _ h ih => exact .last ih h
  | next _ hsep _ ihe ih => exact .next ihe hsep ih
  | expression _ _ _ iha iho ihs => exact .expression iha iho ihs
  | operand _ _ iha iho => exact .operand iha iho
  | settled h => exact .settled h
  | fold ht _ _ ihr iho => exact .fold ht ihr iho
  | atom _ _ ihp ihs => exact .atom ihp ihs
  | bare h => exact .bare h
  | call hopen _ ih => exact .call hopen ih
  | group hopen _ hstop ih => exact .group hopen ih hstop
  | block hopen _ ih => exact .block hopen ih
  | ifThen hif _ hthen _ helse ihc ihp => exact .ifThen hif ihc hthen ihp helse
  | ifElse hif _ hthen _ helse _ ihc ihp ihq => exact .ifElse hif ihc hthen ihp helse ihq
  | lambda hword hopen hparams _ ihb => exact .lambda hword hopen (hparams.limit d) ihb
  | truth h => exact .truth h
  | leaf h => exact .leaf h
  | seqClose h => exact .seqClose h
  | seqTrailing ho hsep hstop => exact .seqTrailing ho hsep hstop
  | seqFirst _ _ ihe ih => exact .seqFirst ihe ih
  | seqMore hsep _ _ ihe ih => exact .seqMore hsep ihe ih

theorem Task.raise_zero (task : Task) : task.raise 0 = task := by
  cases task <;> rw [Task.raise, Nat.zero_add]

theorem Reads.limit {o : ParseOptions} {task : Task} {s s' : Spot} {ns : List Node} (d : Int)
    (h : Reads o task s ns s') : Reads { o with maxDepth := d } task s ns s' := by
  have hrelaxed := h.relax 0 d
  rw [Task.raise_zero] at hrelaxed
  exact hrelaxed

/-! ## What was taken before does not matter -/

theorem Spot.Passes.forget {kind : TokenKind} {x : String} {s s' : Spot} (h : s.Passes kind x s')
    (l : Option Token) : Passes kind x ⟨l, s.rest⟩ s' := by
  obtain ⟨ht⟩ := h
  exact ⟨ht⟩

/-- A task that takes a token gives the same nodes whatever was taken before it. -/
theorem Reads.forget {o : ParseOptions} {task : Task} {s s' : Spot} {ns : List Node}
    (h : Reads o task s ns s') (htask : task.Taking) (l : Option Token) :
    Reads o task ⟨l, s.rest⟩ ns s' := by
  -- Only the part that comes first can see the token before it, and it takes one itself.
  induction h with
  | done | last | next | settled | fold | bare | call => exact absurd htask id
  | expression _ ho hs iha => exact .expression (iha trivial) ho hs
  | operand _ ho iha => exact .operand (iha trivial) ho
  | atom _ hs ihp => exact .atom (ihp trivial) hs
  | group hopen he hstop => exact .group (hopen.forget l) he hstop
  | block hopen hbody => exact .block (hopen.forget l) hbody
  | ifThen hif hc hthen hp helse => exact .ifThen (hif.forget l) hc hthen hp helse
  | ifElse hif hc hthen hp helse hq => exact .ifElse (hif.forget l) hc hthen hp helse hq
  | lambda hword hopen hparams hb => exact .lambda (hword.forget l) hopen hparams hb
  | truth h => exact .truth (h.forget l)
  | leaf h => exact .leaf h
  | seqClose hstop => exact .seqClose (hstop.forget l)
  | seqTrailing ho hsep hstop => exact .seqTrailing ho (hsep.forget l) hstop
  | seqFirst _ hes ihe => exact .seqFirst (ihe trivial) hes
  | seqMore hsep he hes => exact .seqMore (hsep.forget l) he hes

/-! ## Every node has a span -/

/-- The nodes that the task starts from have spans. -/
def Task.Spanned : Task → Prop
  | operators _ left _ => left.span.isSome = true
  | suffix _ callee => callee.span.isSome = true
  | _ => True

theorem Spot.Passes.spanTo {kind : TokenKind} {x : String} {s s₁ : Spot} (h : s.Passes kind x s₁)
    (s' : Spot) : (s.spanTo s').isSome = true := by
  obtain ⟨_⟩ := h
  rfl

theorem Spot.Passes.spanTo_eq {kind : TokenKind} {x : String} {s s₁ : Spot} (h : s.Passes kind x s₁)
    {l : Location} (hl : ∀ t, s.rest.head? = some t → t.location = l) (s' : Spot) :
    s.spanTo s' = some (s'.spanFrom l) := by
  obtain ⟨_⟩ := h
  rw [← hl _ rfl]
  rfl

theorem Node.span_joined {left right : Node} (symbol : String) (hl : left.span.isSome = true)
    (hr : right.span.isSome = true) : (joined symbol left right).span.isSome = true := by
  obtain ⟨a, ha⟩ := Option.isSome_iff_exists.mp hl
  obtain ⟨b, hb⟩ := Option.isSome_iff_exists.mp hr
  rw [joined, ha, hb]
  split <;> rfl

theorem Token.span_leaf? {t : Token} {a : Node} (h : t.leaf? = some a) : a.span.isSome = true := by
  unfold Token.leaf? at h
  cases hk : t.kind <;> simp only [hk, Option.some.injEq, Option.map_eq_some_iff, reduceCtorEq] at h
  case number => obtain ⟨x, _, rfl⟩ := h; rfl
  all_goals rw [← h]; rfl

/-- Every node that is read has a span. -/
theorem Reads.span_isSome {o : ParseOptions} {task : Task} {s s' : Spot} {ns : List Node}
    (h : Reads o task s ns s') (htask : task.Spanned) : ∀ e ∈ ns, e.span.isSome = true := by
  have single : ∀ {e : Node}, (∀ x ∈ [e], x.span.isSome = true) ↔ e.span.isSome = true :=
    List.forall_mem_singleton
  induction h with
  | done | seqClose | seqTrailing => intro e he; cases he
  | last _ _ ih => exact ih trivial
  | next _ _ _ ihe ih => exact List.forall_mem_cons.mpr ⟨single.mp (ihe trivial), ih trivial⟩
  | expression _ _ _ iha iho ihs =>
    have hfirst := single.mp (iha trivial)
    have hwhole := single.mp (iho hfirst)
    exact ihs hwhole
  | operand _ _ iha iho => exact iho (single.mp (iha trivial))
  | settled => exact single.mpr htask
  | fold _ _ _ ihr iho =>
    have hright := single.mp (ihr trivial)
    exact iho (Node.span_joined _ htask hright)
  | atom _ _ ihp ihs => exact ihs (single.mp (ihp trivial))
  | bare => exact single.mpr htask
  | call => exact single.mpr ((Option.isSome_map ..).trans htask)
  | group _ _ _ ih => exact ih trivial
  | @block _ _ _ _ body hopen _ ih =>
    -- A block of one expression is that expression and has its span.
    apply single.mpr
    match body, ih trivial with
    | [], _ => exact hopen.spanTo _
    | [n], ih => exact single.mp ih
    | _ :: _ :: _, _ => exact hopen.spanTo _
  | ifThen hif | ifElse hif | lambda hif | truth hif => exact single.mpr (hif.spanTo _)
  | leaf ht => exact single.mpr (Token.span_leaf? ht)
  | seqFirst _ _ ihe ih => exact List.forall_mem_cons.mpr ⟨single.mp (ihe trivial), ih trivial⟩
  | seqMore _ _ _ ihe ih => exact List.forall_mem_cons.mpr ⟨single.mp (ihe trivial), ih trivial⟩

theorem Reads.spanned {o : ParseOptions} {task : Task} {s s' : Spot} {e : Node}
    (h : Reads o task s [e] s') (htask : task.Spanned) : e.span.isSome = true :=
  h.span_isSome htask e (List.mem_singleton_self e)

/-! ## What a reading starts with -/

/-- A primary may start with this token. -/
def Token.Opens (t : Token) : Prop :=
  t.is .punctuation "(" ∨ t.is .punctuation "\x7b" ∨ t.is .keyword "if" ∨ t.is .keyword "true" ∨
    t.is .keyword "false" ∨ t.is .keyword "lambda" ∨ t.leaf?.isSome

theorem Token.Opens.not_is {t : Token} (h : t.Opens) {x : String} (hopen : x ≠ "(")
    (hbrace : x ≠ "\x7b") : t.is .punctuation x = false := by
  rcases h with h | h | h | h | h | h | h
  case inr.inr.inr.inr.inr.inr =>
    -- A leaf is neither punctuation nor a keyword.
    apply Bool.eq_false_iff.mpr
    intro hx
    have hk : t.kind = .punctuation := Token.kind_of_is hx
    rw [Token.leaf?, hk] at h
    cases h
  all_goals simp [Token.is_eq h, hopen.symm, hbrace.symm]

/-- An item starts with a token that opens an expression. -/
theorem Reads.opens {o : ParseOptions} {task : Task} {s s' : Spot} {ns : List Node}
    (h : Reads o task s ns s')
    (htask : match task with
      | .expression _ | .operand .. | .atom _ | .primary _ => True
      | _ => False) :
    ∃ t, s.rest.head? = some t ∧ t.Opens := by
  induction h with
  | done | last | next | settled | fold | bare | call | seqClose | seqTrailing | seqFirst | seqMore =>
    exact absurd htask id
  | expression _ _ _ ih | operand _ _ ih | atom _ _ ih => exact ih trivial
  | group h => obtain ⟨ht⟩ := h; exact ⟨_, rfl, .inl ht⟩
  | block h => obtain ⟨ht⟩ := h; exact ⟨_, rfl, .inr (.inl ht)⟩
  | ifThen h | ifElse h => obtain ⟨ht⟩ := h; exact ⟨_, rfl, .inr (.inr (.inl ht))⟩
  | lambda h => obtain ⟨ht⟩ := h; exact ⟨_, rfl, by simp [Token.Opens, ht]⟩
  | @truth _ _ _ b h =>
    obtain ⟨ht⟩ := h
    cases b with
    | true => exact ⟨_, rfl, .inr (.inr (.inr (.inl ht)))⟩
    | false => exact ⟨_, rfl, .inr (.inr (.inr (.inr (.inl ht))))⟩
  | leaf h => exact ⟨_, rfl, by simp [Token.Opens, h]⟩

/-! ## The first token decides the form of a primary -/

theorem Token.is_of_leaf? {t : Token} {a : Node} (h : t.leaf? = some a) (x : String) :
    t.is .punctuation x = false ∧ t.is .keyword x = false := by
  unfold Token.leaf? at h
  cases hk : t.kind <;> rw [hk] at h <;> simp [Token.is, hk] at h ⊢

section Forms

variable {o : ParseOptions} {n : Nat} {s s' : Spot} {e : Node}

theorem reads_group_iff (hs : s.isAt .punctuation "(" = true) :
    Reads o (.primary n) s [e] s' ↔ ∃ s₁ s₂, s.Passes .punctuation "(" s₁ ∧
      Reads o (.expression n) s₁ [e] s₂ ∧ s₂.Passes .punctuation ")" s' := by
  constructor
  · intro h
    cases h with
    | group hopen he hstop => exact ⟨_, _, hopen, he, hstop⟩
    | block h | ifThen h | ifElse h | lambda h | truth h => rw [h.isAt] at hs; simp at hs
    | leaf h => rw [isAt_cons, (Token.is_of_leaf? h _).1] at hs; cases hs
  · rintro ⟨s₁, s₂, hopen, he, hstop⟩
    exact .group hopen he hstop

theorem reads_block_iff (hs : s.isAt .punctuation "\x7b" = true) :
    Reads o (.primary n) s [e] s' ↔ ∃ s₁ body, s.Passes .punctuation "\x7b" s₁ ∧
      Reads o (.sequence n "\x7d" ";" true) s₁ body s' ∧ e = .blocked body (s.spanTo s') := by
  constructor
  · intro h
    cases h with
    | block hopen hbody => exact ⟨_, _, hopen, hbody, rfl⟩
    | group h | ifThen h | ifElse h | lambda h | truth h => rw [h.isAt] at hs; simp at hs
    | leaf h => rw [isAt_cons, (Token.is_of_leaf? h _).1] at hs; cases hs
  · rintro ⟨s₁, body, hopen, hbody, rfl⟩
    exact .block hopen hbody

/-- What a conditional is after its positive branch depends on the next token. -/
theorem reads_conditional_iff (hs : s.isAt .keyword "if" = true) :
    Reads o (.primary n) s [e] s' ↔ ∃ s₁, s.Passes .keyword "if" s₁ ∧
      ∃ c s₂, Reads o (.expression n) s₁ [c] s₂ ∧ ∃ s₃, s₂.Then s₃ ∧
      ∃ p s₄, Reads o (.expression n) s₃ [p] s₄ ∧
        if s₄.isAt .keyword "else" then ∃ s₅, s₄.Passes .keyword "else" s₅ ∧
          ∃ q, Reads o (.expression n) s₅ [q] s' ∧ e = .ifElse c p q (s.spanTo s')
        else s' = s₄ ∧ e = .ifThen c p (s.spanTo s') := by
  constructor
  · intro h
    cases h with
    | ifThen hif hc hthen hp helse =>
      refine ⟨_, hif, _, _, hc, _, hthen, _, _, hp, ?_⟩
      rw [if_neg (Bool.eq_false_iff.mp helse)]
      exact ⟨rfl, rfl⟩
    | ifElse hif hc hthen hp helse hq =>
      refine ⟨_, hif, _, _, hc, _, hthen, _, _, hp, ?_⟩
      rw [helse.isAt, if_pos (by simp)]
      exact ⟨_, helse, _, hq, rfl⟩
    | @truth _ _ _ b h => rw [h.isAt] at hs; cases b <;> simp [Node.boolWord] at hs
    | group h | block h | lambda h => rw [h.isAt] at hs; simp at hs
    | leaf h => rw [isAt_cons, (Token.is_of_leaf? h _).2] at hs; cases hs
  · rintro ⟨s₁, hif, c, s₂, hc, s₃, hthen, p, s₄, hp, h⟩
    split at h
    · obtain ⟨s₅, helse, q, hq, rfl⟩ := h
      exact .ifElse hif hc hthen hp helse hq
    · next helse =>
      obtain ⟨rfl, rfl⟩ := h
      exact .ifThen hif hc hthen hp (Bool.eq_false_iff.mpr helse)

theorem reads_truth_iff {b : Bool} (hs : s.isAt .keyword (Node.boolWord b) = true) :
    Reads o (.primary n) s [e] s' ↔
      s.Passes .keyword (Node.boolWord b) s' ∧ e = .bool b (s.spanTo s') := by
  constructor
  · intro h
    cases h with
    | @truth _ _ _ c h =>
      have hbc : c = b := by
        rw [h.isAt] at hs
        cases b <;> cases c <;> simp_all [Node.boolWord]
      subst hbc
      exact ⟨h, rfl⟩
    | group h | block h | ifThen h | ifElse h | lambda h =>
      rw [h.isAt] at hs
      cases b <;> simp [Node.boolWord] at hs
    | leaf h => rw [isAt_cons, (Token.is_of_leaf? h _).2] at hs; cases hs
  · rintro ⟨h, rfl⟩
    exact .truth h

theorem reads_function_iff (hs : s.isAt .keyword "lambda" = true) :
    Reads o (.primary n) s [e] s' ↔ ∃ s₁, s.Passes .keyword "lambda" s₁ ∧
      ∃ s₂ params s₃, s₁.Passes .punctuation "(" s₂ ∧
        Sequence o Spot.Names ")" "," true s₂ params s₃ ∧
      ∃ b, Reads o (.expression n) s₃ [b] s' ∧ e = .lambda params b (s.spanTo s') := by
  constructor
  · intro h
    cases h with
    | lambda hword hopen hparams hb => exact ⟨_, hword, _, _, _, hopen, hparams, _, hb, rfl⟩
    | @truth _ _ _ b h => rw [h.isAt] at hs; cases b <;> simp [Node.boolWord] at hs
    | group h | block h | ifThen h | ifElse h => rw [h.isAt] at hs; simp at hs
    | leaf h => rw [isAt_cons, (Token.is_of_leaf? h _).2] at hs; cases hs
  · rintro ⟨s₁, hword, s₂, params, s₃, hopen, hparams, b, hb, rfl⟩
    exact .lambda hword hopen hparams hb

/-- A primary that starts with none of the fixed tokens is a leaf. -/
theorem reads_leaf_iff (hopen : ¬ s.isAt .punctuation "(" = true)
    (hbrace : ¬ s.isAt .punctuation "\x7b" = true) (hif : ¬ s.isAt .keyword "if" = true)
    (htrue : ¬ s.isAt .keyword "true" = true) (hfalse : ¬ s.isAt .keyword "false" = true)
    (hlambda : ¬ s.isAt .keyword "lambda" = true) :
    Reads o (.primary n) s [e] s' ↔
      ∃ l t rest, s = ⟨l, t :: rest⟩ ∧ t.leaf? = some e ∧ s' = ⟨some t, rest⟩ := by
  constructor
  · intro h
    cases h with
    | leaf h => exact ⟨_, _, _, rfl, h, rfl⟩
    | group h => exact absurd (by simp [h.isAt]) hopen
    | block h => exact absurd (by simp [h.isAt]) hbrace
    | ifThen h | ifElse h => exact absurd (by simp [h.isAt]) hif
    | lambda h => exact absurd (by simp [h.isAt]) hlambda
    | @truth _ _ _ b h =>
      cases b with
      | true => exact absurd (by simp [h.isAt, Node.boolWord]) htrue
      | false => exact absurd (by simp [h.isAt, Node.boolWord]) hfalse
  · rintro ⟨l, t, rest, rfl, h, rfl⟩
    exact .leaf h

end Forms
end LambdaReader
