import LambdaReader.Proofs.Writing

/-!
# `Proofs.ReadBack` — what is written is read back

The words of a written tree are read as that tree again. Whatever is part of something else stands in
parentheses, so what follows it is known: a mark, a keyword or an operator, and nothing that a tree in
parentheses would take for itself. With `Proofs.WellFormed` this says which trees there are.

## Main result
- `Source.parse_trees`: the trees that sources are read as are the programs of well-formed trees.
-/

namespace LambdaReader

open Lexicon Lexeme TokenSource

/-! ## Places before certain words -/

/-- The word is of a kind and stands for a text. -/
def Word.is (w : Word) (kind : TokenKind) (x : String) : Bool := w = ⟨kind, .text x⟩

theorem Token.is_eq_word (t : Token) (kind : TokenKind) (x : String) :
    t.is kind x = t.word.is kind x := by
  rw [Token.is, Token.hasText, Word.is, Token.word]
  cases hv : t.value with
  | text u =>
    by_cases hk : t.kind = kind
    · by_cases hu : u = x <;> simp [hk, hu]
    · simp [hk]
  | number v => simp
  | integer v => simp

theorem Token.of_word {t : Token} {kind : TokenKind} {x : String} (h : t.word = ⟨kind, .text x⟩) :
    t.kind = kind ∧ t.text = x := by
  have hv : t.value = .text x := congrArg Word.value h
  rw [Token.text, hv]
  exact ⟨congrArg Word.kind h, rfl⟩

namespace Spot

/-- From one place to another these words are passed over. -/
inductive Spells : Spot → List Word → Spot → Prop where
  | nil {s : Spot} : Spells s [] s
  | cons {last : Option Token} {t : Token} {rest : List Token} {ws : List Word} {s : Spot} :
    Spells ⟨some t, rest⟩ ws s → Spells ⟨last, t :: rest⟩ (t.word :: ws) s

variable {s s' : Spot} {w : Word} {ws us : List Word}

theorem Spells.token (h : s.Spells (w :: ws) s') :
    ∃ last t rest, s = ⟨last, t :: rest⟩ ∧ t.word = w ∧ Spells ⟨some t, rest⟩ ws s' := by
  cases h with
  | cons h => exact ⟨_, _, _, rfl, rfl, h⟩

theorem Spells.split (h : s.Spells (ws ++ us) s') : ∃ m, s.Spells ws m ∧ m.Spells us s' := by
  induction ws generalizing s with
  | nil => exact ⟨s, .nil, h⟩
  | cons w ws ih =>
    cases h with
    | cons h =>
      obtain ⟨m, hws, hus⟩ := ih h
      exact ⟨m, .cons hws, hus⟩

/-- All words that are left are passed over at the end. -/
theorem Spells.all (last : Option Token) (ts : List Token) :
    ∃ s, Spells ⟨last, ts⟩ (ts.map Token.word) s ∧ s.rest = [] := by
  induction ts generalizing last with
  | nil => exact ⟨_, .nil, rfl⟩
  | cons t ts ih =>
    obtain ⟨s, hs, hrest⟩ := ih (some t)
    exact ⟨s, .cons hs, hrest⟩

theorem Spells.isAt (h : s.Spells (w :: ws) s') (kind : TokenKind) (x : String) :
    s.isAt kind x = w.is kind x := by
  cases h with
  | cons h => rw [isAt_cons, Token.is_eq_word]

/-- A word that stands for a text is passed over. -/
theorem Spells.passes {kind : TokenKind} {x : String} (h : s.Spells (⟨kind, .text x⟩ :: ws) s') :
    ∃ m, s.Passes kind x m ∧ m.Spells ws s' := by
  obtain ⟨last, t, rest, rfl, ht, h⟩ := h.token
  refine ⟨_, ⟨?_⟩, h⟩
  rw [Token.is_eq_word, ht]
  exact decide_eq_true rfl

/-- Neither a call nor an operator goes on here. -/
structure Rests (s : Spot) : Prop where
  not_call : s.isAt .punctuation "(" = false
  not_tighter (bound : Int) : ¬s.Tighter bound

theorem rests_of_rest_eq_nil (h : s.rest = []) : s.Rests := by
  constructor
  · rw [Spot.isAt, h]
    rfl
  · intro bound
    rintro ⟨t, ht, _⟩
    rw [h] at ht
    cases ht

theorem Spells.rests (h : s.Spells (w :: ws) s') (hcall : w ≠ .mark "(")
    (hkind : w.kind ≠ .operator) : s.Rests := by
  constructor
  · rw [h.isAt]
    exact decide_eq_false hcall
  · intro bound
    cases h with
    | cons h =>
      rintro ⟨t, ht, hk, _⟩
      obtain rfl := Option.some.inj ht
      exact hkind hk

end Spot

/-! ## Parts in parentheses -/

/-- With that many levels the words of the tree are read as the tree, before anything that does not go
on with it. -/
def Node.ReadBy (d : Nat) (n : Node) : Prop :=
  ∀ ⦃o : ParseOptions⦄ ⦃k : Nat⦄ ⦃s s' : Spot⦄, d ≤ k → s.Spells (Piece.words n.pieces) s' →
    s'.Rests → s'.isAt .keyword "else" = false →
    ∃ a, Reads o (.expression k) s [a] s' ∧ a.bare = n.bare

section Parts

open Piece Spot

variable {o : ParseOptions} {d k : Nat} {n : Node} {s s' : Spot} {ws : List Word}

@[simp] theorem Piece.words_inParens (ps : List Piece) :
    words (inParens ps) = .mark "(" :: (words ps ++ [.mark ")"]) := by
  rw [inParens, words_mark, words_append]
  rfl

/-- A tree in parentheses is read and left behind, whatever comes after it. -/
theorem Spot.Spells.group (h : s.Spells (words (inParens n.pieces) ++ ws) s') (hn : n.ReadBy d)
    (hk : d ≤ k) : ∃ a m, Reads o (.primary k) s [a] m ∧ a.bare = n.bare ∧ m.Spells ws s' := by
  rw [words_inParens, List.cons_append, List.append_assoc] at h
  obtain ⟨s₁, hopen, h⟩ := h.passes
  obtain ⟨s₂, htree, h⟩ := h.split
  -- The closing mark comes next, and no tree goes on with it.
  have hrests : s₂.Rests := h.rests (by decide) (by decide)
  have helse : s₂.isAt .keyword "else" = false := by
    rw [h.isAt]
    decide
  obtain ⟨a, ha, hbare⟩ := hn hk htree hrests helse
  obtain ⟨m, hclose, h⟩ := h.passes
  exact ⟨a, m, .group hopen ha hclose, hbare, h⟩

/-- A primary that nothing goes on with is an expression. -/
theorem Reads.alone {a : Node} (h : Reads o (.primary k) s [a] s') (hs : s'.Rests) :
    Reads o (.expression (k + 1)) s [a] s' := by
  have hatom : Reads o (.atom k) s [a] s' := .atom h (.bare hs.not_call)
  exact .expression hatom (.settled (hs.not_tighter _)) (.bare hs.not_call)

/-- A tree in parentheses is read as an expression before a word that does not go on with it. -/
theorem Spot.Spells.groupBefore {w : Word} (h : s.Spells (words (inParens n.pieces) ++ w :: ws) s')
    (hn : n.ReadBy d) (hk : d + 1 ≤ k) (hcall : w ≠ .mark "(") (hkind : w.kind ≠ .operator) :
    ∃ a m, Reads o (.expression k) s [a] m ∧ a.bare = n.bare ∧ m.Spells (w :: ws) s' := by
  obtain ⟨k, rfl⟩ := Nat.exists_eq_succ_of_ne_zero (Nat.ne_zero_of_lt hk)
  obtain ⟨a, m, ha, hbare, hm⟩ := h.group (o := o) hn (Nat.le_of_succ_le_succ hk)
  exact ⟨a, m, ha.alone (hm.rests hcall hkind), hbare, hm⟩

/-- A tree in parentheses is read as an expression at the end of what is read. -/
theorem Spot.Spells.groupLast (h : s.Spells (words (inParens n.pieces)) s') (hn : n.ReadBy d)
    (hk : d + 1 ≤ k) (hs : s'.Rests) : ∃ a, Reads o (.expression k) s [a] s' ∧ a.bare = n.bare := by
  obtain ⟨k, rfl⟩ := Nat.exists_eq_succ_of_ne_zero (Nat.ne_zero_of_lt hk)
  rw [← List.append_nil (words _)] at h
  obtain ⟨a, m, ha, hbare, hm⟩ := h.group (o := o) hn (Nat.le_of_succ_le_succ hk)
  cases hm with
  | nil => exact ⟨a, ha.alone hs, hbare⟩

theorem Node.ReadBy.mono {m : Nat} (h : n.ReadBy d) (hm : d ≤ m) : n.ReadBy m := by
  intro o k s s' hk
  exact h (Nat.le_trans hm hk)

/-! ## Sequences -/

/-- Before a mark that opens no call, what is written for `b` is read as an item that is the same. -/
def Spot.ReadsBack {α β : Type} (item : Spot → α → Spot → Prop) (same : α → β → Prop)
    (write : β → List Piece) (s' : Spot) (b : β) : Prop :=
  ∀ ⦃x : String⦄ ⦃s : Spot⦄ ⦃ws : List Word⦄, x ≠ "(" →
    s.Spells (words (write b) ++ .mark x :: ws) s' →
    ∃ a m, item s a m ∧ same a b ∧ m.Spells (.mark x :: ws) s'

/-- What comes after an item is the next separator or the closing mark. -/
theorem Piece.words_separated {stop separator : String} (hstop : stop ≠ "(")
    (hseparator : separator ≠ "(") (items : List (List Piece)) (ws : List Word) :
    ∃ x us, x ≠ "(" ∧ words (items.flatMap ([mark separator, .blank] ++ ·)) ++ .mark stop :: ws =
      .mark x :: us := by
  cases items with
  | nil => exact ⟨stop, _, hstop, rfl⟩
  | cons ps items => exact ⟨separator, _, hseparator, rfl⟩

section Lists

variable {α β : Type} {item : Spot → α → Spot → Prop} {same : α → β → Prop} {write : β → List Piece}
  {stop separator : String} {bs : List β}

/-- The items after the first one, each with a separator before it. -/
theorem Spot.Spells.sequenceTail (hstop : stop ≠ "(") (hseparator : separator ≠ "(")
    (hbs : ∀ b ∈ bs, s'.ReadsBack item same write b)
    (h : s.Spells (words ((bs.map write).flatMap ([mark separator, .blank] ++ ·)) ++
      .mark stop :: ws) s') :
    ∃ as m, Sequence o item stop separator false s as m ∧ List.Forall₂ same as bs ∧
      m.Spells ws s' := by
  induction bs generalizing s with
  | nil =>
    obtain ⟨m, hclose, hm⟩ := h.passes
    exact ⟨[], m, .close hclose, .nil, hm⟩
  | cons b bs ih =>
    obtain ⟨hb, hbs⟩ := List.forall_mem_cons.mp hbs
    obtain ⟨x, us, hx, hus⟩ := words_separated hstop hseparator (bs.map write) ws
    -- Behind the item stands a separator or the closing mark, whichever it is.
    rw [List.map_cons, List.flatMap_cons, words_append, words_append, List.append_assoc,
      List.append_assoc, hus] at h
    obtain ⟨s₁, hsep, h⟩ := h.passes
    obtain ⟨a, s₂, ha, hab, h⟩ := hb hx h
    rw [← hus] at h
    obtain ⟨as, m, has, hsame, hm⟩ := ih hbs h
    exact ⟨a :: as, m, .more hsep ha has, .cons hab hsame, hm⟩

/-- Items that are listed up to a mark are read as a sequence. -/
theorem Spot.Spells.sequence (hstop : stop ≠ "(") (hseparator : separator ≠ "(")
    (hbs : ∀ b ∈ bs, s'.ReadsBack item same write b)
    (h : s.Spells (words (listed [mark separator, .blank] (bs.map write)) ++ .mark stop :: ws) s') :
    ∃ as m, Sequence o item stop separator true s as m ∧ List.Forall₂ same as bs ∧
      m.Spells ws s' := by
  cases bs with
  | nil =>
    obtain ⟨m, hclose, hm⟩ := h.passes
    exact ⟨[], m, .close hclose, .nil, hm⟩
  | cons b bs =>
    obtain ⟨hb, hbs⟩ := List.forall_mem_cons.mp hbs
    obtain ⟨x, us, hx, hus⟩ := words_separated hstop hseparator (bs.map write) ws
    rw [List.map_cons, listed, words_append, List.append_assoc, hus] at h
    obtain ⟨a, s₁, ha, hab, h⟩ := hb hx h
    rw [← hus] at h
    obtain ⟨as, m, has, hsame, hm⟩ := h.sequenceTail (o := o) hstop hseparator hbs
    exact ⟨a :: as, m, .first ha has, .cons hab hsame, hm⟩

end Lists

/-- The parameters of a function are read back. -/
theorem Spot.readsBack_name (x : String) :
    s'.ReadsBack Names Eq (fun x => [.word (.name x)]) x := by
  intro y s ws _ h
  obtain ⟨last, t, rest, rfl, ht, hrest⟩ := Spells.token (w := .name x) h
  obtain ⟨hk, rfl⟩ := Token.of_word ht
  exact ⟨t.text, _, ⟨hk⟩, rfl, hrest⟩

/-- A tree in parentheses is read back as an item. -/
theorem Node.ReadBy.readsBack (hn : n.ReadBy d) (hk : d + 1 ≤ k) :
    s'.ReadsBack (fun s a m => Reads o (.expression k) s [a] m) (fun a n => a.bare = n.bare)
      (fun n => inParens n.pieces) n := by
  intro x s ws hx h
  have hcall : Word.mark x ≠ .mark "(" := by
    intro hmark
    injection hmark with _ hvalue
    exact hx (Value.text.inj hvalue)
  obtain ⟨a, m, ha, hbare, hm⟩ := h.groupBefore hn hk hcall nofun
  exact ⟨a, m, ha, hbare, hm⟩

theorem Node.bareAll_of_forall₂ {as ns : List Node}
    (h : List.Forall₂ (fun a n => a.bare = n.bare) as ns) : bareAll as = bareAll ns := by
  induction h with
  | nil => rfl
  | cons hab _ ih => rw [bareAll, bareAll, hab, ih]

/-! ## Forms -/

/-- A primary that is read with `d` levels is a tree that is read back with one more. -/
theorem Node.readBy_of_primary
    (h : ∀ ⦃o : ParseOptions⦄ ⦃k : Nat⦄ ⦃s s' : Spot⦄, d ≤ k → s.Spells (Piece.words n.pieces) s' →
      s'.Rests → s'.isAt .keyword "else" = false →
      ∃ a, Reads o (.primary k) s [a] s' ∧ a.bare = n.bare) : n.ReadBy (d + 1) := by
  intro o k s s' hk hwords hs helse
  obtain ⟨k, rfl⟩ := Nat.exists_eq_succ_of_ne_zero (Nat.ne_zero_of_lt hk)
  obtain ⟨a, ha, hbare⟩ := h (o := o) (Nat.le_of_succ_le_succ hk) hwords hs helse
  exact ⟨a, ha.alone hs, hbare⟩

/-- A word that is a leaf by itself is read back. -/
theorem Node.readBy_leaf {w : Word} (hwords : words n.pieces = [w])
    (hleaf : ∀ t : Token, t.word = w → ∃ a, t.leaf? = some a ∧ a.bare = n.bare) : n.ReadBy 1 := by
  refine Node.readBy_of_primary (d := 0) fun o k s s' _ h _ _ => ?_
  rw [hwords] at h
  obtain ⟨last, t, rest, rfl, ht, h⟩ := h.token
  cases h with
  | nil =>
    obtain ⟨a, ha, hbare⟩ := hleaf t ht
    exact ⟨a, .leaf ha, hbare⟩

theorem Node.readBy_bool (b : Bool) (span : Option Span) : (Node.bool b span).ReadBy 1 := by
  refine Node.readBy_of_primary (d := 0) fun o k s s' _ h _ _ => ?_
  have hkey : s.Spells [.key (Node.boolWord b)] s' := h
  obtain ⟨m, hword, hend⟩ := hkey.passes
  cases hend with
  | nil => exact ⟨_, .truth hword, rfl⟩

/-- Two trees in parentheses with an operator between them are read as what the operator joins. -/
theorem Node.readBy_joined {x : String} {l r : Node} (hx : 0 < (Precedence.ofSymbol x).strength)
    (hwords : words n.pieces =
      words (inParens l.pieces) ++ .symbol x :: words (inParens r.pieces))
    (hbare : ∀ {a b : Node}, a.bare = l.bare → b.bare = r.bare → (joined x a b).bare = n.bare)
    (hl : l.ReadBy d) (hr : r.ReadBy d) : n.ReadBy (d + 3) := by
  intro o k s s' hk h hs _
  obtain ⟨k, rfl⟩ : ∃ j, k = j + 3 := ⟨k - 3, by omega⟩
  rw [hwords] at h
  obtain ⟨a, s₁, ha, hla, h⟩ := h.group (o := o) (k := k + 2) hl (by omega)
  have hcall : s₁.isAt .punctuation "(" = false := h.isAt _ _
  obtain ⟨last, t, rest, rfl, ht, hrest⟩ := h.token
  obtain ⟨hkind, rfl⟩ := Token.of_word ht
  rw [← List.append_nil (words _)] at hrest
  obtain ⟨b, s₂, hb, hrb, hend⟩ := hrest.group (o := o) (k := k) hr (by omega)
  cases hend with
  | nil =>
    -- Nothing binds tighter behind the right operand, so it ends the fold and the whole.
    have hright : Reads o (.operand (k + 1) (Parser.rightBound o t.text)) ⟨some t, rest⟩ [b] s' :=
      .operand (.atom hb (.bare hs.not_call)) (.settled (hs.not_tighter _))
    have hfold : Reads o (.operators (k + 2) a Precedence.nothing.strength) ⟨last, t :: rest⟩
        [.joined t.text a b] s' :=
      .fold ⟨hkind, hx⟩ hright (.settled (hs.not_tighter _))
    exact ⟨_, .expression (.atom ha (.bare hcall)) hfold (.bare hs.not_call), hbare hla hrb⟩

theorem Node.bare_joined (x : String) (a b : Node) : (joined x a b).bare =
    if x = assignSymbol then .assign a.bare b.bare none else .binary x a.bare b.bare none := by
  unfold joined
  split <;> rfl

variable {c p q b f : Node} {span : Option Span}

theorem Node.ReadBy.ifThen (hc : c.ReadBy d) (hp : p.ReadBy d) :
    (Node.ifThen c p span).ReadBy (d + 2) := by
  refine Node.readBy_of_primary fun o k s s' hk h hs helse => ?_
  simp only [Node.pieces, words_append, words_key, words_blank] at h
  obtain ⟨s₁, hif, h⟩ := h.passes
  obtain ⟨a, s₂, ha, hca, h⟩ := h.groupBefore (o := o) hc hk (by decide) (by decide)
  obtain ⟨s₃, hthen, h⟩ := h.passes
  obtain ⟨b, hb, hpb⟩ := h.groupLast (o := o) hp hk hs
  -- No negative branch follows, since none could follow the whole.
  refine ⟨_, .ifThen hif ha (.word hthen) hb helse, ?_⟩
  rw [Node.bare, Node.bare, hca, hpb]

theorem Node.ReadBy.ifElse (hc : c.ReadBy d) (hp : p.ReadBy d) (hq : q.ReadBy d) :
    (Node.ifElse c p q span).ReadBy (d + 2) := by
  refine Node.readBy_of_primary fun o k s s' hk h hs _ => ?_
  simp only [Node.pieces, words_append, words_key, words_blank] at h
  obtain ⟨s₁, hif, h⟩ := h.passes
  obtain ⟨a, s₂, ha, hca, h⟩ := h.groupBefore (o := o) hc hk (by decide) (by decide)
  obtain ⟨s₃, hthen, h⟩ := h.passes
  obtain ⟨b, s₄, hb, hpb, h⟩ := h.groupBefore (o := o) hp hk (by decide) (by decide)
  obtain ⟨s₅, helse, h⟩ := h.passes
  obtain ⟨e, he, hqe⟩ := h.groupLast (o := o) hq hk hs
  refine ⟨_, .ifElse hif ha (.word hthen) hb helse he, ?_⟩
  rw [Node.bare, Node.bare, hca, hpb, hqe]

theorem Node.ReadBy.lambda {params : List String} (hb : b.ReadBy d) :
    (Node.lambda params b span).ReadBy (d + 2) := by
  refine Node.readBy_of_primary fun o k s s' hk h hs _ => ?_
  simp only [Node.pieces, words_append, words_key, words_blank, words_mark] at h
  obtain ⟨s₁, hword, h⟩ := h.passes
  obtain ⟨s₂, hopen, h⟩ := h.passes
  obtain ⟨xs, s₃, hparams, hxs, hrest⟩ := Spells.sequence (o := o) (by decide) (by decide)
    (fun x _ => readsBack_name x) h
  rw [List.forall₂_eq_eq_eq] at hxs
  obtain rfl := hxs
  obtain ⟨a, ha, hba⟩ := hrest.groupLast (o := o) hb hk hs
  refine ⟨_, .lambda hword hopen hparams ha, ?_⟩
  rw [Node.bare, Node.bare, hba]

theorem Node.ReadBy.call {args : List Node} (hf : f.ReadBy d) (hargs : ∀ a ∈ args, a.ReadBy d) :
    (Node.call f args span).ReadBy (d + 2) := by
  intro o k s s' hk h hs _
  obtain ⟨k, rfl⟩ := Nat.exists_eq_succ_of_ne_zero (Nat.ne_zero_of_lt hk)
  simp only [Node.pieces, words_append, words_mark, Node.groups_eq_map] at h
  obtain ⟨a, s₁, ha, hfa, h⟩ := h.group (o := o) (k := k) hf (by omega)
  obtain ⟨s₂, hopen, h⟩ := h.passes
  have hitems : ∀ b ∈ args, s'.ReadsBack (fun s a m => Reads o (.expression k) s [a] m) _ _ b :=
    fun b hb => (hargs b hb).readsBack (Nat.le_of_succ_le_succ hk)
  obtain ⟨as, s₃, hseq, has, h⟩ := Spells.sequence (o := o) (by decide) (by decide) hitems h
  cases h with
  | nil =>
    -- The call belongs to the atom; neither an operator nor a second call comes after it.
    have hcall : Reads o (.suffix k a) s₁ [.called a as s'] s' :=
      .call hopen (reads_sequence_iff.mpr hseq)
    refine ⟨_, .expression (.atom ha hcall) (.settled (hs.not_tighter _)) (.bare hs.not_call), ?_⟩
    rw [Node.called, Node.bare, Node.bare, hfa, Node.bareAll_of_forall₂ has]

theorem Node.ReadBy.program {body : List Node} (hlength : 2 ≤ body.length)
    (hbody : ∀ e ∈ body, e.ReadBy d) : (Node.program body span).ReadBy (d + 2) := by
  refine Node.readBy_of_primary fun o k s s' hk h hs _ => ?_
  simp only [Node.pieces, words_append, words_mark, words_blank, Node.groups_eq_map] at h
  obtain ⟨s₁, hopen, h⟩ := h.passes
  have hitems : ∀ b ∈ body, s'.ReadsBack (fun s a m => Reads o (.expression k) s [a] m) _ _ b :=
    fun b hb => (hbody b hb).readsBack hk
  obtain ⟨es, s₂, hseq, hes, h⟩ := Spells.sequence (o := o) (by decide) (by decide) hitems h
  cases h with
  | nil =>
    refine ⟨_, .block hopen (reads_sequence_iff.mpr hseq), ?_⟩
    -- A block of one expression would be that expression, but there are two at least.
    obtain ⟨e₁, e₂, es, rfl⟩ : ∃ e₁ e₂ es', es = e₁ :: e₂ :: es' := by
      rw [← hes.length_eq] at hlength
      cases es with
      | nil => cases hlength
      | cons e₁ es =>
        cases es with
        | nil => exact absurd hlength (Nat.lt_irrefl 1)
        | cons e₂ es => exact ⟨e₁, e₂, es, rfl⟩
    show Node.bare (.program _ _) = _
    rw [Node.bare, Node.bare, Node.bareAll_of_forall₂ hes]

/-! ## Trees -/

/-- Levels that are enough for each of several trees are enough for all of them. -/
theorem Node.exists_readBy_all {ns : List Node} (h : ∀ n ∈ ns, ∃ d, n.ReadBy d) :
    ∃ d, ∀ n ∈ ns, n.ReadBy d := by
  induction ns with
  | nil => exact ⟨0, nofun⟩
  | cons n ns ih =>
    obtain ⟨⟨d, hn⟩, hns⟩ := List.forall_mem_cons.mp h
    obtain ⟨e, hns⟩ := ih hns
    refine ⟨d + e, List.forall_mem_cons.mpr ⟨hn.mono (Nat.le_add_right d e), ?_⟩⟩
    intro m hm
    exact (hns m hm).mono (Nat.le_add_left e d)

/-- Levels that are enough for either of two trees are enough for both. -/
theorem Node.exists_readBy_both {m : Node} (hn : ∃ d, n.ReadBy d) (hm : ∃ d, m.ReadBy d) :
    ∃ d, n.ReadBy d ∧ m.ReadBy d := by
  obtain ⟨d, hn⟩ := hn
  obtain ⟨e, hm⟩ := hm
  exact ⟨d + e, hn.mono (Nat.le_add_right d e), hm.mono (Nat.le_add_left e d)⟩

/-- Every well-formed tree is read back. -/
theorem Node.WellFormed.readBy (h : n.WellFormed) : ∃ d, n.ReadBy d := by
  induction h with
  | @number v _ =>
    refine ⟨1, Node.readBy_leaf (w := ⟨.number, .number v⟩) rfl fun t ht => ?_⟩
    have hkind : t.kind = .number := congrArg Word.kind ht
    have hvalue : t.value = .number v := congrArg Word.value ht
    rw [Token.leaf?, hkind, Token.number?, hvalue]
    exact ⟨_, rfl, rfl⟩
  | @string v _ =>
    refine ⟨1, Node.readBy_leaf (w := ⟨.string, .text v⟩) rfl fun t ht => ?_⟩
    obtain ⟨hkind, rfl⟩ := Token.of_word ht
    rw [Token.leaf?, hkind]
    exact ⟨_, rfl, rfl⟩
  | bool => exact ⟨1, Node.readBy_bool _ _⟩
  | @reference x _ _ =>
    refine ⟨1, Node.readBy_leaf (w := .name x) rfl fun t ht => ?_⟩
    obtain ⟨hkind, rfl⟩ := Token.of_word ht
    rw [Token.leaf?, hkind]
    exact ⟨_, rfl, rfl⟩
  | @operator x _ _ =>
    refine ⟨1, Node.readBy_leaf (w := .symbol x) rfl fun t ht => ?_⟩
    obtain ⟨hkind, rfl⟩ := Token.of_word ht
    rw [Token.leaf?, hkind]
    exact ⟨_, rfl, rfl⟩
  | @assign l r _ _ _ ihl ihr =>
    obtain ⟨d, hl, hr⟩ := Node.exists_readBy_both ihl ihr
    refine ⟨d + 3, Node.readBy_joined (x := Node.assignSymbol) (by decide) ?_ ?_ hl hr⟩
    · rw [Node.pieces, words_append]
      rfl
    · intro a b ha hb
      rw [Node.bare_joined, if_pos rfl, ha, hb, Node.bare]
  | @binary x l r _ hx _ _ ihl ihr =>
    obtain ⟨d, hl, hr⟩ := Node.exists_readBy_both ihl ihr
    have hstrength := (Grammar.zero_lt_strength_iff x).mpr hx.listed
    refine ⟨d + 3, Node.readBy_joined hstrength ?_ ?_ hl hr⟩
    · rw [Node.pieces, words_append]
      rfl
    · intro a b ha hb
      rw [Node.bare_joined, if_neg hx.ne_assign, ha, hb, Node.bare]
  | ifThen _ _ ihc ihp =>
    obtain ⟨d, hc, hp⟩ := Node.exists_readBy_both ihc ihp
    exact ⟨d + 2, hc.ifThen hp⟩
  | ifElse _ _ _ ihc ihp ihq =>
    obtain ⟨d, hc, hp⟩ := Node.exists_readBy_both ihc ihp
    obtain ⟨e, hq⟩ := ihq
    have hle := Nat.le_add_right d e
    exact ⟨d + e + 2, (hc.mono hle).ifElse (hp.mono hle) (hq.mono (Nat.le_add_left e d))⟩
  | lambda _ _ ihb =>
    obtain ⟨d, hb⟩ := ihb
    exact ⟨d + 2, hb.lambda⟩
  | call _ _ ihf ihargs =>
    obtain ⟨d, hf⟩ := ihf
    obtain ⟨e, hargs⟩ := Node.exists_readBy_all ihargs
    have hall := fun a ha => (hargs a ha).mono (Nat.le_add_left e d)
    exact ⟨d + e + 2, (hf.mono (Nat.le_add_right d e)).call hall⟩
  | program hlength _ ih =>
    obtain ⟨d, hbody⟩ := Node.exists_readBy_all ih
    exact ⟨d + 2, .program hlength hbody⟩

/-! ## Programs -/

/-- The expressions of a program are read back up to the end. -/
theorem Spot.Spells.statements {body : List Node} (hbody : ∀ e ∈ body, e.ReadBy d) (hk : d ≤ k)
    (h : s.Spells (words (listed [mark ";"] (body.map Node.pieces))) s') (hs : s'.rest = []) :
    ∃ es, Reads o (.statements k) s es s' ∧ List.Forall₂ (fun a n => a.bare = n.bare) es body := by
  induction body generalizing s with
  | nil =>
    cases h with
    | nil => exact ⟨[], .done hs, .nil⟩
  | cons e body ih =>
    obtain ⟨he, hbody⟩ := List.forall_mem_cons.mp hbody
    rw [List.map_cons, listed, words_append] at h
    obtain ⟨s₁, hfirst, h⟩ := h.split
    cases body with
    | nil =>
      cases h with
      | nil =>
        have helse : s'.isAt .keyword "else" = false := by
          rw [Spot.isAt, hs]
          rfl
        obtain ⟨a, ha, hbare⟩ := he (o := o) hk hfirst (rests_of_rest_eq_nil hs) helse
        exact ⟨[a], .last ha hs, .cons hbare .nil⟩
    | cons e' body =>
      -- A semicolon comes next, and nothing goes on before it.
      have hnext : s₁.Spells
          (.mark ";" :: words (listed [mark ";"] (List.map Node.pieces (e' :: body)))) s' := h
      have hrests : s₁.Rests := hnext.rests (by decide) (by decide)
      have helse : s₁.isAt .keyword "else" = false := hnext.isAt _ _
      obtain ⟨a, ha, hbare⟩ := he (o := o) hk hfirst hrests helse
      obtain ⟨s₂, hsep, h⟩ := hnext.passes
      obtain ⟨es, hes, hsame⟩ := ih hbody h
      exact ⟨a :: es, .next ha hsep hes, .cons hbare hsame⟩

end Parts

/-- A program of well-formed trees is read back from its text, whatever the file and the options are,
if they allow for enough nesting. -/
theorem Node.IsProgram.readBack {n : Node} (h : n.IsProgram) (numerals : Numerals) :
    ∃ depth : Nat, ∀ (file : String) (strict : Bool) (o : ParseOptions), (depth : Int) ≤ o.maxDepth →
      ∃ m, Source.parse o ⟨n.written numerals, file, strict⟩ = .ok m ∧ m.bare = n.bare := by
  cases h with
  | @program body span hbody =>
    obtain ⟨d, hd⟩ := Node.exists_readBy_all fun e he => (hbody e he).readBy
    refine ⟨d, ?_⟩
    intro file strict o ho
    -- The text is scanned as the words it was written with.
    have hlegible : Piece.Legible numerals (Piece.listed [.mark ";"] (body.map Node.pieces)) := by
      refine Piece.Legible.listed (Piece.separates_mark (by decide)) ?_
      intro ps hps
      obtain ⟨e, he, rfl⟩ := List.mem_map.mp hps
      exact (hbody e he).legible numerals
    have hscans := hlegible [] nofun .nil
    rw [List.append_nil] at hscans
    let source : Source := ⟨(Node.program body span).written numerals, file, strict⟩
    have hrest : source.scanner.cursor.rest =
        Piece.spelling numerals (Piece.listed [.mark ";"] (body.map Node.pieces)) :=
      String.toList_ofList
    obtain ⟨hwords, l, hdone⟩ := Scanner.drain_of_scans hscans _ hrest
    -- These words are read as the expressions of the program.
    obtain ⟨s', hspells, hend⟩ := Spot.Spells.all none (drain source.scanner).1
    rw [hwords] at hspells
    have hlevels : d ≤ o.maxDepth.toNat := by omega
    obtain ⟨es, hes, hsame⟩ := hspells.statements (o := o) hd hlevels hend
    have hparse := (TokenSource.read_eq_ok_iff hdone _).mpr ⟨es, s', hes, rfl⟩
    refine ⟨_, hparse, ?_⟩
    rw [Node.bare, Node.bare, Node.bareAll_of_forall₂ hsame]

/-- The trees that sources are read as are the programs of well-formed trees: whatever is read is one,
and each of them is read back from its text. -/
theorem Source.parse_trees (numerals : Numerals) :
    (∀ (s : Source) (o : ParseOptions) (n : Node), s.parse o = .ok n → n.IsProgram) ∧
    (∀ n : Node, n.IsProgram → ∃ depth : Nat, ∀ (file : String) (strict : Bool) (o : ParseOptions),
      (depth : Int) ≤ o.maxDepth →
      ∃ m, Source.parse o ⟨n.written numerals, file, strict⟩ = .ok m ∧ m.bare = n.bare) :=
  ⟨fun _ _ _ h => Source.isProgram_of_parse h, fun _ h => h.readBack numerals⟩

/-- The law for `f = lambda (x) if x then x + 1.5; f("\"")`, with this numeral for its number. -/
theorem Source.parse_trees_function :
    let v : Float := (⟨15, -1⟩ : Decimal).toFloat
    let n : Node := .program
      [.assign (.reference "f" none)
        (.lambda ["x"] (.ifThen (.reference "x" none)
          (.binary "+" (.reference "x" none) (.number v none) none) none) none) none,
        .call (.reference "f" none) [.string "\"" none] none] none
    let text := "(f) = (lambda (x) (if (x) then ((x) + (1.5))));(f)((\"\\\"\"))"
    ∃ (numerals : Numerals) (depth : Nat), n.IsProgram ∧ n.written numerals = text ∧
      ∀ (file : String) (strict : Bool) (o : ParseOptions), (depth : Int) ≤ o.maxDepth →
        ∃ m, Source.parse o ⟨text, file, strict⟩ = .ok m ∧ m.IsProgram ∧ m.bare = n.bare := by
  intro v n text
  have hnumber : Denotes .number ['1', '.', '5'] (.number v) := .number (by decide) (by decide)
  obtain ⟨base⟩ : Nonempty Numerals := inferInstance
  let numerals := base.choosing hnumber
  have hf : Node.IsName "f" := ⟨by decide, by decide⟩
  have hx : Node.IsName "x" := ⟨by decide, by decide⟩
  have hplus : Node.IsInfix "+" := ⟨by decide, by decide, by decide⟩
  have hn : n.IsProgram := by
    refine .program (List.forall_mem_cons.mpr ⟨.assign (.reference hf) ?_, ?_⟩)
    · exact .lambda (List.forall_mem_singleton.mpr hx)
        (.ifThen (.reference hx) (.binary hplus (.reference hx) (.number ⟨_, hnumber⟩)))
    · exact List.forall_mem_singleton.mpr (.call (.reference hf) (List.forall_mem_singleton.mpr .string))
  have hwritten : n.written numerals = text := by
    show String.ofList ("(f) = (lambda (x) (if (x) then ((x) + (".toList ++
      (numerals.spell v ++ "))));(f)((\"\\\"\"))".toList)) = text
    rw [base.spell_choosing hnumber]
    rfl
  obtain ⟨hread, hback⟩ := Source.parse_trees numerals
  obtain ⟨depth, hdepth⟩ := hback n hn
  rw [hwritten] at hdepth
  refine ⟨numerals, depth, hn, hwritten, fun file strict o ho => ?_⟩
  obtain ⟨m, hm, hbare⟩ := hdepth file strict o ho
  exact ⟨m, hm, hread _ o m hm, hbare⟩
end LambdaReader
