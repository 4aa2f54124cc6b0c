import LambdaReader.Proofs.Reads.Adequacy
import LambdaReader.Proofs.Grammar.Basic
import LambdaReader.Proofs.Recorded

/-!
# `Proofs.WellFormed` — the trees that can be read

A tree is well formed if its leaves are lexemes and its blocks have at least two expressions. Whatever
the parser returns is a program of well-formed trees: the scanner gives nothing but lexemes, and each
rule of `Reads` makes well-formed trees from well-formed ones.
-/

namespace LambdaReader

open Lexicon Lexeme TokenSource

/-! ## Well-formed trees -/

namespace Node

/-- The word can stand for a variable. -/
def IsName (x : String) : Prop := isWord x.toList = true ∧ isKeyword x = false

/-- The symbol stands between two operands and does not assign. -/
structure IsInfix (symbol : String) : Prop where
  listed : (Precedence.table.lookup symbol).isSome = true
  ne_assign : symbol ≠ assignSymbol
  ne_slash : symbol ≠ "/"

/-- A tree that may stand below the root of a program. -/
inductive WellFormed : Node → Prop where
  | number {v : Float} {s : Option Span} : (∃ w, Denotes .number w (.number v)) →
      WellFormed (.number v s)
  | string {v : String} {s : Option Span} : WellFormed (.string v s)
  | bool {v : Bool} {s : Option Span} : WellFormed (.bool v s)
  | reference {x : String} {s : Option Span} : IsName x → WellFormed (.reference x s)
  | operator {symbol : String} {s : Option Span} : isSymbol symbol.toList = true →
      WellFormed (.operator symbol s)
  | assign {l r : Node} {s : Option Span} : WellFormed l → WellFormed r → WellFormed (.assign l r s)
  | binary {symbol : String} {l r : Node} {s : Option Span} : IsInfix symbol → WellFormed l →
      WellFormed r → WellFormed (.binary symbol l r s)
  | ifThen {c p : Node} {s : Option Span} : WellFormed c → WellFormed p → WellFormed (.ifThen c p s)
  | ifElse {c p n : Node} {s : Option Span} : WellFormed c → WellFormed p → WellFormed n →
      WellFormed (.ifElse c p n s)
  | lambda {params : List String} {b : Node} {s : Option Span} : (∀ x ∈ params, IsName x) →
      WellFormed b → WellFormed (.lambda params b s)
  | call {f : Node} {args : List Node} {s : Option Span} : WellFormed f →
      (∀ a ∈ args, WellFormed a) → WellFormed (.call f args s)
  | program {body : List Node} {s : Option Span} : 2 ≤ body.length →
      (∀ e ∈ body, WellFormed e) → WellFormed (.program body s)

/-- A program of well-formed trees, of any number. -/
inductive IsProgram : Node → Prop where
  | program {body : List Node} {s : Option Span} : (∀ e ∈ body, WellFormed e) →
      IsProgram (.program body s)

/-- A block of one expression is that expression, so it stays a program only if it has two. -/
theorem WellFormed.blocked {body : List Node} {s : Option Span} (h : ∀ e ∈ body, WellFormed e) :
    WellFormed (.blocked body s) := by
  match body, h with
  | [], _ => exact .bool
  | [e], h => exact h e (List.mem_singleton_self e)
  | _ :: _ :: es, h => exact .program (Nat.le_add_left 2 es.length) h

end Node

/-! ## Leaves are lexemes -/

namespace Token

variable {t : Token}

/-- An identifier is spelled as a name and is no keyword. -/
theorem IsLexeme.isName (h : t.IsLexeme) (hk : t.kind = .identifier) : Node.IsName t.text := by
  obtain ⟨kind, lexeme, value, location⟩ := t
  obtain rfl : kind = .identifier := hk
  unfold IsLexeme at h
  generalize lexeme.toList = cs at h
  cases h with
  | identifier hword hkey =>
    show isWord (String.ofList cs).toList = true ∧ isKeyword (String.ofList cs) = false
    rw [String.toList_ofList]
    exact ⟨hword, hkey⟩

theorem IsLexeme.isSymbol (h : t.IsLexeme) (hk : t.kind = .operator) :
    isSymbol t.text.toList = true := by
  obtain ⟨kind, lexeme, value, location⟩ := t
  obtain rfl : kind = .operator := hk
  unfold IsLexeme at h
  generalize lexeme.toList = cs at h
  cases h with
  | operator hsymbol =>
    show Lexeme.isSymbol (String.ofList cs).toList = true
    rw [String.toList_ofList]
    exact hsymbol

theorem IsLexeme.number {v : Float} (h : t.IsLexeme) (hk : t.kind = .number)
    (hv : t.number? = some v) : ∃ w, Denotes .number w (.number v) := by
  obtain ⟨kind, lexeme, value, location⟩ := t
  obtain rfl : kind = .number := hk
  unfold IsLexeme at h
  generalize lexeme.toList = cs at h
  have hcs := h
  cases h with
  | number hnum hd =>
    obtain rfl := Option.some.inj hv
    exact ⟨cs, hcs⟩

theorem IsLexeme.leaf {a : Node} (h : t.IsLexeme) (ha : t.leaf? = some a) : a.WellFormed := by
  unfold leaf? at ha
  cases hk : t.kind with
  | punctuation => rw [hk] at ha; cases ha
  | keyword => rw [hk] at ha; cases ha
  | identifier =>
    rw [hk] at ha
    obtain rfl := Option.some.inj ha
    exact .reference (h.isName hk)
  | string =>
    rw [hk] at ha
    obtain rfl := Option.some.inj ha
    exact .string
  | operator =>
    rw [hk] at ha
    obtain rfl := Option.some.inj ha
    exact .operator (h.isSymbol hk)
  | number =>
    rw [hk] at ha
    obtain ⟨v, hv, rfl⟩ := Option.map_eq_some_iff.mp ha
    exact .number (h.number hk hv)

/-- What is folded with an operator is well formed. No lexeme is a slash, so the slash in the table of
operators joins nothing. -/
theorem IsLexeme.joined {l r : Node} (h : t.IsLexeme) (ht : t.Tighter 0) (hl : l.WellFormed)
    (hr : r.WellFormed) : (Node.joined t.text l r).WellFormed := by
  unfold Node.joined
  by_cases hassign : t.text = Node.assignSymbol
  · rw [if_pos hassign]
    exact .assign hl hr
  · rw [if_neg hassign]
    have hlisted := (Grammar.zero_lt_strength_iff t.text).mp ht.2
    have hslash : t.text ≠ "/" := by
      intro hslash
      have hsymbol := h.isSymbol ht.1
      rw [hslash] at hsymbol
      exact absurd hsymbol (by decide)
    exact .binary ⟨hlisted, hassign, hslash⟩ hl hr

end Token

/-! ## Every reading gives well-formed trees -/

namespace Spot

/-- The tokens that are left are lexemes. -/
def Lexemes (s : Spot) : Prop := ∀ t ∈ s.rest, t.IsLexeme

theorem Lexemes.takes {s s' : Spot} {ts : List Token} (h : s.Lexemes) (hts : s.Takes ts s') :
    s'.Lexemes := by
  intro t ht
  have hmem : t ∈ s.rest := by
    rw [hts.1]
    exact List.mem_append_right ts ht
  exact h t hmem

theorem Lexemes.passes {kind : TokenKind} {x : String} {s s' : Spot} (h : s.Lexemes)
    (hx : s.Passes kind x s') : s'.Lexemes := by
  obtain ⟨t, _, ht⟩ := hx.takes
  exact h.takes ht

theorem Lexemes.reads {o : ParseOptions} {task : Task} {s s' : Spot} {ns : List Node}
    (h : s.Lexemes) (hns : Reads o task s ns s') : s'.Lexemes := by
  obtain ⟨ts, hts, _⟩ := hns.takes
  exact h.takes hts

theorem Lexemes.then {s s' : Spot} (h : s.Lexemes) (hthen : s.Then s') : s'.Lexemes := by
  obtain ⟨ts, hts⟩ := hthen.takes
  exact h.takes hts

theorem Lexemes.names {s s' : Spot} {x : String} (h : s.Lexemes) (hx : s.Names x s') :
    Node.IsName x ∧ s'.Lexemes := by
  obtain ⟨t, hk, rfl, ht⟩ := hx.takes
  have hmem : t ∈ s.rest := by rw [ht.1]; exact List.mem_cons_self
  exact ⟨(h t hmem).isName hk, h.takes ht⟩

/-- The parameters of a function are names. -/
theorem Lexemes.params {o : ParseOptions} {stop separator : String} {first : Bool} {s s' : Spot}
    {xs : List String} (h : s.Lexemes) (hxs : Sequence o Names stop separator first s xs s') :
    (∀ x ∈ xs, Node.IsName x) ∧ s'.Lexemes := by
  induction hxs with
  | close hstop => exact ⟨nofun, h.passes hstop⟩
  | trailing _ hsep hstop => exact ⟨nofun, (h.passes hsep).passes hstop⟩
  | first hx _ ih =>
    obtain ⟨hname, hs⟩ := h.names hx
    obtain ⟨hnames, hs'⟩ := ih hs
    exact ⟨List.forall_mem_cons.mpr ⟨hname, hnames⟩, hs'⟩
  | more hsep hx _ ih =>
    obtain ⟨hname, hs⟩ := (h.passes hsep).names hx
    obtain ⟨hnames, hs'⟩ := ih hs
    exact ⟨List.forall_mem_cons.mpr ⟨hname, hnames⟩, hs'⟩

end Spot

/-- The trees that the task starts from are well formed, and only binary operators bind tighter than
its bound. -/
def Task.WellFormed : Task → Prop
  | operand _ bound => 0 ≤ bound
  | operators _ left bound => left.WellFormed ∧ 0 ≤ bound
  | suffix _ callee => callee.WellFormed
  | _ => True

/-- Every tree read from lexemes is well formed. -/
theorem Reads.wellFormed {o : ParseOptions} {task : Task} {s s' : Spot} {ns : List Node}
    (h : Reads o task s ns s') (hs : s.Lexemes) (htask : task.WellFormed) :
    ∀ e ∈ ns, e.WellFormed := by
  have single : ∀ {e : Node}, (∀ x ∈ [e], x.WellFormed) ↔ e.WellFormed := List.forall_mem_singleton
  induction h with
  | done | seqClose | seqTrailing => intro e he; cases he
  | last _ _ ih => exact ih hs trivial
  | next he hsep _ ihe ih =>
    have hrest := (hs.reads he).passes hsep
    exact List.forall_mem_cons.mpr ⟨single.mp (ihe hs trivial), ih hrest trivial⟩
  | expression ha ho _ iha iho ihc =>
    -- The lowest bound is zero, so the slash of the table stays out of reach below.
    have hfirst := single.mp (iha hs trivial)
    have hwhole := single.mp (iho (hs.reads ha) ⟨hfirst, Int.le_refl 0⟩)
    exact ihc ((hs.reads ha).reads ho) hwhole
  | operand ha _ iha iho =>
    have hfirst := single.mp (iha hs trivial)
    exact iho (hs.reads ha) ⟨hfirst, htask⟩
  | settled => exact single.mpr htask.1
  | @fold n left right e bound l t rest s₁ s₂ ht hr _ ihr iho =>
    -- The bound stays at least zero, so an operator that is folded is in the table.
    have htight := Grammar.tighter_zero_of_tighter htask.2 ht
    have hbound := Grammar.rightBound_nonneg (o := o) htask.2 ht
    have hrest : Spot.Lexemes ⟨some t, rest⟩ := fun u hu => hs u (List.mem_cons_of_mem t hu)
    have hright := single.mp (ihr hrest hbound)
    have hwhole := (hs t List.mem_cons_self).joined htight htask.1 hright
    exact iho (hrest.reads hr) ⟨hwhole, htask.2⟩
  | atom hp _ ihp ihc =>
    have hfirst := single.mp (ihp hs trivial)
    exact ihc (hs.reads hp) hfirst
  | bare => exact single.mpr htask
  | call hopen _ ih =>
    have hargs := ih (hs.passes hopen) trivial
    exact single.mpr (.call htask hargs)
  | group hopen _ _ ih => exact ih (hs.passes hopen) trivial
  | block hopen _ ih =>
    have hbody := ih (hs.passes hopen) trivial
    exact single.mpr (.blocked hbody)
  | ifThen hif hc hthen _ _ ihc ihp =>
    have hs₁ := hs.passes hif
    have hs₂ := (hs₁.reads hc).then hthen
    have hcondition := single.mp (ihc hs₁ trivial)
    have hpositive := single.mp (ihp hs₂ trivial)
    exact single.mpr (.ifThen hcondition hpositive)
  | ifElse hif hc hthen hp helse _ ihc ihp ihq =>
    have hs₁ := hs.passes hif
    have hs₂ := (hs₁.reads hc).then hthen
    have hs₃ := (hs₂.reads hp).passes helse
    have hcondition := single.mp (ihc hs₁ trivial)
    have hpositive := single.mp (ihp hs₂ trivial)
    have hnegative := single.mp (ihq hs₃ trivial)
    exact single.mpr (.ifElse hcondition hpositive hnegative)
  | lambda hword hopen hparams _ ihb =>
    obtain ⟨hnames, hrest⟩ := ((hs.passes hword).passes hopen).params hparams
    have hbody := single.mp (ihb hrest trivial)
    exact single.mpr (.lambda hnames hbody)
  | truth => exact single.mpr .bool
  | leaf ht =>
    have hlexeme := hs _ List.mem_cons_self
    exact single.mpr (hlexeme.leaf ht)
  | seqFirst he _ ihe ih =>
    have hfirst := single.mp (ihe hs trivial)
    exact List.forall_mem_cons.mpr ⟨hfirst, ih (hs.reads he) trivial⟩
  | seqMore hsep he _ ihe ih =>
    have hs₁ := hs.passes hsep
    have hitem := single.mp (ihe hs₁ trivial)
    exact List.forall_mem_cons.mpr ⟨hitem, ih (hs₁.reads he) trivial⟩

/-- Whatever a source is read as is a program of well-formed trees. -/
theorem Source.isProgram_of_parse {s : Source} {o : ParseOptions} {n : Node}
    (h : s.parse o = .ok n) : n.IsProgram := by
  obtain ⟨l, hdone⟩ := s.drain_of_parse h
  obtain ⟨body, s', hbody, rfl⟩ := (TokenSource.read_eq_ok_iff hdone n).mp h
  have hlexemes := Scanner.isLexeme_of_mem_drain s.scanner
  exact .program (hbody.wellFormed hlexemes trivial)

end LambdaReader
