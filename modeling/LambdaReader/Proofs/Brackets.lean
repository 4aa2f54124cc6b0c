import LambdaReader.Proofs.Separators

/-!
# `Proofs.Brackets` — what is read is balanced

Parentheses and braces that open count one, and those that close take one away. What a reading takes is
balanced: all of it counts nothing, and no front part of it counts less. A sequence also takes the mark
that closes it and is balanced up to there.

## Main results
- `Reads.balanced`;
- `Source.balanced_of_parse`: the tokens of a source that is accepted.
-/

namespace LambdaReader

open Spot TokenSource

namespace Token

/-- A parenthesis or brace that opens. -/
def IsOpening (t : Token) : Prop := t.is .punctuation "(" ∨ t.is .punctuation "\x7b"

/-- A parenthesis or brace that closes. -/
def IsClosing (t : Token) : Prop := t.is .punctuation ")" ∨ t.is .punctuation "\x7d"

instance (t : Token) : Decidable t.IsOpening := inferInstanceAs (Decidable (_ ∨ _))

instance (t : Token) : Decidable t.IsClosing := inferInstanceAs (Decidable (_ ∨ _))

/-- One for a bracket that opens, minus one for a bracket that closes. -/
def bracket (t : Token) : Int := if t.IsOpening then 1 else if t.IsClosing then -1 else 0

/-- How many more brackets open than close. -/
def brackets (ts : List Token) : Int := (ts.map bracket).foldr (· + ·) 0

variable {t u : Token} {ts us : List Token}

@[simp] theorem brackets_nil : brackets [] = 0 := rfl

@[simp] theorem brackets_cons : brackets (t :: ts) = t.bracket + brackets ts := rfl

@[simp] theorem brackets_append : brackets (ts ++ us) = brackets ts + brackets us := by
  induction ts with
  | nil => exact (Int.zero_add _).symm
  | cons t ts ih => rw [List.cons_append, brackets_cons, ih, brackets_cons, Int.add_assoc]

theorem bracket_of_opening (h : t.IsOpening) : t.bracket = 1 := if_pos h

theorem bracket_of_closing (h : t.IsClosing) : t.bracket = -1 := by
  have hnot : ¬t.IsOpening := by
    rintro (hopen | hopen) <;> obtain h | h := h <;> simp [is_eq h] at hopen
  rw [bracket, if_neg hnot, if_pos h]

/-- No other word is a bracket. -/
theorem bracket_of_is {kind : TokenKind} {x : String} (h : t.is kind x = true)
    (hx : kind ≠ .punctuation ∨ x ∉ ["(", ")", "\x7b", "\x7d"]) : t.bracket = 0 := by
  have hnot (y : String) (hy : y ∈ ["(", ")", "\x7b", "\x7d"]) : t.is .punctuation y = false := by
    rw [is_eq h]
    rcases hx with hkind | hx
    · simp [hkind]
    · have hxy : x ≠ y := by
        rintro rfl
        exact hx hy
      simp [hxy]
  simp [bracket, IsOpening, IsClosing, hnot]

theorem bracket_of_kind (h : t.kind ≠ .punctuation) : t.bracket = 0 := by
  simp [bracket, IsOpening, IsClosing, is, h]

theorem ListMarks.isClosing {stop separator : String} (h : ListMarks stop separator)
    (ht : t.is .punctuation stop = true) : t.IsClosing := by
  obtain ⟨rfl, _⟩ | ⟨rfl, _⟩ := h
  · exact .inl ht
  · exact .inr ht

theorem ListMarks.bracket_separator {stop separator : String} (h : ListMarks stop separator)
    (ht : t.is .punctuation separator = true) : t.bracket = 0 := by
  obtain ⟨_, rfl⟩ | ⟨_, rfl⟩ := h
  · exact bracket_of_is ht (.inr (by decide))
  · exact bracket_of_is ht (.inr (by decide))

/-! ## Balanced tokens -/

/-- As many brackets open as close, and none closes before one has opened. -/
structure Balanced (ts : List Token) : Prop where
  total : brackets ts = 0
  front : ∀ us, us <+: ts → 0 ≤ brackets us

/-- Balanced tokens up to a bracket that closes. -/
def Closed (ts : List Token) : Prop := ∃ us u, ts = us ++ [u] ∧ Balanced us ∧ u.IsClosing

namespace Balanced

theorem nil : Balanced [] where
  total := rfl
  front us hus := by rw [List.prefix_nil.mp hus]; exact Int.le_refl _

theorem single (h : t.bracket = 0) : Balanced [t] where
  total := by simp [h]
  front us hus := by
    rcases List.prefix_cons_iff.mp hus with rfl | ⟨vs, rfl, hvs⟩
    · exact Int.le_refl _
    · rw [List.prefix_nil.mp hvs]
      simp [h]

theorem append (h : Balanced ts) (h' : Balanced us) : Balanced (ts ++ us) where
  total := by rw [brackets_append, h.total, h'.total]; rfl
  front vs hvs := by
    rcases List.prefix_or_prefix_of_prefix hvs (List.prefix_append ts us) with hshort | ⟨ws, rfl⟩
    · exact h.front vs hshort
    · have hws : ws <+: us := (List.prefix_append_right_inj ts).mp hvs
      rw [brackets_append, h.total, Int.zero_add]
      exact h'.front ws hws

theorem closed (h : Balanced ts) (hu : u.IsClosing) : Closed (ts ++ [u]) := ⟨ts, u, rfl, h, hu⟩

theorem append_closed (h : Balanced ts) (h' : Closed us) : Closed (ts ++ us) := by
  obtain ⟨vs, u, rfl, hvs, hu⟩ := h'
  exact ⟨ts ++ vs, u, by rw [List.append_assoc], h.append hvs, hu⟩

end Balanced

theorem Closed.enclose (h : Closed ts) (ht : t.IsOpening) : Balanced (t :: ts) := by
  obtain ⟨us, u, rfl, hus, hu⟩ := h
  have htotal : brackets (t :: (us ++ [u])) = 0 := by
    simp [bracket_of_opening ht, bracket_of_closing hu, hus.total]
  refine ⟨htotal, fun vs hvs => ?_⟩
  rcases List.prefix_cons_iff.mp hvs with rfl | ⟨ws, rfl, hws⟩
  · exact Int.le_refl _
  · rcases List.prefix_concat_iff.mp hws with rfl | hws
    · exact Int.le_of_eq htotal.symm
    · have hnonneg := hus.front ws hws
      rw [brackets_cons, bracket_of_opening ht]
      omega

end Token

/-! ## Readings take balanced tokens -/

open Token

/-- The tokens that a task takes are balanced, for a sequence up to its closing mark. -/
def Task.Balances : Task → List Token → Prop
  | sequence .., ts => Closed ts
  | _, ts => Balanced ts

variable {o : ParseOptions} {s s' : Spot}

namespace Spot

/-- A token that is no bracket is balanced by itself. -/
theorem Passes.balanced {kind : TokenKind} {x : String} (h : s.Passes kind x s')
    (hx : kind ≠ .punctuation ∨ x ∉ ["(", ")", "\x7b", "\x7d"]) : ∃ ts, s.Takes ts s' ∧ Balanced ts := by
  obtain ⟨t, ht, htakes⟩ := h.takes
  exact ⟨[t], htakes, .single (bracket_of_is ht hx)⟩

theorem Passes.balanced_separator {stop separator : String} (h : s.Passes .punctuation separator s')
    (hmarks : ListMarks stop separator) : ∃ ts, s.Takes ts s' ∧ Balanced ts := by
  obtain ⟨t, ht, htakes⟩ := h.takes
  exact ⟨[t], htakes, .single (ListMarks.bracket_separator hmarks ht)⟩

theorem Passes.closed {stop separator : String} (h : s.Passes .punctuation stop s')
    (hmarks : ListMarks stop separator) : ∃ ts, s.Takes ts s' ∧ Closed ts := by
  obtain ⟨t, ht, htakes⟩ := h.takes
  exact ⟨[t], htakes, Balanced.nil.closed (ListMarks.isClosing hmarks ht)⟩

theorem Then.balanced (h : s.Then s') : ∃ ts, s.Takes ts s' ∧ Balanced ts := by
  cases h with
  | block => exact ⟨[], .nil s, .nil⟩
  | word h => exact h.balanced (.inl (by decide))

theorem Names.balanced {x : String} (h : s.Names x s') : ∃ ts, s.Takes ts s' ∧ Balanced ts := by
  obtain ⟨t, hkind, _, htakes⟩ := h.takes
  exact ⟨[t], htakes, .single (bracket_of_kind (by rw [hkind]; decide))⟩

end Spot

theorem Sequence.closed {stop separator : String} {first : Bool} {xs : List String}
    (hmarks : ListMarks stop separator) (h : Sequence o Names stop separator first s xs s') :
    ∃ ts, s.Takes ts s' ∧ Closed ts := by
  induction h with
  | close hstop => exact hstop.closed hmarks
  | trailing _ hsep hstop =>
    obtain ⟨ts, hts, hbalanced⟩ := hsep.balanced_separator hmarks
    obtain ⟨us, hus, hclosed⟩ := hstop.closed hmarks
    exact ⟨_, hts.append hus, hbalanced.append_closed hclosed⟩
  | first hx _ ih =>
    obtain ⟨ts, hts, hbalanced⟩ := hx.balanced
    obtain ⟨us, hus, hclosed⟩ := ih
    exact ⟨_, hts.append hus, hbalanced.append_closed hclosed⟩
  | more hsep hx _ ih =>
    obtain ⟨ts, hts, hbalanced⟩ := hsep.balanced_separator hmarks
    obtain ⟨us, hus, hname⟩ := hx.balanced
    obtain ⟨vs, hvs, hclosed⟩ := ih
    exact ⟨_, (hts.append hus).append hvs, (hbalanced.append hname).append_closed hclosed⟩

/-- What a reading takes is balanced. -/
theorem Reads.balanced {task : Task} {ns : List Node} (h : Reads o task s ns s') (htask : task.Marked) :
    ∃ ts, s.Takes ts s' ∧ task.Balances ts := by
  have args : ListMarks ")" "," := .inl ⟨rfl, rfl⟩
  have body : ListMarks "\x7d" ";" := .inr ⟨rfl, rfl⟩
  induction h with
  | done | settled | bare => exact ⟨[], .nil _, Balanced.nil⟩
  | last _ _ ih => exact ih trivial
  | next _ hsep _ ihe ih =>
    obtain ⟨ts, hts, hexpr⟩ := ihe trivial
    obtain ⟨us, hus, hmark⟩ := hsep.balanced_separator body
    obtain ⟨vs, hvs, hrest⟩ := ih trivial
    exact ⟨_, (hts.append hus).append hvs, (Balanced.append hexpr hmark).append hrest⟩
  | expression _ _ _ iha iho ihs =>
    obtain ⟨ts, hts, hatom⟩ := iha trivial
    obtain ⟨us, hus, hchain⟩ := iho trivial
    obtain ⟨vs, hvs, hcall⟩ := ihs trivial
    exact ⟨_, (hts.append hus).append hvs, (Balanced.append hatom hchain).append hcall⟩
  | operand _ _ iha iho =>
    obtain ⟨ts, hts, hatom⟩ := iha trivial
    obtain ⟨us, hus, hchain⟩ := iho trivial
    exact ⟨_, hts.append hus, Balanced.append hatom hchain⟩
  | fold htight _ _ ihr iho =>
    obtain ⟨ts, hts, hright⟩ := ihr trivial
    obtain ⟨us, hus, hchain⟩ := iho trivial
    have hsymbol := Balanced.single (bracket_of_kind (by rw [htight.1]; decide))
    exact ⟨_, ((Takes.one _ _ _).append hts).append hus, (hsymbol.append hright).append hchain⟩
  | atom _ _ ihp ihs =>
    obtain ⟨ts, hts, hprimary⟩ := ihp trivial
    obtain ⟨us, hus, hcall⟩ := ihs trivial
    exact ⟨_, hts.append hus, Balanced.append hprimary hcall⟩
  | call hopen _ ih =>
    obtain ⟨t, ht, htakes⟩ := hopen.takes
    obtain ⟨ts, hts, hargs⟩ := ih args
    exact ⟨_, htakes.append hts, Closed.enclose hargs (.inl ht)⟩
  | group hopen _ hstop ih =>
    obtain ⟨t, ht, htakes⟩ := hopen.takes
    obtain ⟨ts, hts, hexpr⟩ := ih trivial
    obtain ⟨us, hus, hclosed⟩ := hstop.closed args
    refine ⟨_, htakes.append (hts.append hus), ?_⟩
    exact (Balanced.append_closed hexpr hclosed).enclose (.inl ht)
  | block hopen _ ih =>
    obtain ⟨t, ht, htakes⟩ := hopen.takes
    obtain ⟨ts, hts, hitems⟩ := ih body
    exact ⟨_, htakes.append hts, Closed.enclose hitems (.inr ht)⟩
  | ifThen hif _ hthen _ _ ihc ihp =>
    obtain ⟨ts, hts, hword⟩ := hif.balanced (.inl (by decide))
    obtain ⟨cs, hcs, hcondition⟩ := ihc trivial
    obtain ⟨us, hus, hkey⟩ := hthen.balanced
    obtain ⟨ps, hps, hpositive⟩ := ihp trivial
    exact ⟨_, ((hts.append hcs).append hus).append hps,
      ((hword.append hcondition).append hkey).append hpositive⟩
  | ifElse hif _ hthen _ helse _ ihc ihp ihq =>
    obtain ⟨ts, hts, hword⟩ := hif.balanced (.inl (by decide))
    obtain ⟨cs, hcs, hcondition⟩ := ihc trivial
    obtain ⟨us, hus, hkey⟩ := hthen.balanced
    obtain ⟨ps, hps, hpositive⟩ := ihp trivial
    obtain ⟨vs, hvs, hbranch⟩ := helse.balanced (.inl (by decide))
    obtain ⟨qs, hqs, hnegative⟩ := ihq trivial
    exact ⟨_, ((((hts.append hcs).append hus).append hps).append hvs).append hqs,
      ((((hword.append hcondition).append hkey).append hpositive).append hbranch).append hnegative⟩
  | lambda hword hopen hparams _ ihb =>
    obtain ⟨ts, hts, hkey⟩ := hword.balanced (.inl (by decide))
    obtain ⟨t, ht, htakes⟩ := hopen.takes
    obtain ⟨us, hus, hlist⟩ := hparams.closed args
    obtain ⟨bs, hbs, hbody⟩ := ihb trivial
    exact ⟨_, (hts.append (htakes.append hus)).append hbs,
      (hkey.append (hlist.enclose (.inl ht))).append hbody⟩
  | truth h => exact h.balanced (.inl (by decide))
  | leaf hleaf => exact ⟨_, .one _ _ _, Balanced.single (bracket_of_kind (kind_of_leaf hleaf))⟩
  | seqClose hstop => exact hstop.closed htask
  | seqTrailing _ hsep hstop =>
    obtain ⟨ts, hts, hmark⟩ := hsep.balanced_separator htask
    obtain ⟨us, hus, hclosed⟩ := hstop.closed htask
    exact ⟨_, hts.append hus, hmark.append_closed hclosed⟩
  | seqFirst _ _ ihe ih =>
    obtain ⟨ts, hts, hitem⟩ := ihe trivial
    obtain ⟨us, hus, hrest⟩ := ih htask
    exact ⟨_, hts.append hus, Balanced.append_closed hitem hrest⟩
  | seqMore hsep _ _ ihe ih =>
    obtain ⟨ts, hts, hmark⟩ := hsep.balanced_separator htask
    obtain ⟨us, hus, hitem⟩ := ihe trivial
    obtain ⟨vs, hvs, hrest⟩ := ih htask
    exact ⟨_, (hts.append hus).append hvs, (hmark.append hitem).append_closed hrest⟩

/-- The tokens of a source that is accepted are balanced. -/
theorem Source.balanced_of_parse {s : Source} {ts : List Token} {n : Node} (hts : s.tokens = .ok ts)
    (h : s.parse o = .ok n) : Balanced ts := by
  obtain ⟨rfl, l, hdone⟩ := Source.drain_of_tokens hts
  obtain ⟨body, s', hbody, rfl⟩ := (TokenSource.read_eq_ok_iff hdone n).mp h
  obtain ⟨ts, hts, hbalanced⟩ := hbody.balanced trivial
  have hrest := hts.1
  rw [hbody.rest_of_statements, List.append_nil] at hrest
  rw [show (drain s.scanner).1 = ts from hrest]
  exact hbalanced

end LambdaReader
