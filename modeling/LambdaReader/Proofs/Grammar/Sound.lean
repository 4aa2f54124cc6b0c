import LambdaReader.Proofs.Reads.Laws
import LambdaReader.Proofs.Grammar.Basic

/-!
# `Proofs.Grammar.Sound` — what is read is derived

Every reading follows the grammar: the tokens that a task takes, in front of any that its continuation
derives, are derived by the category of the task in front of that continuation. Operators are read in
nests of bounds, which the grammar does not know; all bounds are at least zero, so that the operators
read are those of the grammar, and the operations of an operand are handed on to what encloses it.
-/

namespace LambdaReader
namespace Grammar

open Spot Grammar.Symbol

/-- From one place to another the tokens of a symbol are taken. -/
def Spells (allowed : Bool) (x : Symbol) (s s' : Spot) : Prop :=
  ∀ k, Derives allowed k s'.rest → Derives allowed (x :: k) s.rest

theorem spells_of_passes {allowed : Bool} {kind : TokenKind} {text : String} {s s' : Spot}
    (h : s.Passes kind text s') : Spells allowed (.mark (.word kind text)) s s' := by
  intro k hk
  obtain ⟨ht⟩ := h
  exact .mark ht hk

theorem spells_of_names {allowed : Bool} {x : String} {s s' : Spot} (h : s.Names x s') :
    Spells allowed (.mark (.ofKind .identifier)) s s' := by
  intro k hk
  obtain ⟨ht⟩ := h
  exact .mark (decide_eq_true ht) hk

section Sequences

variable {α : Type} {o : ParseOptions} {item : Spot → α → Spot → Prop} {x : Symbol}
  {stop separator : String} {s s' : Spot} {xs : List α}

theorem derives_of_more (hitem : ∀ {s a s'}, item s a s' → Spells o.trailingSeparators x s s')
    (h : Sequence o item stop separator false s xs s') {k : List Symbol}
    (hk : Derives o.trailingSeparators k s'.rest) :
    Derives o.trailingSeparators (repeated [punctuation separator, x] ::
      (trailing o.trailingSeparators separator ++ punctuation stop :: k)) s.rest := by
  generalize hfirst : false = first at h
  induction h with
  | first => cases hfirst
  | close hstop =>
    have hclose := spells_of_passes hstop k hk
    apply Derives.ended
    unfold trailing
    split
    · exact .absent hclose
    · exact hclose
  | trailing ho hsep hstop =>
    have hclose := spells_of_passes hstop k hk
    apply Derives.ended
    rw [trailing, if_pos ho]
    exact .present (spells_of_passes hsep _ hclose)
  | more hsep hx _ ih =>
    have hrest := hitem hx _ (ih hk rfl)
    exact .again (spells_of_passes hsep _ hrest)

/-- Items up to the closing mark: none, or as the grammar has them. -/
theorem derives_of_sequence (hitem : ∀ {s a s'}, item s a s' → Spells o.trailingSeparators x s s')
    (h : Sequence o item stop separator true s xs s') {k : List Symbol}
    (hk : Derives o.trailingSeparators k s'.rest) :
    Derives o.trailingSeparators (punctuation stop :: k) s.rest ∨
    Derives o.trailingSeparators (enclosed x o.trailingSeparators separator stop ++ k) s.rest := by
  cases h with
  | close hstop => exact .inl (spells_of_passes hstop k hk)
  | first hx hxs =>
    refine .inr ?_
    rw [enclosed, List.cons_append, List.cons_append, List.append_assoc]
    exact hitem hx _ (derives_of_more hitem hxs hk)

end Sequences

/-! ## One case for each rule -/

/-- What the grammar says of a task: its tokens are those of its category, whatever is derived after
them. -/
def Follows (o : ParseOptions) : Task → Spot → List Node → Spot → Prop
  | .statements _, s, _, _ => Derives o.trailingSeparators [category .program] s.rest
  | .expression _, s, _, s' => Spells o.trailingSeparators (category .expression) s s'
  | .operand _ bound, s, _, s' => 0 ≤ bound → ∀ k,
    Derives o.trailingSeparators (operations :: k) s'.rest →
    Derives o.trailingSeparators (category .atom :: operations :: k) s.rest
  | .operators _ _ bound, s, _, s' => 0 ≤ bound → ∀ k,
    Derives o.trailingSeparators (operations :: k) s'.rest →
    Derives o.trailingSeparators (operations :: k) s.rest
  | .atom _, s, _, s' => Spells o.trailingSeparators (category .atom) s s'
  | .primary _, s, _, s' => Spells o.trailingSeparators (category .primary) s s'
  | .suffix _ _, s, _, s' => Spells o.trailingSeparators suffix s s'
  | .sequence _ stop separator first, s, ns, s' =>
    Sequence o (fun s _ s' => Spells o.trailingSeparators (category .expression) s s') stop separator
      first s ns s'

theorem fits_leaf {t : Token} {a : Node} (h : t.leaf? = some a) (allowed : Bool) :
    ∃ kind, [mark (.ofKind kind)] ∈ productions allowed .primary ∧
      Mark.fits (.ofKind kind) t = true := by
  refine ⟨t.kind, ?_, decide_eq_true rfl⟩
  unfold Token.leaf? at h
  cases hk : t.kind <;> rw [hk] at h <;> simp [productions] at h ⊢

/-- A program with a semicolon and more expressions after its first. -/
theorem derives_program_cons {allowed : Bool} {s s₁ s₂ : Spot}
    (he : Spells allowed (category .expression) s s₁) (hsep : s₁.Passes .punctuation ";" s₂)
    (h : Derives allowed [category .program] s₂.rest) : Derives allowed [category .program] s.rest := by
  obtain ⟨body, hbody, h⟩ := Derives.category_iff.mp h
  apply Derives.produce [category .expression, repeated [punctuation ";", category .expression],
    optional [punctuation ";"]] (by simp [productions])
  apply he
  simp only [productions, List.mem_cons, List.not_mem_nil, or_false] at hbody
  rcases hbody with rfl | rfl
  · -- The program may end here, and then the semicolon is the last one.
    exact .ended (.present (spells_of_passes hsep _ h))
  · exact .again (spells_of_passes hsep _ h)

/-- A program of one expression with no semicolon behind it. -/
theorem derives_program_single {allowed : Bool} {s s₁ : Spot}
    (he : Spells allowed (category .expression) s s₁) (hend : s₁.rest = []) :
    Derives allowed [category .program] s.rest := by
  apply Derives.produce [category .expression, repeated [punctuation ";", category .expression],
    optional [punctuation ";"]] (by simp [productions])
  apply he
  rw [hend]
  exact .ended (.absent .nil)

section Forms

variable {allowed : Bool} {o : ParseOptions} {s s₁ s₂ s₃ s₄ s₅ s' : Spot} {es : List Node}

/-- No operation is left over behind the operators of an expression. -/
theorem spells_expression (ha : Spells allowed (category .atom) s s₁)
    (ho : ∀ k, Derives allowed (operations :: k) s₂.rest → Derives allowed (operations :: k) s₁.rest)
    (hs : Spells allowed suffix s₂ s') : Spells allowed (category .expression) s s' := by
  intro k hk
  have hoperations := ho (suffix :: k) (.ended (hs k hk))
  apply Derives.produce [category .atom, operations, suffix] (by simp [productions])
  exact ha _ hoperations

theorem spells_atom (hp : Spells allowed (category .primary) s s₁) (hs : Spells allowed suffix s₁ s') :
    Spells allowed (category .atom) s s' := by
  intro k hk
  apply Derives.produce [category .primary, suffix] (by simp [productions])
  exact hp _ (hs k hk)

theorem spells_call (hopen : s.Passes .punctuation "(" s₁)
    (h : Sequence o (fun s _ s' => Spells o.trailingSeparators (category .expression) s s') ")" "," true
      s₁ es s') : Spells o.trailingSeparators suffix s s' := by
  intro k hk
  apply Derives.present
  rcases derives_of_sequence id h hk with h | h
  · apply Derives.produce [punctuation "(", punctuation ")"] (by simp [productions])
    exact spells_of_passes hopen _ h
  · apply Derives.produce
      (punctuation "(" :: enclosed (category .expression) o.trailingSeparators "," ")")
      (by simp [productions])
    exact spells_of_passes hopen _ h

theorem spells_group (hopen : s.Passes .punctuation "(" s₁)
    (he : Spells allowed (category .expression) s₁ s₂) (hstop : s₂.Passes .punctuation ")" s') :
    Spells allowed (category .primary) s s' := by
  intro k hk
  apply Derives.produce [punctuation "(", category .expression, punctuation ")"] (by simp [productions])
  exact spells_of_passes hopen _ (he _ (spells_of_passes hstop k hk))

theorem spells_block (hopen : s.Passes .punctuation "\x7b" s₁)
    (h : Sequence o (fun s _ s' => Spells o.trailingSeparators (category .expression) s s') "\x7d" ";" true
      s₁ es s') : Spells o.trailingSeparators (category .primary) s s' := by
  intro k hk
  apply Derives.produce [category .block] (by simp [productions])
  rcases derives_of_sequence id h hk with h | h
  · apply Derives.produce [punctuation "\x7b", punctuation "\x7d"] (by simp [productions])
    exact spells_of_passes hopen _ h
  · apply Derives.produce
      (punctuation "\x7b" :: enclosed (category .expression) o.trailingSeparators ";" "\x7d")
      (by simp [productions])
    exact spells_of_passes hopen _ h

theorem spells_then (hthen : s.Then s₁) (hp : Spells allowed (category .expression) s₁ s') :
    Spells allowed (category .consequent) s s' := by
  intro k hk
  cases hthen with
  | word h =>
    apply Derives.produce [keyword "then", category .expression] (by simp [productions])
    exact spells_of_passes h _ (hp k hk)
  | block h =>
    apply Derives.produce [headed (.word .punctuation "\x7b") .expression] (by simp [productions])
    obtain ⟨l, _ | ⟨t, rest⟩⟩ := s
    · cases h
    · exact .headed h (hp k hk)

/-- A conditional up to its positive branch, with what the grammar has for the negative one. -/
theorem spells_conditional (hif : s.Passes .keyword "if" s₁)
    (hc : Spells allowed (category .expression) s₁ s₂) (hthen : s₂.Then s₃)
    (hp : Spells allowed (category .expression) s₃ s₄)
    (hrest : ∀ k, Derives allowed k s'.rest → Derives allowed (alternative :: k) s₄.rest) :
    Spells allowed (category .primary) s s' := by
  intro k hk
  have hbranch := spells_then hthen hp (alternative :: k) (hrest k hk)
  apply Derives.produce [category .conditional] (by simp [productions])
  apply Derives.category (List.mem_singleton_self _)
  exact spells_of_passes hif _ (hc _ hbranch)

theorem spells_lambda {params : List String} (hword : s.Passes .keyword "lambda" s₁)
    (hopen : s₁.Passes .punctuation "(" s₂) (hparams : Sequence o Spot.Names ")" "," true s₂ params s₃)
    (hb : Spells o.trailingSeparators (category .expression) s₃ s') :
    Spells o.trailingSeparators (category .primary) s s' := by
  intro k hk
  apply Derives.produce [category .function] (by simp [productions])
  rcases derives_of_sequence spells_of_names hparams (hb k hk) with h | h
  · apply Derives.produce [keyword "lambda", punctuation "(", punctuation ")", category .expression]
      (by simp [productions])
    exact spells_of_passes hword _ (spells_of_passes hopen _ h)
  · apply Derives.produce (keyword "lambda" :: punctuation "(" ::
      (enclosed (mark (.ofKind .identifier)) o.trailingSeparators "," ")" ++ [category .expression]))
      (by simp [productions])
    apply spells_of_passes hword
    apply spells_of_passes hopen
    show Derives _ ((enclosed _ _ _ _ ++ [category .expression]) ++ k) _
    rw [List.append_assoc]
    exact h

theorem spells_truth {b : Bool} (h : s.Passes .keyword (Node.boolWord b) s') :
    Spells allowed (category .primary) s s' := by
  intro k hk
  have hword : [keyword (Node.boolWord b)] ∈ productions allowed .primary := by
    cases b <;> simp [productions, Node.boolWord]
  exact .category hword (spells_of_passes h k hk)

theorem spells_leaf {last : Option Token} {t : Token} {rest : List Token} {a : Node}
    (h : t.leaf? = some a) : Spells allowed (category .primary) ⟨last, t :: rest⟩ ⟨some t, rest⟩ := by
  intro k hk
  obtain ⟨kind, hkind, hfits⟩ := fits_leaf h allowed
  exact .category hkind (.mark hfits hk)

end Forms

/-- What is read is derived. -/
theorem follows_of_reads {o : ParseOptions} {task : Task} {s s' : Spot} {ns : List Node}
    (h : Reads o task s ns s') : Follows o task s ns s' := by
  induction h with
  | done hs =>
    show Derives _ _ _
    rw [hs]
    exact .produce [] (by simp [productions]) .nil
  | last _ hend ihe => exact derives_program_single ihe hend
  | next _ hsep _ ihe ih => exact derives_program_cons ihe hsep ih
  | expression _ _ _ iha iho ihs => exact spells_expression iha (iho (by decide)) ihs
  | operand _ _ iha iho => exact fun hbound k hk => iha _ (iho hbound k hk)
  | settled => exact fun _ k hk => hk
  | fold ht _ _ ihr iho =>
    intro hbound k hk
    have hfits := tighter_zero_iff.mp (tighter_zero_of_tighter hbound ht)
    -- What the right operand leaves over are operations of the whole.
    have hright := ihr (rightBound_nonneg hbound ht) k (iho hbound k hk)
    exact .again (.mark hfits hright)
  | atom _ _ ihp ihs => exact spells_atom ihp ihs
  | bare => exact fun k hk => .absent hk
  | call hopen _ ih => exact spells_call hopen ih
  | group hopen _ hstop ih => exact spells_group hopen ih hstop
  | block hopen _ ih => exact spells_block hopen ih
  | ifThen hif _ hthen _ _ ihc ihp => exact spells_conditional hif ihc hthen ihp fun k hk => .absent hk
  | ifElse hif _ hthen _ helse _ ihc ihp ihq =>
    exact spells_conditional hif ihc hthen ihp fun k hk => .present (spells_of_passes helse _ (ihq k hk))
  | lambda hword hopen hparams _ ihb => exact spells_lambda hword hopen hparams ihb
  | truth h => exact spells_truth h
  | leaf h => exact spells_leaf h
  | seqClose hstop => exact .close hstop
  | seqTrailing ho hsep hstop => exact .trailing ho hsep hstop
  | seqFirst _ _ ihe ih => exact .first ihe ih
  | seqMore hsep _ _ ihe ih => exact .more hsep ihe ih

end Grammar
end LambdaReader
