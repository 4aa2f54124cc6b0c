import LambdaReader.Proofs.Reads.Laws
import LambdaReader.Proofs.Grammar.Basic

/-!
# `Proofs.Grammar.Complete` — what is derived is read

The parser decides by the next token and always takes what it can get. That no derivable text is lost
by this is the law `Derives.take`: wherever arguments, an operation or `else` come next in a derivation,
there is also a derivation that gives them to the innermost place that can have them. It holds because
the symbols that stand between that place and the one that had them may all be left out
(`Derives.insert`).

Readings then follow derivations by induction on the number of tokens. The continuation of a derivation
is `Follow`: first some of the three optional symbols, then something that none of them starts with.
-/

namespace LambdaReader
namespace Grammar

open Spot Grammar.Symbol

/-! ## Places for optional parts -/

/-- The optional parts of expressions, which more than one expression may lay claim to. -/
inductive Slot where
  | operations
  | suffix
  | alternative

namespace Slot

/-- The symbol of the part. -/
def symbol : Slot → Symbol
  | operations => Symbol.operations
  | suffix => Symbol.suffix
  | alternative => Symbol.alternative

/-- What stands in place of the symbol once the part is there. -/
def taken : Slot → List Symbol
  | operations => [.mark .binary, .category .atom, Symbol.operations]
  | suffix => [.category .arguments]
  | alternative => [keyword "else", .category .expression]

/-- The part starts with this token. -/
def Opens : Slot → Token → Prop
  | operations, t => Mark.binary.fits t = true
  | suffix, t => t.is .punctuation "(" = true
  | alternative, t => t.is .keyword "else" = true

variable {allowed : Bool} {k : List Symbol} {t : Token} {ts : List Token}

theorem skippable (x : Slot) : Skippable x.symbol := by
  cases x with
  | operations => exact .repeated _
  | suffix => exact .optional _
  | alternative => exact .optional _

theorem derives_iff (x : Slot) :
    Derives allowed (x.symbol :: k) ts ↔
      Derives allowed k ts ∨ Derives allowed (x.taken ++ k) ts := by
  cases x with
  | operations => exact Derives.repeated_iff
  | suffix => exact Derives.optional_iff
  | alternative => exact Derives.optional_iff

theorem opens_of_taken (x : Slot) (h : Derives allowed (x.taken ++ k) ts) :
    ∃ t us, ts = t :: us ∧ x.Opens t := by
  cases x with
  | operations =>
    obtain ⟨t, us, rfl, ht, _⟩ := Derives.mark_iff.mp h
    exact ⟨t, us, rfl, ht⟩
  | alternative =>
    obtain ⟨t, us, rfl, ht, _⟩ := Derives.mark_iff.mp h
    exact ⟨t, us, rfl, ht⟩
  | suffix =>
    obtain ⟨body, hbody, h⟩ := Derives.category_iff.mp h
    simp only [productions, List.mem_cons, List.not_mem_nil, or_false] at hbody
    rcases hbody with rfl | rfl
    · obtain ⟨t, us, rfl, ht, _⟩ := Derives.mark_iff.mp h
      exact ⟨t, us, rfl, ht⟩
    · obtain ⟨t, us, rfl, ht, _⟩ := Derives.mark_iff.mp h
      exact ⟨t, us, rfl, ht⟩

theorem kind_of_opens {x : Slot} (h : x.Opens t) :
    t.kind = match x with
      | operations => .operator
      | suffix => .punctuation
      | alternative => .keyword := by
  cases x with
  | operations => exact of_decide_eq_true (Bool.and_eq_true_iff.mp h).1
  | suffix => exact Token.kind_of_is h
  | alternative => exact Token.kind_of_is h

/-- The next token decides between the parts. -/
theorem opens_unique {x y : Slot} (hx : x.Opens t) (hy : y.Opens t) : x = y := by
  have h := (kind_of_opens hx).symm.trans (kind_of_opens hy)
  cases x <;> cases y <;> first | rfl | cases h

/-- Other words start none of the parts. -/
theorem not_opens_of_is {kind : TokenKind} {text : String} (h : t.is kind text = true)
    (hkind : kind ≠ .operator) (hopen : text ≠ "(") (helse : text ≠ "else") (x : Slot) :
    ¬ x.Opens t := by
  intro hx
  have htext : t.hasText text = true := (Bool.and_eq_true_iff.mp h).2
  cases x with
  | operations =>
    have hk : t.kind = .operator := kind_of_opens hx
    rw [Token.kind_of_is h] at hk
    exact hkind hk
  | suffix =>
    have hmark : t.hasText "(" = true := (Bool.and_eq_true_iff.mp hx).2
    exact hopen (Token.eq_of_hasText htext hmark)
  | alternative =>
    have hword : t.hasText "else" = true := (Bool.and_eq_true_iff.mp hx).2
    exact helse (Token.eq_of_hasText htext hword)

end Slot

/-- None of the optional parts starts what the symbols derive. -/
def Barrier (allowed : Bool) (k : List Symbol) : Prop :=
  ∀ t ts (x : Slot), Derives allowed k (t :: ts) → ¬ x.Opens t

/-- What may come after an expression: some optional parts of what encloses it, then none. -/
inductive Follow (allowed : Bool) : List Symbol → Prop where
  | barrier {k : List Symbol} : Barrier allowed k → Follow allowed k
  | slot {k : List Symbol} (x : Slot) : Follow allowed k → Follow allowed (x.symbol :: k)

section Greedy

variable {allowed : Bool} {k : List Symbol} {t : Token} {ts : List Token}

/-- A part that comes next can be taken before all that may be left out. -/
theorem Follow.take (hk : Follow allowed k) {x : Slot} (hx : x.Opens t)
    (h : Derives allowed k (t :: ts)) : Derives allowed (x.taken ++ k) (t :: ts) := by
  induction hk with
  | barrier hb => exact absurd hx (hb t ts x h)
  | @slot k y hk ih =>
    rcases y.derives_iff.mp h with h | h
    · -- The part belongs further out; `y` goes without one in between.
      exact .insert y.skippable x.taken k (ih h)
    · -- The enclosing expression had the part; it now goes without.
      obtain ⟨u, us, hu, hy⟩ := y.opens_of_taken h
      obtain ⟨rfl, rfl⟩ := List.cons.inj hu
      obtain rfl := Slot.opens_unique hx hy
      exact .insert x.skippable x.taken k h

/-- The innermost place for a part that comes next may have it. -/
theorem Derives.take (hk : Follow allowed k) {x : Slot} (hx : x.Opens t)
    (h : Derives allowed (x.symbol :: k) (t :: ts)) : Derives allowed (x.taken ++ k) (t :: ts) := by
  rcases x.derives_iff.mp h with h | h
  · exact hk.take hx h
  · exact h

/-- A part that does not come next is left out. -/
theorem Derives.pass {x : Slot} (hx : ∀ t, ts.head? = some t → ¬ x.Opens t)
    (h : Derives allowed (x.symbol :: k) ts) : Derives allowed k ts := by
  rcases x.derives_iff.mp h with h | h
  · exact h
  · obtain ⟨t, us, rfl, ht⟩ := x.opens_of_taken h
    exact absurd ht (hx t rfl)

end Greedy

/-! ## What none of the parts starts -/

section Barriers

variable {allowed : Bool} {k : List Symbol}

theorem barrier_nil : Barrier allowed [] := by
  intro t ts x h
  cases h

theorem barrier_punctuation {text : String} (hopen : text ≠ "(") (helse : text ≠ "else") :
    Barrier allowed (punctuation text :: k) := by
  intro t ts x h
  obtain ⟨_, _, hts, ht, _⟩ := Derives.mark_iff.mp h
  obtain ⟨rfl, rfl⟩ := List.cons.inj hts
  exact Slot.not_opens_of_is ht (by decide) hopen helse x

theorem barrier_optional {text : String} (hopen : text ≠ "(") (helse : text ≠ "else")
    (hk : Barrier allowed k) : Barrier allowed (.optional [punctuation text] :: k) := by
  intro t ts x h
  rcases Derives.optional_iff.mp h with h | h
  · exact hk t ts x h
  · exact barrier_punctuation hopen helse t ts x h

theorem barrier_repeated {text : String} {y : Symbol} (hopen : text ≠ "(") (helse : text ≠ "else")
    (hk : Barrier allowed k) : Barrier allowed (.repeated [punctuation text, y] :: k) := by
  intro t ts x h
  rcases Derives.repeated_iff.mp h with h | h
  · exact hk t ts x h
  · exact barrier_punctuation hopen helse t ts x h

theorem barrier_consequent : Barrier allowed (.category .consequent :: k) := by
  intro t ts x h
  obtain ⟨body, hbody, h⟩ := Derives.category_iff.mp h
  simp only [productions, List.mem_cons, List.not_mem_nil, or_false] at hbody
  rcases hbody with rfl | rfl
  · obtain ⟨_, _, hts, ht, _⟩ := Derives.mark_iff.mp h
    obtain ⟨rfl, rfl⟩ := List.cons.inj hts
    exact Slot.not_opens_of_is ht (by decide) (by decide) (by decide) x
  · cases h with
    | headed ht _ => exact Slot.not_opens_of_is ht (by decide) (by decide) (by decide) x

end Barriers

/-! ## Single tokens -/

/-- A word that comes next can be passed. -/
theorem passes_of_derives {allowed : Bool} {kind : TokenKind} {text : String} {k : List Symbol}
    {s : Spot} (h : Derives allowed (.mark (.word kind text) :: k) s.rest) :
    ∃ t s', s.Passes kind text s' ∧ s.rest = t :: s'.rest ∧ Derives allowed k s'.rest := by
  obtain ⟨l, ts⟩ := s
  obtain ⟨t, us, rfl, ht, h⟩ := Derives.mark_iff.mp h
  exact ⟨t, ⟨some t, us⟩, ⟨ht⟩, rfl, h⟩

theorem names_of_derives {allowed : Bool} {k : List Symbol} {s : Spot}
    (h : Derives allowed (.mark (.ofKind .identifier) :: k) s.rest) :
    ∃ t x s', s.Names x s' ∧ s.rest = t :: s'.rest ∧ Derives allowed k s'.rest := by
  obtain ⟨l, ts⟩ := s
  obtain ⟨t, us, rfl, ht, h⟩ := Derives.mark_iff.mp h
  exact ⟨t, t.text, ⟨some t, us⟩, ⟨of_decide_eq_true ht⟩, rfl, h⟩

/-! ## Sequences -/

/-- The items after the first, up to the closing mark. -/
def moreItems (item : Symbol) (allowed : Bool) (separator stop : String) : List Symbol :=
  .repeated [punctuation separator, item] :: (trailing allowed separator ++ [punctuation stop])

theorem barrier_moreItems {item : Symbol} {allowed : Bool} {separator stop : String}
    {k : List Symbol} (hsep : separator ≠ "(" ∧ separator ≠ "else")
    (hstop : stop ≠ "(" ∧ stop ≠ "else") :
    Barrier allowed (moreItems item allowed separator stop ++ k) := by
  refine barrier_repeated hsep.1 hsep.2 ?_
  unfold trailing
  split
  · exact barrier_optional hsep.1 hsep.2 (barrier_punctuation hstop.1 hstop.2)
  · exact barrier_punctuation hstop.1 hstop.2

section Sequences

variable {α : Type} {o : ParseOptions} {I : Spot → α → Spot → Prop} {x : Symbol}
  {stop separator : String} {P : List Token → Prop} {k : List Symbol}

/-- The end of a sequence: a separator, if it is there, and the closing mark. -/
theorem sequence_of_ended {s : Spot}
    (h : Derives o.trailingSeparators
      (trailing o.trailingSeparators separator ++ [punctuation stop] ++ k) s.rest) :
    ∃ s', Sequence o I stop separator false s [] s' ∧ Derives o.trailingSeparators k s'.rest := by
  cases ho : o.trailingSeparators with
  | false =>
    rw [ho, trailing, if_neg Bool.false_ne_true] at h
    obtain ⟨_, s', hstop, _, hk⟩ := passes_of_derives h
    exact ⟨s', .close hstop, hk⟩
  | true =>
    rw [ho, trailing, if_pos rfl] at h
    rcases Derives.optional_iff.mp h with h | h
    · obtain ⟨_, s', hstop, _, hk⟩ := passes_of_derives h
      exact ⟨s', .close hstop, hk⟩
    · obtain ⟨_, s₁, hsep, _, h⟩ := passes_of_derives h
      obtain ⟨_, s', hstop, _, hk⟩ := passes_of_derives h
      exact ⟨s', .trailing ho hsep hstop, hk⟩

/-- The items after the first are read as they are derived, if each item is. -/
theorem sequence_of_moreItems (hP : ∀ {t ts}, P (t :: ts) → P ts)
    (hitem : ∀ s, P s.rest →
      Derives o.trailingSeparators (x :: (moreItems x o.trailingSeparators separator stop ++ k)) s.rest →
      ∃ a s', I s a s' ∧ P s'.rest ∧ s'.rest.length < s.rest.length ∧
        Derives o.trailingSeparators (moreItems x o.trailingSeparators separator stop ++ k) s'.rest)
    (s : Spot) (hs : P s.rest)
    (h : Derives o.trailingSeparators (moreItems x o.trailingSeparators separator stop ++ k) s.rest) :
    ∃ xs s', Sequence o I stop separator false s xs s' ∧
      Derives o.trailingSeparators k s'.rest := by
  induction hn : s.rest.length using Nat.strongRecOn generalizing s with
  | ind n ih =>
    rcases Derives.repeated_iff.mp h with h | h
    · obtain ⟨s', hend, hk⟩ := sequence_of_ended h
      exact ⟨[], s', hend, hk⟩
    · -- The separator and the item take tokens, so the induction goes on behind them.
      obtain ⟨t, s₁, hsep, hrest, h⟩ := passes_of_derives h
      rw [hrest] at hs hn
      obtain ⟨a, s₂, ha, hs₂, hlt, h⟩ := hitem s₁ (hP hs) h
      have hfewer : s₂.rest.length < n := by
        rw [← hn, List.length_cons]
        omega
      obtain ⟨xs, s', hxs, hk⟩ := ih s₂.rest.length hfewer s₂ hs₂ h rfl
      exact ⟨a :: xs, s', .more hsep ha hxs, hk⟩

/-- A sequence is read as it is derived, if each item is. -/
theorem sequence_of_enclosed (hP : ∀ {t ts}, P (t :: ts) → P ts)
    (hitem : ∀ s, P s.rest →
      Derives o.trailingSeparators (x :: (moreItems x o.trailingSeparators separator stop ++ k)) s.rest →
      ∃ a s', I s a s' ∧ P s'.rest ∧ s'.rest.length < s.rest.length ∧
        Derives o.trailingSeparators (moreItems x o.trailingSeparators separator stop ++ k) s'.rest)
    (s : Spot) (hs : P s.rest)
    (h : Derives o.trailingSeparators (enclosed x o.trailingSeparators separator stop ++ k) s.rest) :
    ∃ xs s', Sequence o I stop separator true s xs s' ∧
      Derives o.trailingSeparators k s'.rest := by
  obtain ⟨a, s₁, ha, hs₁, _, h⟩ := hitem s hs h
  obtain ⟨xs, s', hxs, hk⟩ := sequence_of_moreItems hP hitem s₁ hs₁ h
  exact ⟨a :: xs, s', .first ha hxs, hk⟩

end Sequences

/-! ## Expressions -/

/-- Numerals stand for numbers. -/
def Numbered (ts : List Token) : Prop := ∀ t ∈ ts, t.kind = .number → t.number?.isSome = true

theorem Numbered.tail {t : Token} {ts : List Token} (h : Numbered (t :: ts)) : Numbered ts := by
  intro u hu
  exact h u (List.mem_cons_of_mem t hu)

theorem Numbered.of_reads {o : ParseOptions} {task : Task} {s s' : Spot} {ns : List Node}
    (hs : Numbered s.rest) (h : Reads o task s ns s') : Numbered s'.rest := by
  obtain ⟨ts, hts, _⟩ := h.takes
  intro t ht
  have hmem : t ∈ s.rest := by
    rw [hts.1]
    exact List.mem_append_right ts ht
  exact hs t hmem

/-- Expressions of less than `m` tokens are read as they are derived, given enough levels. -/
def Accepts (o : ParseOptions) (m : Nat) : Prop :=
  ∀ {s : Spot} {n : Nat} {k : List Symbol}, s.rest.length < m → Numbered s.rest →
    2 * s.rest.length + 1 ≤ n → Follow o.trailingSeparators k →
    Derives o.trailingSeparators (.category .expression :: k) s.rest →
    ∃ e s', Reads o (.expression n) s [e] s' ∧ Derives o.trailingSeparators k s'.rest

section Forms

variable {o : ParseOptions} {m n : Nat} {s : Spot} {k : List Symbol}

/-- The expressions of a call or of a block. -/
theorem reads_sequence_of_derives (ih : Accepts o m) {stop separator : String}
    (hsep : separator ≠ "(" ∧ separator ≠ "else") (hstop : stop ≠ "(" ∧ stop ≠ "else")
    (hm : s.rest.length < m) (hnum : Numbered s.rest) (hn : 2 * s.rest.length + 1 ≤ n)
    (h : Derives o.trailingSeparators (punctuation stop :: k) s.rest ∨ Derives o.trailingSeparators
      (enclosed (.category .expression) o.trailingSeparators separator stop ++ k) s.rest) :
    ∃ es s', Reads o (.sequence n stop separator true) s es s' ∧
      Derives o.trailingSeparators k s'.rest := by
  rcases h with h | h
  · obtain ⟨_, s', hstop, _, hk⟩ := passes_of_derives h
    exact ⟨[], s', .seqClose hstop, hk⟩
  · have hP : ∀ {t : Token} {ts : List Token},
        ((t :: ts).length ≤ s.rest.length ∧ Numbered (t :: ts)) →
        ts.length ≤ s.rest.length ∧ Numbered ts := by
      rintro t ts ⟨hle, hts⟩
      exact ⟨Nat.le_of_succ_le hle, hts.tail⟩
    have hitem : ∀ s₁ : Spot, (s₁.rest.length ≤ s.rest.length ∧ Numbered s₁.rest) →
        Derives o.trailingSeparators (.category .expression ::
          (moreItems (.category .expression) o.trailingSeparators separator stop ++ k)) s₁.rest →
        ∃ e s', Reads o (.expression n) s₁ [e] s' ∧
          (s'.rest.length ≤ s.rest.length ∧ Numbered s'.rest) ∧ s'.rest.length < s₁.rest.length ∧
          Derives o.trailingSeparators
            (moreItems (.category .expression) o.trailingSeparators separator stop ++ k) s'.rest := by
      intro s₁ hs₁ h
      obtain ⟨e, s₂, he, hk⟩ := ih (n := n) (by omega) hs₁.2 (by omega)
        (.barrier (barrier_moreItems hsep hstop)) h
      have hlt := he.length_lt trivial
      exact ⟨e, s₂, he, ⟨by omega, hs₁.2.of_reads he⟩, hlt, hk⟩
    obtain ⟨es, s', hes, hk⟩ := sequence_of_enclosed
      (I := fun s e s' => Reads o (.expression n) s [e] s')
      (P := fun ts => ts.length ≤ s.rest.length ∧ Numbered ts) hP hitem s ⟨Nat.le_refl _, hnum⟩ h
    exact ⟨es, s', reads_sequence_iff.mpr hes, hk⟩

theorem reads_suffix_of_derives (ih : Accepts o m) (callee : Node) (hm : s.rest.length ≤ m)
    (hnum : Numbered s.rest) (hn : 2 * s.rest.length ≤ n + 1)
    (hk : Follow o.trailingSeparators k)
    (h : Derives o.trailingSeparators (suffix :: k) s.rest) :
    ∃ e s', Reads o (.suffix n callee) s [e] s' ∧ Derives o.trailingSeparators k s'.rest := by
  by_cases hs : s.isAt .punctuation "(" = true
  · obtain ⟨l, _ | ⟨t, ts⟩⟩ := s
    · cases hs
    -- The arguments may belong to what encloses this; taking them here loses no derivation.
    have hcall := Derives.take (x := .suffix) hk hs h
    obtain ⟨body, hbody, h⟩ := Derives.category_iff.mp hcall
    simp only [List.length_cons] at hm hn
    have hargs : Derives o.trailingSeparators (punctuation ")" :: k) ts ∨ Derives o.trailingSeparators
        (enclosed (.category .expression) o.trailingSeparators "," ")" ++ k) ts := by
      simp only [productions, List.mem_cons, List.not_mem_nil, or_false] at hbody
      rcases hbody with rfl | rfl
      · obtain ⟨_, _, hts, _, h⟩ := Derives.mark_iff.mp h
        obtain ⟨rfl, rfl⟩ := List.cons.inj hts
        exact .inl h
      · obtain ⟨_, _, hts, _, h⟩ := Derives.mark_iff.mp h
        obtain ⟨rfl, rfl⟩ := List.cons.inj hts
        exact .inr h
    obtain ⟨es, s', hes, hk⟩ := reads_sequence_of_derives (n := n) (s := ⟨some t, ts⟩) ih (by decide)
      (by decide) (by simp only; omega) hnum.tail (by simp only; omega) hargs
    exact ⟨_, s', .call ⟨hs⟩ hes, hk⟩
  · refine ⟨callee, s, .bare (Bool.eq_false_iff.mpr hs), Derives.pass (x := .suffix) ?_ h⟩
    intro t ht hopen
    rw [Spot.isAt, ht] at hs
    exact hs hopen

theorem reads_block_of_derives (ih : Accepts o m) (hm : s.rest.length ≤ m)
    (hnum : Numbered s.rest) (hn : 2 * s.rest.length ≤ n + 1)
    (h : Derives o.trailingSeparators (.category .block :: k) s.rest) :
    ∃ e s', Reads o (.primary n) s [e] s' ∧ Derives o.trailingSeparators k s'.rest := by
  obtain ⟨body, hbody, h⟩ := Derives.category_iff.mp h
  have hopen : ∃ t s₁, s.Passes .punctuation "\x7b" s₁ ∧ s.rest = t :: s₁.rest ∧
      (Derives o.trailingSeparators (punctuation "\x7d" :: k) s₁.rest ∨
      Derives o.trailingSeparators
        (enclosed (.category .expression) o.trailingSeparators ";" "\x7d" ++ k) s₁.rest) := by
    simp only [productions, List.mem_cons, List.not_mem_nil, or_false] at hbody
    rcases hbody with rfl | rfl
    · obtain ⟨t, s₁, hopen, hrest, h⟩ := passes_of_derives h
      exact ⟨t, s₁, hopen, hrest, .inl h⟩
    · obtain ⟨t, s₁, hopen, hrest, h⟩ := passes_of_derives h
      exact ⟨t, s₁, hopen, hrest, .inr h⟩
  obtain ⟨t, s₁, hopen, hrest, h⟩ := hopen
  rw [hrest] at hm hnum hn
  rw [List.length_cons] at hm hn
  obtain ⟨es, s', hes, hk⟩ := reads_sequence_of_derives (n := n) ih (by decide) (by decide)
    (by omega) hnum.tail (by omega) h
  exact ⟨_, s', .block hopen hes, hk⟩

/-- The parameters of a function. -/
theorem names_of_enclosed {s : Spot} {k : List Symbol}
    (h : Derives o.trailingSeparators
      (enclosed (.mark (.ofKind .identifier)) o.trailingSeparators "," ")" ++ k) s.rest) :
    ∃ params s', Sequence o Spot.Names ")" "," true s params s' ∧
      Derives o.trailingSeparators k s'.rest := by
  have hitem : ∀ s₁ : Spot, True → Derives o.trailingSeparators (.mark (.ofKind .identifier) ::
      (moreItems (.mark (.ofKind .identifier)) o.trailingSeparators "," ")" ++ k)) s₁.rest →
      ∃ x s', s₁.Names x s' ∧ True ∧ s'.rest.length < s₁.rest.length ∧ Derives o.trailingSeparators
        (moreItems (.mark (.ofKind .identifier)) o.trailingSeparators "," ")" ++ k) s'.rest := by
    intro s₁ _ h
    obtain ⟨t, x, s', hx, hrest, h⟩ := names_of_derives h
    have hlt : s'.rest.length < s₁.rest.length := by
      rw [hrest]
      exact Nat.lt_succ_self _
    exact ⟨x, s', hx, trivial, hlt, h⟩
  exact sequence_of_enclosed (I := Spot.Names) (P := fun _ => True) (fun _ => trivial) hitem s
    trivial h

theorem reads_function_of_derives (ih : Accepts o m) (hm : s.rest.length ≤ m)
    (hnum : Numbered s.rest) (hn : 2 * s.rest.length ≤ n + 1) (hk : Follow o.trailingSeparators k)
    (h : Derives o.trailingSeparators (.category .function :: k) s.rest) :
    ∃ e s', Reads o (.primary n) s [e] s' ∧ Derives o.trailingSeparators k s'.rest := by
  obtain ⟨body, hbody, h⟩ := Derives.category_iff.mp h
  have hparams : ∃ s₁ s₂ params s₃, s.Passes .keyword "lambda" s₁ ∧ s₁.Passes .punctuation "(" s₂ ∧
      Sequence o Spot.Names ")" "," true s₂ params s₃ ∧
      Derives o.trailingSeparators (.category .expression :: k) s₃.rest := by
    simp only [productions, List.mem_cons, List.not_mem_nil, or_false] at hbody
    rcases hbody with rfl | rfl
    · obtain ⟨_, s₁, hword, _, h⟩ := passes_of_derives h
      obtain ⟨_, s₂, hopen, _, h⟩ := passes_of_derives h
      obtain ⟨_, s₃, hstop, _, h⟩ := passes_of_derives h
      exact ⟨s₁, s₂, [], s₃, hword, hopen, .close hstop, h⟩
    · obtain ⟨_, s₁, hword, _, h⟩ := passes_of_derives h
      obtain ⟨_, s₂, hopen, _, h⟩ := passes_of_derives h
      have happend : Derives o.trailingSeparators
          (enclosed (.mark (.ofKind .identifier)) o.trailingSeparators "," ")" ++
            .category .expression :: k) s₂.rest := by
        rw [← List.singleton_append, ← List.append_assoc]
        exact h
      obtain ⟨params, s₃, hparams, h⟩ := names_of_enclosed happend
      exact ⟨s₁, s₂, params, s₃, hword, hopen, hparams, h⟩
  obtain ⟨s₁, s₂, params, s₃, hword, hopen, hparams, h⟩ := hparams
  obtain ⟨t, _, hts⟩ := hword.takes
  obtain ⟨u, _, hus⟩ := hopen.takes
  obtain ⟨ps, hps⟩ := hparams.takes fun hx => by
    obtain ⟨v, _, _, hv⟩ := hx.takes
    exact ⟨_, hv⟩
  -- Everything before the body, which is short enough for the induction hypothesis.
  have hall := (hts.append hus).append hps
  have hlength := hall.length
  simp only [List.length_append, List.length_singleton] at hlength
  have hnum₃ : Numbered s₃.rest := by
    intro v hv
    have hmem : v ∈ s.rest := by
      rw [hall.1]
      exact List.mem_append_right _ hv
    exact hnum v hmem
  obtain ⟨b, s', hb, h⟩ := ih (n := n) (by omega) hnum₃ (by omega) hk h
  exact ⟨_, s', .lambda hword hopen hparams hb, h⟩

theorem reads_conditional_of_derives (ih : Accepts o m) (hm : s.rest.length ≤ m)
    (hnum : Numbered s.rest) (hn : 2 * s.rest.length ≤ n + 1) (hk : Follow o.trailingSeparators k)
    (h : Derives o.trailingSeparators (.category .conditional :: k) s.rest) :
    ∃ e s', Reads o (.primary n) s [e] s' ∧ Derives o.trailingSeparators k s'.rest := by
  obtain ⟨body, hbody, h⟩ := Derives.category_iff.mp h
  obtain rfl := List.mem_singleton.mp hbody
  obtain ⟨t, s₁, hif, hrest, h⟩ := passes_of_derives h
  rw [hrest] at hm hnum hn
  rw [List.length_cons] at hm hn
  -- No optional part of the condition can start the branch.
  obtain ⟨c, s₂, hc, h⟩ := ih (n := n) (by omega) hnum.tail (by omega) (.barrier barrier_consequent) h
  have hlt₂ := hc.length_lt trivial
  have hnum₂ := hnum.tail.of_reads hc
  have hthen : ∃ s₃, s₂.Then s₃ ∧ s₃.rest.length ≤ s₂.rest.length ∧ Numbered s₃.rest ∧
      Derives o.trailingSeparators (.category .expression :: alternative :: k) s₃.rest := by
    obtain ⟨body, hbody, h⟩ := Derives.category_iff.mp h
    simp only [productions, List.mem_cons, List.not_mem_nil, or_false] at hbody
    rcases hbody with rfl | rfl
    · obtain ⟨u, s₃, hword, hrest, h⟩ := passes_of_derives h
      rw [hrest] at hnum₂ ⊢
      exact ⟨s₃, .word hword, Nat.le_succ _, hnum₂.tail, h⟩
    · refine ⟨s₂, .block ?_, Nat.le_refl _, hnum₂, ?_⟩
      · obtain ⟨l, ts⟩ := s₂
        cases h with
        | headed ht _ => exact ht
      · obtain ⟨l, ts⟩ := s₂
        cases h with
        | headed _ hexpr => exact hexpr
  obtain ⟨s₃, hthen, hle₃, hnum₃, h⟩ := hthen
  obtain ⟨p, s₄, hp, h⟩ := ih (n := n) (by omega) hnum₃ (by omega) (.slot .alternative hk) h
  have hlt₄ := hp.length_lt trivial
  have hnum₄ := hnum₃.of_reads hp
  by_cases helse : s₄.isAt .keyword "else" = true
  · obtain ⟨l, _ | ⟨u, ts⟩⟩ := s₄
    · cases helse
    -- The innermost conditional takes the negative branch.
    have hbranch := Derives.take (x := .alternative) hk helse h
    obtain ⟨_, _, hts, _, h⟩ := Derives.mark_iff.mp hbranch
    obtain ⟨rfl, rfl⟩ := List.cons.inj hts
    simp only [List.length_cons] at hlt₄
    obtain ⟨q, s', hq, h⟩ := ih (n := n) (s := ⟨some u, ts⟩) (by simp only; omega) hnum₄.tail
      (by simp only; omega) hk h
    exact ⟨_, s', .ifElse hif hc hthen hp ⟨helse⟩ hq, h⟩
  · refine ⟨_, s₄, .ifThen hif hc hthen hp (Bool.eq_false_iff.mpr helse),
      Derives.pass (x := .alternative) ?_ h⟩
    intro u hu hopen
    rw [Spot.isAt, hu] at helse
    exact helse hopen

/-- A token of its own is a leaf. -/
theorem reads_leaf_of_derives {kind : TokenKind} (hkind : kind ≠ .punctuation ∧ kind ≠ .keyword)
    (hnum : Numbered s.rest)
    (h : Derives o.trailingSeparators (.mark (.ofKind kind) :: k) s.rest) :
    ∃ e s', Reads o (.primary n) s [e] s' ∧ Derives o.trailingSeparators k s'.rest := by
  obtain ⟨l, ts⟩ := s
  obtain ⟨t, us, rfl, ht, h⟩ := Derives.mark_iff.mp h
  have hk : t.kind = kind := of_decide_eq_true ht
  have hleaf : t.leaf?.isSome = true := by
    unfold Token.leaf?
    cases kind with
    | punctuation => exact absurd rfl hkind.1
    | keyword => exact absurd rfl hkind.2
    | number =>
      rw [hk]
      exact (Option.isSome_map ..).trans (hnum t List.mem_cons_self hk)
    | identifier => rw [hk]; rfl
    | string => rw [hk]; rfl
    | operator => rw [hk]; rfl
  obtain ⟨a, ha⟩ := Option.isSome_iff_exists.mp hleaf
  exact ⟨a, ⟨some t, us⟩, .leaf ha, h⟩

theorem reads_primary_of_derives (ih : Accepts o m) (hm : s.rest.length ≤ m)
    (hnum : Numbered s.rest) (hn : 2 * s.rest.length ≤ n + 1) (hk : Follow o.trailingSeparators k)
    (h : Derives o.trailingSeparators (.category .primary :: k) s.rest) :
    ∃ e s', Reads o (.primary n) s [e] s' ∧ Derives o.trailingSeparators k s'.rest := by
  obtain ⟨body, hbody, h⟩ := Derives.category_iff.mp h
  simp only [productions, List.mem_cons, List.not_mem_nil, or_false] at hbody
  rcases hbody with rfl | rfl | rfl | rfl | rfl | rfl | rfl | rfl | rfl | rfl
  · -- An expression in parentheses; only its closing mark can follow it.
    obtain ⟨t, s₁, hopen, hrest, h⟩ := passes_of_derives h
    rw [hrest] at hm hnum hn
    rw [List.length_cons] at hm hn
    obtain ⟨e, s₂, he, h⟩ := ih (n := n) (by omega) hnum.tail (by omega)
      (.barrier (barrier_punctuation (by decide) (by decide))) h
    obtain ⟨_, s', hstop, _, h⟩ := passes_of_derives h
    exact ⟨e, s', .group hopen he hstop, h⟩
  · exact reads_block_of_derives ih hm hnum hn h
  · exact reads_conditional_of_derives ih hm hnum hn hk h
  · exact reads_function_of_derives ih hm hnum hn hk h
  · obtain ⟨_, s', h, _, hk⟩ := passes_of_derives h
    exact ⟨_, s', .truth (b := true) h, hk⟩
  · obtain ⟨_, s', h, _, hk⟩ := passes_of_derives h
    exact ⟨_, s', .truth (b := false) h, hk⟩
  · exact reads_leaf_of_derives (by decide) hnum h
  · exact reads_leaf_of_derives (by decide) hnum h
  · exact reads_leaf_of_derives (by decide) hnum h
  · exact reads_leaf_of_derives (by decide) hnum h

theorem reads_atom_of_derives (ih : Accepts o m) (hm : s.rest.length ≤ m)
    (hnum : Numbered s.rest) (hn : 2 * s.rest.length ≤ n + 1) (hk : Follow o.trailingSeparators k)
    (h : Derives o.trailingSeparators (.category .atom :: k) s.rest) :
    ∃ e s', Reads o (.atom n) s [e] s' ∧ Derives o.trailingSeparators k s'.rest := by
  obtain ⟨body, hbody, h⟩ := Derives.category_iff.mp h
  obtain rfl := List.mem_singleton.mp hbody
  obtain ⟨first, s₁, hfirst, h⟩ := reads_primary_of_derives ih hm hnum hn (.slot .suffix hk) h
  have hlt := hfirst.length_lt trivial
  obtain ⟨e, s', he, h⟩ := reads_suffix_of_derives (n := n) ih first (by omega)
    (hnum.of_reads hfirst) (by omega) hk h
  exact ⟨e, s', .atom hfirst he, h⟩

/-- The operators that bind tighter than a bound, up to one that does not. The operations that are left
over are still derived, by what encloses them. -/
theorem reads_operators_of_derives (ih : Accepts o m) {a : Node} {bound : Int}
    (hbound : 0 ≤ bound) (hm : s.rest.length ≤ m) (hnum : Numbered s.rest)
    (hn : 2 * s.rest.length ≤ n) (hk : Follow o.trailingSeparators k)
    (h : Derives o.trailingSeparators (operations :: k) s.rest) :
    ∃ e s', Reads o (.operators n a bound) s [e] s' ∧
      Derives o.trailingSeparators (operations :: k) s'.rest ∧ ¬ s'.Tighter bound := by
  induction hlen : s.rest.length using Nat.strongRecOn generalizing s n a bound with
  | ind len rec =>
    by_cases ht : s.Tighter bound
    · obtain ⟨l, _ | ⟨t, ts⟩⟩ := s
      · obtain ⟨u, hu, _⟩ := ht
        cases hu
      obtain ⟨u, hu, ht⟩ := ht
      cases hu
      simp only [List.length_cons] at hm hn hlen
      obtain ⟨n, rfl⟩ : ∃ n', n = n' + 2 := ⟨n - 2, by omega⟩
      have hfits := tighter_zero_iff.mp (tighter_zero_of_tighter hbound ht)
      have htaken := Derives.take (x := .operations) hk hfits h
      obtain ⟨_, _, hts, _, h⟩ := Derives.mark_iff.mp htaken
      obtain ⟨rfl, rfl⟩ := List.cons.inj hts
      obtain ⟨first, s₁, hfirst, h⟩ := reads_atom_of_derives (n := n) (s := ⟨some t, ts⟩) ih
        (by simp only; omega) hnum.tail (by simp only; omega) (.slot .operations hk) h
      have hlt₁ : s₁.rest.length < ts.length := hfirst.length_lt trivial
      have hnum₁ : Numbered s₁.rest := hnum.tail.of_reads hfirst
      -- The right operand folds what binds tighter than its operator; the loop goes on behind it.
      obtain ⟨right, s₂, hright, h, _⟩ := rec s₁.rest.length (by omega) (a := first) (n := n)
        (rightBound_nonneg hbound ht) (by omega) hnum₁ (by omega) h rfl
      have hle₂ : s₂.rest.length ≤ s₁.rest.length := by
        obtain ⟨us, hus, _⟩ := hright.takes
        rw [hus.length]
        exact Nat.le_add_left _ _
      obtain ⟨e, s', he, h, hs'⟩ := rec s₂.rest.length (by omega) (a := .joined t.text a right)
        (n := n + 1) hbound (by omega) (hnum₁.of_reads hright) (by omega) h rfl
      exact ⟨e, s', .fold ht (.operand hfirst hright) he, h, hs'⟩
    · exact ⟨a, s, .settled ht, h, ht⟩

/-- One more token: an expression is an atom, then the operators that bind at all, then arguments. -/
theorem Accepts.succ (ih : Accepts o m) : Accepts o (m + 1) := by
  intro s n k hm hnum hn hk h
  obtain ⟨n, rfl⟩ : ∃ n', n = n' + 1 := ⟨n - 1, by omega⟩
  obtain ⟨body, hbody, h⟩ := Derives.category_iff.mp h
  obtain rfl := List.mem_singleton.mp hbody
  have hle : s.rest.length ≤ m := Nat.le_of_lt_succ hm
  obtain ⟨first, s₁, hfirst, h⟩ := reads_atom_of_derives (n := n) ih hle hnum (by omega)
    (.slot .operations (.slot .suffix hk)) h
  have hlt₁ := hfirst.length_lt trivial
  have hnum₁ := hnum.of_reads hfirst
  obtain ⟨whole, s₂, hwhole, h, hs₂⟩ := reads_operators_of_derives (a := first) (n := n) ih
    (Int.le_refl 0) (by omega) hnum₁ (by omega) (.slot .suffix hk) h
  have hle₂ : s₂.rest.length ≤ s₁.rest.length := by
    obtain ⟨us, hus, _⟩ := hwhole.takes
    rw [hus.length]
    exact Nat.le_add_left _ _
  -- At the lowest bound no operation is left over.
  have hsettled : Derives o.trailingSeparators (suffix :: k) s₂.rest := by
    apply Derives.pass (x := .operations) _ h
    intro t ht hopen
    exact hs₂ ⟨t, ht, tighter_zero_iff.mpr hopen⟩
  obtain ⟨e, s', he, h⟩ := reads_suffix_of_derives (n := n) ih whole (by omega)
    (hnum₁.of_reads hwhole) (by omega) hk hsettled
  exact ⟨e, s', .expression hfirst hwhole he, h⟩

end Forms

/-- Expressions of any length are read as they are derived. -/
theorem accepts (o : ParseOptions) (m : Nat) : Accepts o m := by
  induction m with
  | zero => exact fun hm => absurd hm (Nat.not_lt_zero _)
  | succ m ih => exact ih.succ

/-! ## Programs -/

/-- A program is read as it is derived, given two levels for each token and one more. -/
theorem reads_statements_of_derives {o : ParseOptions} {n : Nat} {s : Spot} (hnum : Numbered s.rest)
    (hn : 2 * s.rest.length + 1 ≤ n)
    (h : Derives o.trailingSeparators [.category .program] s.rest) :
    ∃ body s', Reads o (.statements n) s body s' := by
  induction hlen : s.rest.length using Nat.strongRecOn generalizing s with
  | ind len ih =>
    obtain ⟨body, hbody, h⟩ := Derives.category_iff.mp h
    simp only [productions, List.mem_cons, List.not_mem_nil, or_false] at hbody
    rcases hbody with rfl | rfl
    · obtain ⟨l, ts⟩ := s
      cases h
      exact ⟨[], _, .done rfl⟩
    have hfollow : Barrier o.trailingSeparators
        [.repeated [punctuation ";", .category .expression], .optional [punctuation ";"]] :=
      barrier_repeated (by decide) (by decide) (barrier_optional (by decide) (by decide) barrier_nil)
    obtain ⟨e, s₁, he, h⟩ := accepts o _ (n := n) (Nat.lt_succ_self _) hnum hn (.barrier hfollow) h
    have hlt := he.length_lt trivial
    have hnum₁ := hnum.of_reads he
    rcases Derives.repeated_iff.mp h with h | h
    · -- This was the last expression, with or without a semicolon behind it.
      rcases Derives.optional_iff.mp h with h | h
      · exact ⟨_, _, .last he h.eq_nil⟩
      · obtain ⟨t, s₂, hsep, _, h⟩ := passes_of_derives h
        exact ⟨_, _, .next he hsep (.done h.eq_nil)⟩
    · obtain ⟨t, s₂, hsep, hrest, h⟩ := passes_of_derives h
      rw [hrest] at hlt hnum₁
      rw [List.length_cons] at hlt
      have hprogram : Derives o.trailingSeparators [.category .program] s₂.rest :=
        .produce [.category .expression, .repeated [punctuation ";", .category .expression],
          .optional [punctuation ";"]] (by simp [productions]) h
      obtain ⟨es, s', hes⟩ := ih s₂.rest.length (by omega) hnum₁.tail (by omega) hprogram rfl
      exact ⟨_, _, .next he hsep hes⟩

end Grammar
end LambdaReader
