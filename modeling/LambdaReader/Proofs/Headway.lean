import LambdaReader.Proofs.Depth
import LambdaReader.Proofs.Pace

/-!
# `Proofs.Headway` — how many tokens a run takes under different limits

A run takes no token back and takes no more tokens than there are. So with a limit of more than twice their
number nothing is nested too deeply. And a run that a lower limit stops has taken no more tokens by then than
the run with a higher limit takes, since it does the same up to there.

## Main results
- `Source.exists_limit`: a limit that no reading of a source reaches;
- `Source.read_within_eq`: a lower limit that is high enough for what is scanned with a higher one.
-/

namespace LambdaReader
namespace Parser

open Step TokenSource

variable {σ α β : Type} [TokenSource σ]

/-! ## Tokens that are taken -/

/-- The number of tokens that were scanned, and of those that may be. -/
def budget (p : Parser σ) : Int :=
  (p.tokens.journal.toList.filterMap Note.token?).length + bound p.tokens.source

/-- How a run ends: no token is given back, and no more are taken than there were. -/
inductive Strides (p : Parser σ) : EStateM.Result Failure (Parser σ) α → Prop where
  | ok {a : α} {q : Parser σ} : p.tokens.taken ≤ q.tokens.taken → q.budget ≤ p.budget → Strides p (.ok a q)
  | failed {e : Failure} {q : Parser σ} : p.tokens.taken ≤ q.tokens.taken → q.tokens.taken ≤ p.budget →
    Strides p (.error e q)

/-- From any state the run goes ahead. -/
def Headway ⦃α : Type⦄ (x : Parse σ α) : Prop := ∀ p, Strides p (x p)

theorem taken_le_budget (p : Parser σ) : p.tokens.taken ≤ p.budget := by
  have hle := p.tokens.taken_le
  unfold budget
  omega

/-- Only tokens that are scanned count. -/
theorem budget_note (p : Parser σ) {n : Note} (h : n.token? = none) :
    budget { p with tokens := { p.tokens with journal := p.tokens.journal.push n } } = p.budget := by
  simp [budget, Array.toList_push, h]

theorem budget_scanned {r r' : σ} (h : bound r' < bound r) (j : Array Note) (t : Token)
    (ahead last last' : Option Token) (depth : Nat) :
    budget ⟨⟨r', ahead, j.push (.scanned t)⟩, last', depth⟩ ≤ budget ⟨⟨r, none, j⟩, last, depth⟩ := by
  simp only [budget, Array.toList_push, List.filterMap_append, List.length_append, List.filterMap_cons,
    Note.token?, List.filterMap_nil, List.length_singleton]
  omega

namespace Headway

variable {x : Parse σ α} {o : ParseOptions}

/-- No token is given back. -/
theorem taken_le (h : Headway x) (p : Parser σ) : p.tokens.taken ≤ (after x p).tokens.taken := by
  have hout := h p
  unfold after
  generalize x p = r at hout
  cases hout with
  | ok hle _ => exact hle
  | failed hle _ => exact hle

protected theorem pure (a : α) : Headway (σ := σ) (pure a) :=
  fun _ => .ok (Int.le_refl _) (Int.le_refl _)

protected theorem throw (e : Failure) : Headway (throw e : Parse σ α) :=
  fun p => .failed (Int.le_refl _) p.taken_le_budget

protected theorem bind {f : α → Parse σ β} (hx : Headway x) (hf : ∀ a, Headway (f a)) :
    Headway (x >>= f) := by
  intro p
  have hout := hx p
  rw [bind_apply]
  generalize x p = r at hout
  cases hout with
  | failed hle hbudget => exact .failed hle hbudget
  | @ok a q hle hbudget =>
    have hout' := hf a q
    dsimp only
    generalize f a q = r' at hout'
    cases hout' with
    | ok hle' hbudget' => exact .ok (Int.le_trans hle hle') (Int.le_trans hbudget' hbudget)
    | failed hle' hbudget' => exact .failed (Int.le_trans hle hle') (Int.le_trans hbudget' hbudget)

protected theorem note {n : Note} (h : n.token? = none) : Headway (onTokens (σ := σ) (Lookahead.note n)) :=
  fun p => .ok (Lookahead.taken_push_le _ _ _ n) (Int.le_of_eq (budget_note p h))

variable [LawfulTokenSource σ]

protected theorem peek : Headway (peek (σ := σ)) := by
  rintro ⟨⟨r, ahead, j⟩, last, depth⟩
  cases ahead with
  | some t =>
    rw [Parser.peek, onTokens, Lookahead.peek_of_ahead rfl]
    exact .ok (Int.le_refl _) (Int.le_refl _)
  | none =>
    rw [Parser.peek, onTokens, Lookahead.peek_of_none]
    cases hscan : scan r with
    | error e r' => exact .failed (Int.le_refl _) (taken_le_budget _)
    | ok found r' =>
      cases found with
      | none =>
        have hle := (LawfulTokenSource.scan_none hscan).1
        exact .ok (Int.le_refl _) (Int.add_le_add_left (Int.ofNat_le.mpr hle) _)
      | some t =>
        refine .ok ?_ (budget_scanned (LawfulTokenSource.scan_some hscan).1 j t _ _ _ _)
        rw [Lookahead.taken_push_scanned, Lookahead.taken_some]
        exact Int.le_of_eq (Int.sub_add_cancel _ 1).symm

/-- To take a token is to look at it first. -/
protected theorem advance : Headway (advance (σ := σ)) := by
  rintro ⟨⟨r, ahead, j⟩, last, depth⟩
  cases ahead with
  | some t =>
    rw [advance_of_ahead rfl]
    refine .ok ?_ (Int.le_refl _)
    show Lookahead.taken ⟨r, some t, j⟩ ≤ Lookahead.taken ⟨r, none, j⟩
    rw [Lookahead.taken_some]
    omega
  | none =>
    rw [Parser.advance, bind_apply, onTokens, Lookahead.next_of_none]
    cases hscan : scan r with
    | error e r' => exact .failed (Int.le_refl _) (taken_le_budget _)
    | ok found r' =>
      cases found with
      | none =>
        have hle := (LawfulTokenSource.scan_none hscan).1
        exact .ok (Int.le_refl _) (Int.add_le_add_left (Int.ofNat_le.mpr hle) _)
      | some t =>
        refine .ok ?_ (budget_scanned (LawfulTokenSource.scan_some hscan).1 j t _ _ _ _)
        exact Lookahead.taken_push_le r none j (.scanned t)

theorem compositional : Compositional (Itself (Headway (σ := σ))) where
  pure a := ⟨rfl, .pure a⟩
  bind := Itself.bind Headway.bind
  get := ⟨rfl, fun _ => .ok (Int.le_refl _) (Int.le_refl _)⟩
  peek := ⟨rfl, .peek⟩
  advance := ⟨rfl, .advance⟩
  note h := ⟨rfl, .note h⟩
  fail _ _ := ⟨rfl, fun p => .failed (Int.le_refl _) p.taken_le_budget⟩
  misuse _ := ⟨rfl, .throw _⟩

protected theorem reject (cause : GrammarCause) : Headway (reject cause : Parse σ α) :=
  .bind .peek fun _ p => .failed (Int.le_refl _) p.taken_le_budget

protected theorem nested {x : Parse σ α} (h : Headway x) : Headway (nested o x) := by
  intro p
  by_cases hlimit : o.maxDepth < (p.depth : Int) + 1
  · rw [nested_of_lt hlimit]
    exact Headway.reject _ p
  · rw [nested_of_le (by omega)]
    have hout := h p.deeper
    generalize x p.deeper = r at hout
    cases hout with
    | ok hle hbudget => exact .ok hle hbudget
    | failed hle hbudget => exact .failed hle hbudget

protected theorem exhausted : Headway (exhausted o : Parse σ α) := by
  rw [exhausted_eq]
  exact .reject _

end Headway

/-! ## What a lower limit stops -/

/-- The second step goes ahead, and from every state the first does the same or is nested too deeply after
no more tokens. -/
def Lags ⦃α : Type⦄ (x y : Parse σ α) : Prop :=
  Headway y ∧ ∀ p, x p = y p ∨
    ∃ e q, x p = .error e q ∧ e.IsTooDeep ∧ q.tokens.taken ≤ (after y p).tokens.taken

namespace Lags

variable {x y : Parse σ α} {o : ParseOptions} {d d' : Int}

protected theorem refl (h : Headway x) : Lags x x := ⟨h, fun _ => .inl rfl⟩

protected theorem bind {f g : α → Parse σ β} (hx : Lags x y) (hf : ∀ a, Lags (f a) (g a)) :
    Lags (x >>= f) (y >>= g) := by
  have hg : ∀ a, Headway (g a) := fun a => (hf a).1
  refine ⟨hx.1.bind hg, fun p => ?_⟩
  rcases hx.2 p with hp | ⟨e, q, hp, he, hle⟩
  · rw [after, bind_apply, bind_apply, hp]
    cases y p with
    | error e q => exact .inl rfl
    | ok a q => exact (hf a).2 q
  · refine .inr ⟨e, q, by rw [bind_apply, hp], he, Int.le_trans hle ?_⟩
    -- What follows on the right takes no token back.
    rw [after, after, bind_apply]
    cases y p with
    | error e q => exact Int.le_refl _
    | ok a q => exact (hg a).taken_le q

variable [LawfulTokenSource σ]

theorem compositional : Compositional (Lags (σ := σ)) where
  pure a := .refl (.pure a)
  bind := .bind
  get := .refl (Headway.compositional.get).2
  peek := .refl .peek
  advance := .refl .advance
  note h := .refl (.note h)
  fail _ h := .refl (Headway.compositional.fail _ h).2
  misuse _ := .refl (.throw _)

omit [LawfulTokenSource σ] in
/-- To look at the next token takes none. -/
theorem taken_peek {p q : Parser σ} {found : Option Token} (h : peek p = .ok found q) :
    q.tokens.taken = p.tokens.taken := by
  obtain ⟨ts, hpeek, rfl⟩ := lookahead_peek h
  obtain ⟨⟨r, ahead, j⟩, last, depth⟩ := p
  obtain ⟨t, _, _, rfl⟩ | ⟨t, r', rfl, _, _, rfl⟩ | ⟨r', rfl, _, _, rfl⟩ := Lookahead.cases_of_peek hpeek
  · rfl
  · show Lookahead.taken ⟨r', some t, j.push (.scanned t)⟩ = Lookahead.taken ⟨r, none, j⟩
    rw [Lookahead.taken_some, Lookahead.taken_push_scanned]
    exact Int.add_sub_cancel _ 1
  · rfl

omit [LawfulTokenSource σ] in
/-- At the limit the next token is looked at, and nothing is taken. -/
theorem reject_tooDeep (h : Headway y) (hy : Peeks y) (limit : Int) : Lags (reject (.tooDeep limit)) y := by
  refine ⟨h, fun p => ?_⟩
  rw [reject_apply]
  cases hp : peek p with
  | error e q => exact .inl (hy hp).symm
  | ok found q =>
    refine .inr ⟨_, q, rfl, Failure.isTooDeep_grammar _ _ _, ?_⟩
    rw [taken_peek hp]
    exact h.taken_le p

omit [LawfulTokenSource σ] in
theorem exhausted (h : Headway y) (hy : Peeks y) : Lags (exhausted o) y := by
  rw [exhausted_eq]
  exact reject_tooDeep h hy _

protected theorem nested (h : Lags x y) (hy : Peeks y) (hd : d ≤ d') :
    Lags (nested (o.within d) x) (nested (o.within d') y) := by
  refine ⟨h.1.nested, fun p => ?_⟩
  by_cases hlimit : d < (p.depth : Int) + 1
  · rw [nested_of_lt (o := o.within d) hlimit]
    exact (reject_tooDeep h.1.nested hy.nested _).2 p
  · have hle : (p.depth : Int) + 1 ≤ d := by omega
    rw [after, nested_of_le (o := o.within d) hle, nested_of_le (o := o.within d') (Int.le_trans hle hd)]
    rcases h.2 p.deeper with hp | ⟨e, q, hp, he, htaken⟩
    · rw [hp]
      exact .inl rfl
    · rw [hp]
      refine .inr ⟨e, q.ascend, rfl, he, ?_⟩
      unfold after at htaken
      cases hy : y p.deeper with
      | ok a q' => rw [hy] at htaken; exact htaken
      | error e' q' => rw [hy] at htaken; exact htaken

protected theorem program (o : ParseOptions) (hd : d ≤ d') :
    Lags (σ := σ) (program (o.within d)) (program (o.within d')) := by
  have hR := (compositional (σ := σ)).hereditary
  have hself : ∀ ⦃x : Parse σ Node⦄, Lags x x →
      Lags (Parser.nested (o.within d') x) (Parser.nested (o.within d') x) :=
    fun x hx => .refl hx.1.nested
  have hlimits {n m : Nat} (hnm : n ≤ m) := hR.limits (o := o) (d := d) hself (.refl .exhausted)
    (fun _ _ h hy => .nested h hy hd) (fun _ h hy => .exhausted h.1 hy) hnm
  refine hR.program ⟨fun p => ?_, fun p => ?_⟩
  · exact (hlimits (Nat.le_refl _)).1.1 p
  · exact (hlimits (Int.toNat_le_toNat (Int.sub_le_sub_right hd _))).1.2 p

end Lags
end Parser

/-! ## Sources -/

namespace Source

variable {s : Source} {o : ParseOptions} {d d' : Int}

/-- Nesting that is too deep takes half as many tokens as the limit has levels, and no more than there are. -/
theorem not_isTooDeep_of_bound (h : 2 * (TokenSource.bound s.scanner : Int) < o.maxDepth) {e : Failure}
    (he : s.parse o = .error e) : ¬e.IsTooDeep := by
  intro hdeep
  have hpace := Parser.Paced.program (o := o) (d := 0) (Parser.ofSource s.scanner) rfl trivial
  have hself := (Parser.Lags.program o (Int.le_refl o.maxDepth)).1 (Parser.ofSource s.scanner)
  unfold Source.parse Source.read TokenSource.read at he
  rw [show o.within o.maxDepth = o from rfl] at hself
  generalize Parser.program o (Parser.ofSource s.scanner) = result at hpace hself he
  cases hpace with
  | ok => cases he
  | @failed e' q hlimit =>
    obtain rfl : e' = e := Except.error.inj he
    cases hself with
    | failed _ hbudget =>
      have hlt := hlimit hdeep
      have hstart : (Parser.ofSource s.scanner).tokens.taken = 0 := rfl
      have hall : (Parser.ofSource s.scanner).budget = TokenSource.bound s.scanner := Int.zero_add _
      omega

/-- There is a limit that no reading of the source reaches. -/
theorem exists_limit (s : Source) (d : Int) :
    ∃ high, d ≤ high ∧ ∀ o : ParseOptions, o.maxDepth = high → ∀ e, s.parse o = .error e → ¬e.IsTooDeep := by
  refine ⟨max d (2 * TokenSource.bound s.scanner + 1), Int.le_max_left _ _, fun o ho e => ?_⟩
  refine not_isTooDeep_of_bound ?_
  rw [ho]
  exact Int.lt_of_lt_of_le (Int.lt_succ _) (Int.le_max_right _ _)

/-- A source is read with a lower limit as with a higher one, if that scans fewer tokens than the lower limit
has room for. -/
theorem read_within_eq (hd : d ≤ d') (h : 2 * ((s.read (o.within d')).scanned.length : Int) + 1 ≤ d) :
    s.read (o.within d) = s.read (o.within d') := by
  have hpace := Parser.Paced.program (o := o.within d) (d := 0) (Parser.ofSource s.scanner) rfl trivial
  unfold Source.read TokenSource.read at h ⊢
  rcases (Parser.Lags.program o hd).2 (Parser.ofSource s.scanner) with hp | ⟨e, q, hp, he, hle⟩
  · rw [hp]
  · -- The tokens that were taken when nesting became too deep are among those that are scanned.
    rw [hp] at hpace
    cases hpace with
    | failed hlimit =>
      have hlt : d < (0 : Nat) + (1 : Nat) + 2 * (q.tokens.taken - 0) := hlimit he
      unfold Parser.after at hle
      unfold Reading.scanned at h
      cases hrun : Parser.program (o.within d') (Parser.ofSource s.scanner) with
      | ok _ q' | error _ q' =>
        rw [hrun] at h hle
        have htaken := q'.tokens.taken_le
        dsimp only at h hle
        omega

end Source
end LambdaReader
