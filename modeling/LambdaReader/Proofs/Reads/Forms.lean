import LambdaReader.Proofs.Reads.Exact

/-!
# `Proofs.Reads.Forms` — sequences and atoms read what `Reads` says

The loop over the items of a sequence and the forms of an atom, given a way to read expressions that
reads what `Reads` says. The fuel of the loop drops out because every item takes a token.
-/

namespace LambdaReader

open TokenSource Step Spot

namespace Parser

variable {σ α β : Type} [TokenSource σ] [LawfulTokenSource σ]

/-! ## Sequences -/

/-- Before the closing mark a sequence is over. -/
theorem sequence_iff_of_isAt {item : Spot → α → Spot → Prop} {o : ParseOptions}
    {stop separator : String} {first : Bool} {s s' : Spot} {xs : List α}
    (hitem : ∀ {s x s'}, item s x s' → s.isAt .punctuation stop = false)
    (hne : stop ≠ separator) (hs : s.isAt .punctuation stop = true) :
    Sequence o item stop separator first s xs s' ↔ xs = [] ∧ s.Passes .punctuation stop s' := by
  -- The closing mark is not the separator, and no item starts with it.
  have notSeparator : ∀ {s'}, ¬ s.Passes .punctuation separator s' := by
    intro s' hsep
    rw [hsep.isAt] at hs
    simp [hne.symm] at hs
  constructor
  · intro h
    cases h with
    | close hstop => exact ⟨rfl, hstop⟩
    | trailing _ hsep => exact absurd hsep notSeparator
    | first hx => rw [hitem hx] at hs; cases hs
    | more hsep => exact absurd hsep notSeparator
  · rintro ⟨rfl, hstop⟩
    exact .close hstop

/-- Where an item starts the sequence goes on with it, after a separator unless it is the first. -/
theorem sequence_first_iff {item : Spot → α → Spot → Prop} {o : ParseOptions}
    {stop separator : String} {s s' : Spot} {xs : List α} (hs : s.isAt .punctuation stop = false) :
    Sequence o item stop separator true s xs s' ↔
      ∃ x s₁ ys, item s x s₁ ∧ Sequence o item stop separator false s₁ ys s' ∧ xs = x :: ys := by
  constructor
  · intro h
    cases h with
    | close hstop => rw [hstop.isAt] at hs; simp at hs
    | first hx hxs => exact ⟨_, _, _, hx, hxs, rfl⟩
  · rintro ⟨x, s₁, ys, hx, hxs, rfl⟩
    exact .first hx hxs

theorem sequence_more_iff {item : Spot → α → Spot → Prop} {o : ParseOptions}
    {stop separator : String} {s s' : Spot} {xs : List α}
    (hitem : ∀ {s x s'}, item s x s' → s.isAt .punctuation stop = false)
    (hs : s.isAt .punctuation stop = false) :
    Sequence o item stop separator false s xs s' ↔
      ∃ s₁, s.Passes .punctuation separator s₁ ∧
        if o.trailingSeparators && s₁.isAt .punctuation stop then
          xs = [] ∧ s₁.Passes .punctuation stop s'
        else ∃ x s₂ ys, item s₁ x s₂ ∧ Sequence o item stop separator false s₂ ys s' ∧
          xs = x :: ys := by
  constructor
  · intro h
    cases h with
    | close hstop => rw [hstop.isAt] at hs; simp at hs
    | trailing ho hsep hstop =>
      refine ⟨_, hsep, ?_⟩
      rw [ho, hstop.isAt, if_pos (by simp)]
      exact ⟨rfl, hstop⟩
    | more hsep hx hxs =>
      refine ⟨_, hsep, ?_⟩
      rw [hitem hx, Bool.and_false, if_neg Bool.false_ne_true]
      exact ⟨_, _, _, hx, hxs, rfl⟩
  · rintro ⟨s₁, hsep, h⟩
    split at h
    · next ho =>
      obtain ⟨rfl, hstop⟩ := h
      exact .trailing (Bool.and_eq_true_iff.mp ho).1 hsep hstop
    · obtain ⟨x, s₂, ys, hx, hxs, rfl⟩ := h
      exact .more hsep hx hxs

/-- Runs a step and takes the closing mark after it. -/
def through (stop : String) (step : Parse σ α) : Parse σ α := do
  let a ← step
  skip .punctuation stop
  return a

section Items

variable {o : ParseOptions} {n : Nat} {stop separator : String} {item : Parse σ α}
  {I : Spot → α → Spot → Prop}

theorem through_nil_exact (s : Spot) :
    ExactAt o n s (through stop (pure [] : Parse σ (List α))) fun xs s' =>
      xs = [] ∧ s.Passes .punctuation stop s' := by
  rw [through, pure_bind]
  refine (ExactAt.skip_bind fun s₁ _ => ExactAt.pure ([] : List α)).congr fun xs s' => ?_
  constructor
  · rintro ⟨s₁, hstop, rfl, rfl⟩
    exact ⟨rfl, hstop⟩
  · rintro ⟨rfl, hstop⟩
    exact ⟨s', hstop, rfl, rfl⟩

/-- The items up to the closing mark and over it, if the fuel exceeds the number of tokens left. -/
theorem items_exact (hrun : ∀ s, ExactAt o n s item (I s))
    (hitem : ∀ {s x s'}, I s x s' → s.isAt .punctuation stop = false)
    (htaking : ∀ {s x s'}, I s x s' → s'.rest.length < s.rest.length) (hne : stop ≠ separator)
    (fuel : Nat) (first : Bool) (s : Spot) (hfuel : s.rest.length < fuel) :
    ExactAt o n s (through stop (items o stop separator item fuel first))
      (Sequence o I stop separator first s) := by
  induction fuel generalizing first s with
  | zero => exact absurd hfuel (Nat.not_lt_zero _)
  | succ fuel ih =>
    -- An item and what comes after it, with the fuel that is left.
    have more : ∀ s, s.rest.length < fuel + 1 → ExactAt o n s
        (through stop (item >>= fun x => items o stop separator item fuel false >>= fun xs =>
          pure (x :: xs)))
        fun xs s' => ∃ x s₁ ys, I s x s₁ ∧ Sequence o I stop separator false s₁ ys s' ∧
          xs = x :: ys := by
      intro s hs
      have hsplit : through stop (item >>= fun x =>
          items o stop separator item fuel false >>= fun xs => pure (x :: xs)) =
          item >>= fun x => through stop (items o stop separator item fuel false) >>= fun xs =>
            pure (x :: xs) := by
        simp only [through, bind_assoc, pure_bind]
      rw [hsplit]
      refine (ExactAt.bind (hrun s) fun x s₁ hx => ExactAt.bind (ih false s₁ ?_) fun ys s₂ _ =>
        ExactAt.pure (σ := σ) _).congr fun xs s' => ?_
      · have hlt := htaking hx
        omega
      · constructor
        · rintro ⟨x, s₁, hx, ys, s₂, hys, rfl, rfl⟩
          exact ⟨x, s₁, ys, hx, hys, rfl⟩
        · rintro ⟨x, s₁, ys, hx, hys, rfl⟩
          exact ⟨x, s₁, hx, ys, s', hys, rfl, rfl⟩
    -- The step that chooses is run until it has chosen; what it chooses is closed by one of the two.
    rw [items, through, bind_assoc]
    refine ExactAt.atEnd_bind ?_
    obtain ⟨l, _ | ⟨t, rest⟩⟩ := s
    · -- At the end there is no closing mark, so nothing is read and no rule applies.
      refine (through_nil_exact ⟨l, []⟩).congr fun xs s' => ⟨nofun, fun h => ?_⟩
      cases h with
      | close hstop => cases hstop
      | trailing _ hsep => cases hsep
      | first hx => exact absurd (htaking hx) (Nat.not_lt_zero _)
      | more hsep => cases hsep
    · rw [List.isEmpty_cons, if_neg Bool.false_ne_true, bind_assoc]
      refine ExactAt.isAt_bind ?_
      cases hstop : (⟨l, t :: rest⟩ : Spot).isAt .punctuation stop with
      | true =>
        rw [if_pos rfl]
        exact (through_nil_exact _).congr fun xs s' => (sequence_iff_of_isAt hitem hne hstop).symm
      | false =>
        rw [if_neg Bool.false_ne_true, bind_assoc, anotherItem]
        cases first with
        | true =>
          rw [if_pos rfl, pure_bind, if_pos rfl]
          exact (more _ hfuel).congr fun xs s' => (sequence_first_iff hstop).symm
        | false =>
          rw [if_neg Bool.false_ne_true, bind_assoc]
          refine (ExactAt.skip_bind (S := fun s₁ xs s' =>
            if o.trailingSeparators && s₁.isAt .punctuation stop then
              xs = [] ∧ s₁.Passes .punctuation stop s'
            else ∃ x s₂ ys, I s₁ x s₂ ∧ Sequence o I stop separator false s₂ ys s' ∧ xs = x :: ys)
            fun s₁ hsep => ?_).congr fun xs s' => (sequence_more_iff hitem hstop).symm
          have hs₁ : s₁.rest.length < fuel + 1 := by
            obtain ⟨_, _, hu⟩ := hsep.takes
            have hlength := hu.length
            omega
          cases ho : o.trailingSeparators with
          | false =>
            rw [if_neg Bool.false_ne_true, pure_bind, if_pos rfl]
            exact more s₁ hs₁
          | true =>
            rw [if_pos rfl, bind_assoc]
            refine ExactAt.isAt_bind ?_
            rw [pure_bind]
            cases hstop₁ : s₁.isAt .punctuation stop with
            | true => exact through_nil_exact s₁
            | false => exact more s₁ hs₁

/-- As many tokens are left as the bound says, or fewer. -/
theorem length_spot_le (p : Parser σ) : p.spot.rest.length ≤ p.tokens.bound := by
  rw [spot, Lookahead.bound, List.length_append, Nat.add_comm]
  exact Nat.add_le_add_right (length_drain_le _) _

theorem delimited_exact {start : String} (hrun : ∀ s, ExactAt o n s item (I s))
    (hitem : ∀ {s x s'}, I s x s' → s.isAt .punctuation stop = false)
    (htaking : ∀ {s x s'}, I s x s' → s'.rest.length < s.rest.length) (hne : stop ≠ separator)
    (s : Spot) :
    ExactAt o n s (delimited o start stop separator item) fun xs s' =>
      ∃ s₁, s.Passes .punctuation start s₁ ∧ Sequence o I stop separator true s₁ xs s' := by
  refine ExactAt.skip_bind fun s₁ _ => ?_
  have hitems (fuel : Nat) (hfuel : s₁.rest.length < fuel) :=
    items_exact hrun hitem htaking hne fuel true s₁ hfuel
  refine ExactAt.get_bind (fun xs s' => (hitems _ (Nat.lt_succ_self _)).ended) fun p hp => ?_
  refine hitems _ ?_
  rw [← hp]
  exact Nat.lt_succ_of_le (length_spot_le p)

end Items

/-! ## Atoms -/

section Atoms

variable {o : ParseOptions} {n : Nat} {s : Spot} {expr : Parse σ Node}

theorem variableName_exact (s : Spot) :
    ExactAt (σ := σ) o n s variableName fun x s' => s.Names x s' := by
  obtain ⟨l, _ | ⟨t, rest⟩⟩ := s
  · exact ExactAt.advance_bind_nil
      ((ExactAt.never fun _ _ _ => fail_ne_ok _ _ _ _ _).congr fun _ _ => ⟨False.elim, nofun⟩)
  · refine ExactAt.advance_bind ?_
    dsimp only
    by_cases ht : t.kind = .identifier
    · rw [if_pos ht]
      refine (ExactAt.pure t.text).congr fun x s' => ⟨?_, ?_⟩
      · rintro ⟨rfl, rfl⟩
        exact ⟨ht⟩
      · rintro ⟨_⟩
        exact ⟨rfl, rfl⟩
    · rw [if_neg ht]
      refine (ExactAt.never fun _ _ _ => fail_ne_ok _ _ _ _ _).congr fun x s' => ⟨False.elim, ?_⟩
      rintro ⟨h⟩
      exact ht h

theorem boolean_exact {b : Bool} (hs : s.isAt .keyword (Node.boolWord b) = true) :
    ExactAt (σ := σ) o n s boolean fun e s' =>
      s.Passes .keyword (Node.boolWord b) s' ∧ e = .bool b (s.spanTo s') := by
  obtain ⟨l, _ | ⟨t, rest⟩⟩ := s
  · cases hs
  · -- Which of the two keywords it is decides the value.
    have hb : t.hasText "true" = b := by
      have ht := Token.is_eq hs .keyword "true"
      rw [Token.is, Token.kind_of_is hs] at ht
      cases b with
      | true => simpa [Node.boolWord] using ht
      | false => simpa [Node.boolWord] using ht
    refine ExactAt.advance_bind (ExactAt.spanFrom_bind ?_)
    rw [hb]
    refine (ExactAt.pure _).congr fun e s' => ⟨?_, ?_⟩
    · rintro ⟨rfl, rfl⟩
      exact ⟨⟨hs⟩, rfl⟩
    · rintro ⟨⟨_⟩, rfl⟩
      exact ⟨rfl, rfl⟩

omit [LawfulTokenSource σ] in
theorem leafNode_exact {t : Token} (ht : ¬ (t.kind = .punctuation ∨ t.kind = .keyword)) :
    ExactAt (σ := σ) o n s (leafNode t ⟨t.location, t.location⟩) fun e s' =>
      t.leaf? = some e ∧ s' = s := by
  have done : ∀ a : Node, ExactAt (σ := σ) o n s (pure a) fun e s' => some a = some e ∧ s' = s :=
    fun a => (ExactAt.pure a).congr fun e s' => by rw [Option.some.injEq, eq_comm]
  unfold leafNode Token.leaf?
  cases hk : t.kind with
  | punctuation => exact absurd (.inl hk) ht
  | keyword => exact absurd (.inr hk) ht
  | identifier => exact done _
  | string => exact done _
  | operator => exact done _
  | number =>
    dsimp only
    cases t.number? with
    | some x => exact done _
    | none =>
      exact (ExactAt.throw _).congr fun e s' => ⟨False.elim, fun h => nomatch h.1⟩

theorem leaf_exact (s : Spot) :
    ExactAt (σ := σ) o n s leaf fun e s' =>
      ∃ l t rest, s = ⟨l, t :: rest⟩ ∧ t.leaf? = some e ∧ s' = ⟨some t, rest⟩ := by
  refine ExactAt.peek_bind ?_
  obtain ⟨l, _ | ⟨t, rest⟩⟩ := s
  · exact (ExactAt.reject _).congr fun e s' => ⟨False.elim, fun ⟨_, _, _, h, _⟩ => nomatch h⟩
  · dsimp only [List.head?_cons]
    by_cases ht : t.kind = .punctuation ∨ t.kind = .keyword
    · rw [if_pos ht]
      refine (ExactAt.reject _).congr fun e s' => ⟨False.elim, ?_⟩
      rintro ⟨_, _, _, hs, hleaf, _⟩
      cases hs
      unfold Token.leaf? at hleaf
      rcases ht with ht | ht <;> rw [ht] at hleaf <;> cases hleaf
    · rw [if_neg ht]
      refine ExactAt.advance_bind (ExactAt.spanFrom_bind ((leafNode_exact ht).congr fun e s' => ?_))
      constructor
      · rintro ⟨hleaf, rfl⟩
        exact ⟨l, t, rest, rfl, hleaf, rfl⟩
      · rintro ⟨_, _, _, hs, hleaf, rfl⟩
        cases hs
        exact ⟨hleaf, rfl⟩

/-! ### The forms that hold expressions -/

variable (hexpr : ∀ s, ExactAt o n s expr fun e s' => Reads o (.expression n) s [e] s')
include hexpr

theorem expressions_exact {start stop separator : String} (hopen : stop ≠ "(") (hbrace : stop ≠ "\x7b")
    (hne : stop ≠ separator) (s : Spot) :
    ExactAt o n s (delimited o start stop separator expr) fun es s' =>
      ∃ s₁, s.Passes .punctuation start s₁ ∧ Reads o (.sequence n stop separator true) s₁ es s' := by
  refine (delimited_exact hexpr ?_ ?_ hne s).congr fun es s' => ?_
  · intro s e s' he
    obtain ⟨t, ht, hopens⟩ := he.opens trivial
    rw [Spot.isAt, ht]
    exact hopens.not_is hopen hbrace
  · exact fun he => he.length_lt trivial
  · simp only [reads_sequence_iff]

theorem maybeCallWith_exact {callee : Node} (hcallee : callee.span.isSome = true) (s : Spot) :
    ExactAt o n s (maybeCallWith o expr callee) fun e s' => Reads o (.suffix n callee) s [e] s' := by
  obtain ⟨sp, hsp⟩ := Option.isSome_iff_exists.mp hcallee
  refine ExactAt.isAt_bind ?_
  cases hs : s.isAt .punctuation "(" with
  | false =>
    rw [if_neg Bool.false_ne_true]
    refine (ExactAt.pure callee).congr fun e s' => ⟨?_, fun h => ?_⟩
    · rintro ⟨rfl, rfl⟩
      exact .bare hs
    · cases h with
      | bare => exact ⟨rfl, rfl⟩
      | call hopen => rw [hopen.isAt] at hs; cases hs
  | true =>
    rw [if_pos rfl, callWith, spanOf, hsp]
    refine (ExactAt.bind (S := fun args s₁ e s' => e = .called callee args s₁ ∧ s' = s₁)
      (expressions_exact hexpr (by decide) (by decide) (by decide) s) fun args s₁ _ => ?_).congr
      fun e s' => ⟨?_, fun h => ?_⟩
    · dsimp only
      rw [pure_bind]
      refine ExactAt.spanFrom_bind ?_
      rw [Node.called, hsp]
      exact ExactAt.pure _
    · rintro ⟨args, s₁, ⟨s₀, hopen, hargs⟩, rfl, rfl⟩
      exact .call hopen hargs
    · cases h with
      | bare hbare => rw [hs] at hbare; cases hbare
      | call hopen hargs => exact ⟨_, _, ⟨_, hopen, hargs⟩, rfl, rfl⟩

theorem groupWith_exact (hs : s.isAt .punctuation "(" = true) :
    ExactAt o n s (groupWith expr) fun e s' => ∃ s₁ s₂, s.Passes .punctuation "(" s₁ ∧
      Reads o (.expression n) s₁ [e] s₂ ∧ s₂.Passes .punctuation ")" s' := by
  obtain ⟨l, _ | ⟨t, rest⟩⟩ := s
  · cases hs
  · refine ExactAt.advance_bind ?_
    refine (ExactAt.bind (hexpr _) fun e s₂ _ => ExactAt.skip_bind fun s₃ _ =>
      ExactAt.pure e).congr fun e s' => ⟨?_, ?_⟩
    · rintro ⟨e, s₂, he, s₃, hstop, rfl, rfl⟩
      exact ⟨_, _, ⟨hs⟩, he, hstop⟩
    · rintro ⟨_, s₂, ⟨_⟩, he, hstop⟩
      exact ⟨_, _, he, _, hstop, rfl, rfl⟩

theorem blockWith_exact (s : Spot) :
    ExactAt o n s (blockWith o expr) fun e s' => ∃ s₁ body, s.Passes .punctuation "\x7b" s₁ ∧
      Reads o (.sequence n "\x7d" ";" true) s₁ body s' ∧ e = .blocked body (s.spanTo s') := by
  refine ExactAt.startLocation_bind fun l hl => ?_
  refine (ExactAt.bind (S := fun body s₁ e s' => e = .blocked body (s.spanTo s₁) ∧ s' = s₁)
    (expressions_exact hexpr (by decide) (by decide) (by decide) s) fun body s₂ hbody => ?_).congr
    fun e s' => ⟨?_, ?_⟩
  · obtain ⟨s₁, hopen, _⟩ := hbody
    refine ExactAt.spanFrom_bind ?_
    rw [hopen.spanTo_eq hl]
    match body with
    | [] => exact ExactAt.pure _
    | [n] => exact ExactAt.pure _
    | _ :: _ :: _ => exact ExactAt.pure _
  · rintro ⟨body, s₂, ⟨s₁, hopen, hbody⟩, rfl, rfl⟩
    exact ⟨s₁, body, hopen, hbody, rfl⟩
  · rintro ⟨s₁, body, hopen, hbody, rfl⟩
    exact ⟨body, s', ⟨s₁, hopen, hbody⟩, rfl, rfl⟩

omit hexpr in
theorem skipThen_exact (s : Spot) : ExactAt (σ := σ) o n s skipThen fun _ s' => s.Then s' := by
  refine ExactAt.isAt_bind ?_
  cases hs : s.isAt .punctuation "\x7b" with
  | true =>
    rw [if_pos rfl]
    refine (ExactAt.pure ()).congr fun _ s' => ⟨?_, fun h => ?_⟩
    · rintro ⟨_, rfl⟩
      exact .block hs
    · cases h with
      | block => exact ⟨rfl, rfl⟩
      | word h => rw [h.isAt] at hs; simp at hs
  | false =>
    rw [if_neg Bool.false_ne_true]
    refine ExactAt.skip.congr fun _ s' => ⟨.word, fun h => ?_⟩
    cases h with
    | block h => rw [hs] at h; cases h
    | word h => exact h

/-- A conditional: what it is after its positive branch depends on the next token. -/
theorem conditionalWith_exact (s : Spot) :
    ExactAt o n s (conditionalWith expr) fun e s' => ∃ s₁, s.Passes .keyword "if" s₁ ∧
      ∃ c s₂, Reads o (.expression n) s₁ [c] s₂ ∧ ∃ s₃, s₂.Then s₃ ∧
      ∃ p s₄, Reads o (.expression n) s₃ [p] s₄ ∧
        if s₄.isAt .keyword "else" then ∃ s₅, s₄.Passes .keyword "else" s₅ ∧
          ∃ q, Reads o (.expression n) s₅ [q] s' ∧ e = .ifElse c p q (s.spanTo s')
        else s' = s₄ ∧ e = .ifThen c p (s.spanTo s') := by
  refine ExactAt.startLocation_bind fun l hl => ExactAt.skip_bind fun s₁ hif => ?_
  refine ExactAt.bind (hexpr s₁) fun c s₂ _ => ?_
  refine ExactAt.unit_bind (skipThen_exact s₂) fun s₃ _ => ?_
  refine ExactAt.bind (hexpr s₃) fun p s₄ _ => ExactAt.isAt_bind ?_
  simp only [hif.spanTo_eq hl]
  cases helse : s₄.isAt .keyword "else" with
  | false =>
    rw [if_neg Bool.false_ne_true]
    refine ExactAt.spanFrom_bind ((ExactAt.pure _).congr fun e s' => ?_)
    rw [if_neg Bool.false_ne_true]
    constructor
    · rintro ⟨rfl, rfl⟩
      exact ⟨rfl, rfl⟩
    · rintro ⟨rfl, rfl⟩
      exact ⟨rfl, rfl⟩
  | true =>
    obtain ⟨l₄, _ | ⟨t, rest⟩⟩ := s₄
    · cases helse
    · rw [if_pos rfl]
      refine ExactAt.advance_bind ((ExactAt.bind (hexpr _) fun q s₅ _ => ExactAt.spanFrom_bind
        (ExactAt.pure (Node.ifElse c p q (some (s₅.spanFrom l))))).congr fun e s' => ?_)
      rw [if_pos rfl]
      constructor
      · rintro ⟨q, s₅, hq, rfl, rfl⟩
        exact ⟨_, ⟨helse⟩, q, hq, rfl⟩
      · rintro ⟨_, ⟨_⟩, q, hq, rfl⟩
        exact ⟨q, s', hq, rfl, rfl⟩

theorem functionWith_exact (s : Spot) :
    ExactAt o n s (functionWith o expr) fun e s' => ∃ s₁, s.Passes .keyword "lambda" s₁ ∧
      ∃ s₂ params s₃, s₁.Passes .punctuation "(" s₂ ∧
        Sequence o Spot.Names ")" "," true s₂ params s₃ ∧
      ∃ b, Reads o (.expression n) s₃ [b] s' ∧ e = .lambda params b (s.spanTo s') := by
  refine ExactAt.startLocation_bind fun l hl => ?_
  refine (ExactAt.skip_bind fun s₁ hword => ExactAt.bind (delimited_exact
    (variableName_exact (o := o) (n := n)) ?_ ?_ (by decide) s₁) fun params s₃ _ =>
    ExactAt.bind (hexpr s₃) fun b s₄ _ => ExactAt.spanFrom_bind
      (ExactAt.pure (Node.lambda params b (some (s₄.spanFrom l))))).congr fun e s' => ⟨?_, ?_⟩
  · rintro s x s' ⟨ht⟩
    rw [isAt_cons, Token.is, ht]
    rfl
  · rintro s x s' ⟨_⟩
    exact Nat.lt_succ_self _
  · rintro ⟨s₁, hword, params, s₃, ⟨s₂, hopen, hparams⟩, b, s₄, hb, rfl, rfl⟩
    exact ⟨s₁, hword, s₂, params, s₃, hopen, hparams, b, hb, by rw [hword.spanTo_eq hl]⟩
  · rintro ⟨s₁, hword, s₂, params, s₃, hopen, hparams, b, hb, rfl⟩
    exact ⟨s₁, hword, params, s₃, ⟨s₂, hopen, hparams⟩, b, s', hb, by rw [hword.spanTo_eq hl], rfl⟩

/-- A primary is chosen by the token it starts with. -/
theorem primaryWith_exact (s : Spot) :
    ExactAt o n s (primaryWith o expr) fun e s' => Reads o (.primary n) s [e] s' := by
  refine ExactAt.isAt_bind ?_
  split
  · next h => exact (groupWith_exact hexpr h).congr fun e s' => (reads_group_iff h).symm
  next hopen =>
  refine ExactAt.isAt_bind ?_
  split
  · next h => exact (blockWith_exact hexpr s).congr fun e s' => (reads_block_iff h).symm
  next hbrace =>
  refine ExactAt.isAt_bind ?_
  split
  · next h => exact (conditionalWith_exact hexpr s).congr fun e s' => (reads_conditional_iff h).symm
  next hif =>
  refine ExactAt.isAt_bind ?_
  split
  · next h => exact (boolean_exact (b := true) h).congr fun e s' => (reads_truth_iff h).symm
  next htrue =>
  refine ExactAt.isAt_bind ?_
  split
  · next h => exact (boolean_exact (b := false) h).congr fun e s' => (reads_truth_iff h).symm
  next hfalse =>
  refine ExactAt.isAt_bind ?_
  split
  · next h => exact (functionWith_exact hexpr s).congr fun e s' => (reads_function_iff h).symm
  next hlambda =>
  exact (leaf_exact s).congr fun e s' =>
    (reads_leaf_iff hopen hbrace hif htrue hfalse hlambda).symm

theorem atomWith_exact (s : Spot) :
    ExactAt o n s (atomWith o expr) fun e s' => Reads o (.atom n) s [e] s' := by
  refine (ExactAt.bind (primaryWith_exact hexpr s) fun first s₁ hfirst =>
    maybeCallWith_exact hexpr (hfirst.spanned trivial) s₁).congr
    fun e s' => ⟨?_, fun h => ?_⟩
  · rintro ⟨first, s₁, hfirst, hsuffix⟩
    exact .atom hfirst hsuffix
  · cases h with
    | atom hfirst hsuffix => exact ⟨_, _, hfirst, hsuffix⟩

end Atoms

end Parser
end LambdaReader
