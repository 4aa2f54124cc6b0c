import LambdaReader.Proofs.Reads.Laws
import LambdaReader.Proofs.Stream

/-!
# `Proofs.Reads.Exact` — a step of the parser ends exactly as a relation says

The contract of a step. It is pointwise: `ExactAt o n s m R` says that from every state at the place `s`
with `n` levels left, `m` can end exactly as `R` says. The judgement is closed under sequencing, so a
form of the grammar is run symbolically, one step of its `do` block after the other, and only the forms
below it contribute a relation.

A source may fail behind the tokens that are left. The parser then still gets to every place that is
before a token; it gets to the end only if nothing fails.
-/

namespace LambdaReader

open TokenSource Step Spot

/-- Behind the next token, if there is one. -/
def Spot.behind (s : Spot) : Spot :=
  match s.rest with
  | [] => s
  | t :: rest => ⟨some t, rest⟩

namespace Parser

variable {σ α β : Type} [TokenSource σ]

/-- The token taken last and the tokens that are left. -/
def spot (p : Parser σ) : Spot := ⟨p.last, p.tokens.ahead.toList ++ (drain p.tokens.source).1⟩

/-- Nothing that is still to come fails. -/
def Unfailing (p : Parser σ) : Prop := ∃ l, (drain p.tokens.source).2 = .done l

/-- From every state at a place with `n` levels left, `m` can end exactly as `R` says. -/
structure ExactAt (o : ParseOptions) (n : Nat) (s : Spot) (m : Parse σ α) (R : α → Spot → Prop) :
    Prop where
  /-- Where no token is left, none is left afterwards. -/
  ended {a : α} {s' : Spot} : R a s' → s.rest = [] → s'.rest = []
  sound {p p' : Parser σ} {a : α} : p.levels o = n → p.spot = s → m p = .ok a p' →
    R a p'.spot ∧ p'.depth = p.depth ∧ (p.Unfailing → p'.Unfailing)
  complete {p : Parser σ} {a : α} {s' : Spot} : p.levels o = n → p.spot = s → R a s' →
    (s'.rest = [] → p.Unfailing) → ∃ p', m p = .ok a p' ∧ p'.spot = s'

namespace ExactAt

variable {o : ParseOptions} {n : Nat} {s s' : Spot} {m m' : Parse σ α} {R R' : α → Spot → Prop}
  {f : α → Parse σ β} {S : α → Spot → β → Spot → Prop}

/-! ## Laws of the judgement -/

theorem congr (h : ExactAt o n s m R) (hR : ∀ a s', R a s' ↔ R' a s') : ExactAt o n s m R' where
  ended ha := h.ended ((hR _ _).mpr ha)
  sound hn hs hm := by
    obtain ⟨ha, hstate⟩ := h.sound hn hs hm
    exact ⟨(hR _ _).mp ha, hstate⟩
  complete hn hs ha := h.complete hn hs ((hR _ _).mpr ha)

/-- Only what a step does at the place with `n` levels left matters. -/
theorem of_run (h : ExactAt o n s m R)
    (hm : ∀ p : Parser σ, p.levels o = n → p.spot = s → m' p = m p) : ExactAt o n s m' R where
  ended := h.ended
  sound hn hs hrun := h.sound hn hs ((hm _ hn hs).symm.trans hrun)
  complete hn hs ha hend := by
    rw [hm _ hn hs]
    exact h.complete hn hs ha hend

protected theorem pure (a : α) : ExactAt (σ := σ) o n s (pure a) fun b s' => b = a ∧ s' = s where
  ended := by
    rintro b s' ⟨rfl, rfl⟩ hs
    exact hs
  sound := by
    intro p p' b _ hs hb
    cases (pure_apply a p).symm.trans hb
    exact ⟨⟨rfl, hs⟩, rfl, id⟩
  complete := by
    rintro p b s' _ hs ⟨rfl, rfl⟩ _
    exact ⟨p, pure_apply b p, hs⟩

theorem never (h : ∀ p a p', m p ≠ .ok a p') : ExactAt o n s m fun _ _ => False where
  ended := nofun
  sound _ _ hm := absurd hm (h _ _ _)
  complete _ _ hf := hf.elim

theorem throw (e : Failure) :
    ExactAt (σ := σ) (α := α) o n s (throw e) fun _ _ => False :=
  .never fun p a p' h => by rw [throw_apply] at h; cases h

/-- Relations are composed as steps are. -/
protected theorem bind (hm : ExactAt o n s m R)
    (hf : ∀ a s', R a s' → ExactAt o n s' (f a) (S a s')) :
    ExactAt o n s (m >>= f) fun b s'' => ∃ a s', R a s' ∧ S a s' b s'' where
  ended := by
    rintro b s'' ⟨a, s', ha, hb⟩ hs
    exact (hf a s' ha).ended hb (hm.ended ha hs)
  sound := by
    intro p p'' b hn hs hb
    obtain ⟨a, p', hma, hfa⟩ := bind_eq_ok hb
    obtain ⟨ha, hd', hu'⟩ := hm.sound hn hs hma
    -- What the first step ends in has as many levels left as before.
    have hn' : p'.levels o = n := by rw [← hn, levels, levels, hd']
    obtain ⟨hb, hd'', hu''⟩ := (hf a _ ha).sound hn' rfl hfa
    exact ⟨⟨a, _, ha, hb⟩, hd''.trans hd', fun hu => hu'' (hu' hu)⟩
  complete := by
    rintro p b s'' hn hs ⟨a, s', ha, hb⟩ hend
    -- The first step gets to the end only if the second one does.
    have hend' : s'.rest = [] → p.Unfailing := fun hs' => hend ((hf a s' ha).ended hb hs')
    obtain ⟨p', hma, rfl⟩ := hm.complete hn hs ha hend'
    obtain ⟨_, hd', hu'⟩ := hm.sound hn hs hma
    have hn' : p'.levels o = n := by rw [← hn, levels, levels, hd']
    obtain ⟨p'', hfa, hs''⟩ := (hf a _ ha).complete hn' rfl hb fun hs'' => hu' (hend hs'')
    exact ⟨p'', by rw [bind_of_ok hma, hfa], hs''⟩

/-- A first step that gives nothing but its place. -/
theorem unit_bind {x : Parse σ Unit} {f : Unit → Parse σ α} {P : Spot → Prop}
    {S : Spot → α → Spot → Prop} (hx : ExactAt o n s x fun _ s' => P s')
    (hf : ∀ s', P s' → ExactAt o n s' (f ()) (S s')) :
    ExactAt o n s (x >>= f) fun a s'' => ∃ s', P s' ∧ S s' a s'' :=
  (ExactAt.bind (S := fun _ s' => S s') hx fun _ s' => hf s').congr fun _ _ =>
    ⟨fun ⟨_, s', h⟩ => ⟨s', h⟩, fun ⟨s', h⟩ => ⟨(), s', h⟩⟩

/-- A first step with one result is run. -/
theorem step {x : Parse σ β} {g : β → Parse σ α} {b : β}
    (hx : ExactAt o n s x fun c s₁ => c = b ∧ s₁ = s') (h : ExactAt o n s' (g b) R) :
    ExactAt o n s (x >>= g) R := by
  refine (ExactAt.bind (S := fun _ _ => R) hx ?_).congr fun a s'' => ⟨?_, fun ha => ?_⟩
  · rintro c s₁ ⟨rfl, rfl⟩
    exact h
  · rintro ⟨_, _, _, ha⟩
    exact ha
  · exact ⟨b, s', ⟨rfl, rfl⟩, ha⟩

end ExactAt

/-! ## Single steps -/

theorem fail_ne_ok (cause : GrammarCause) (found : Option Token) (p p' : Parser σ) (a : α) :
    fail cause found p ≠ .ok a p' := by
  rw [fail, bind_of_ok (get_apply p)]
  exact nofun

theorem reject_ne_ok (cause : GrammarCause) (p p' : Parser σ) (a : α) :
    reject cause p ≠ .ok a p' := by
  intro h
  obtain ⟨found, q, _, hf⟩ := bind_eq_ok h
  exact fail_ne_ok _ _ _ _ _ hf

theorem exhausted_ne_ok (o : ParseOptions) (p p' : Parser σ) (a : α) :
    exhausted o p ≠ .ok a p' := by
  rw [exhausted, nested]
  cases hd : (descend o >>= fun _ => reject (α := α) (.tooDeep o.maxDepth)) p with
  | ok b q =>
    obtain ⟨_, _, _, hr⟩ := bind_eq_ok hd
    exact absurd hr (reject_ne_ok _ _ _ _)
  | error e q => exact nofun

namespace ExactAt

variable {o : ParseOptions} {n : Nat} {s : Spot}

theorem reject (cause : GrammarCause) :
    ExactAt (σ := σ) (α := α) o n s (Parser.reject cause) fun _ _ => False :=
  .never fun _ _ _ => reject_ne_ok _ _ _ _

theorem exhausted : ExactAt (σ := σ) (α := α) o n s (Parser.exhausted o) fun _ _ => False :=
  .never fun _ _ _ => exhausted_ne_ok _ _ _ _

/-- One level deeper there is one level less. -/
theorem nested {body : Parse σ α} {R : α → Spot → Prop} (h : ExactAt o n s body R) :
    ExactAt o (n + 1) s (Parser.nested o body) R := by
  -- There is a level left, so the parser goes down and runs the body there.
  have hdescend : ∀ p : Parser σ, p.levels o = n + 1 →
      descend o p = .ok () { p with depth := p.depth + 1 } := by
    intro p hn
    have hdepth : ¬ o.maxDepth < ((p.depth + 1 : Nat) : Int) := by
      unfold levels at hn
      omega
    rw [descend, bind_of_ok (modify_apply _ p), bind_of_ok (get_apply _), if_neg hdepth]
    rfl
  have hdeeper : ∀ p : Parser σ, p.levels o = n + 1 →
      levels o { p with depth := p.depth + 1 } = n := by
    intro p hn
    have hlevels : (o.maxDepth - p.depth).toNat = n + 1 := hn
    show (o.maxDepth - ((p.depth + 1 : Nat) : Int)).toNat = n
    omega
  refine ⟨h.ended, fun {p p' a} hn hs hm => ?_, fun {p a s'} hn hs ha hend => ?_⟩
  · rw [Parser.nested, bind_of_ok (hdescend p hn)] at hm
    cases hbody : body { p with depth := p.depth + 1 } with
    | error e q => rw [hbody] at hm; cases hm
    | ok b q =>
      rw [hbody] at hm
      cases hm
      obtain ⟨ha, hd', hu'⟩ := h.sound (hdeeper p hn) hs hbody
      have hdepth : q.depth - 1 = p.depth := by
        rw [hd']
        rfl
      exact ⟨ha, hdepth, hu'⟩
  · obtain ⟨q, hbody, hs'⟩ := h.complete (hdeeper p hn) hs ha hend
    rw [Parser.nested, bind_of_ok (hdescend p hn), hbody]
    exact ⟨q.ascend, rfl, hs'⟩

end ExactAt

section Steps

variable [LawfulTokenSource σ]

/-- Looking at the next token finds the first that is left, if any, and changes nothing else; it fails
where the source does. -/
theorem peek_cases (p : Parser σ) :
    (∃ p', peek p = .ok p.spot.rest.head? p' ∧ p'.tokens.ahead = p.spot.rest.head? ∧
      p'.spot = p.spot ∧ p'.depth = p.depth ∧ (p.Unfailing → p'.Unfailing)) ∨
    (∃ e p', peek p = .error e p') ∧ p.spot.rest = [] ∧ ¬ p.Unfailing := by
  obtain ⟨⟨source, ahead, journal⟩, last, depth⟩ := p
  cases ahead with
  | some t =>
    rw [peek, onTokens, Lookahead.peek_of_ahead rfl]
    exact .inl ⟨_, rfl, rfl, rfl, rfl, id⟩
  | none =>
    rw [peek, onTokens, Lookahead.peek_of_none, Unfailing, spot]
    cases hscan : scan source with
    | error e source' =>
      rw [drain_error hscan]
      refine .inr ⟨⟨_, _, rfl⟩, rfl, ?_⟩
      rintro ⟨l, hl⟩
      cases hl
    | ok found source' =>
      cases found with
      | some t =>
        rw [drain_some hscan]
        exact .inl ⟨_, rfl, rfl, rfl, rfl, id⟩
      | none =>
        -- A source stays at its end, so nothing comes about behind it.
        have hend := drain_none (LawfulTokenSource.scan_none hscan).2
        rw [drain_none hscan]
        refine .inl ⟨_, rfl, rfl, ?_, rfl, fun _ => ⟨_, by rw [hend]⟩⟩
        unfold spot
        dsimp only
        rw [hend]

/-- Taking the next token takes the first that is left, if any; it fails where the source does. -/
theorem advance_cases (p : Parser σ) :
    (∃ p', advance p = .ok p.spot.rest.head? p' ∧ p'.spot = p.spot.behind ∧ p'.depth = p.depth ∧
      (p.Unfailing → p'.Unfailing)) ∨
    (∃ e p', advance p = .error e p') ∧ p.spot.rest = [] ∧ ¬ p.Unfailing := by
  rw [advance_eq_peek_bind, bind_apply]
  rcases peek_cases p with ⟨q, hq, hahead, hspot, hd, hu⟩ | ⟨⟨e, q, hq⟩, hfails⟩
  · rw [hq, behind]
    cases hrest : p.spot.rest with
    | nil => exact .inl ⟨q, rfl, hspot, hd, hu⟩
    | cons t rest =>
      rw [hrest] at hahead
      have hleft : (drain q.tokens.source).1 = rest := by
        have hq' : q.spot.rest = t :: rest := by rw [hspot, hrest]
        unfold spot at hq'
        rw [hahead] at hq'
        exact (List.cons.inj hq').2
      refine .inl ⟨_, advance_of_ahead hahead, ?_, hd, hu⟩
      rw [← hleft]
      rfl
  · rw [hq]
    exact .inr ⟨⟨e, q, rfl⟩, hfails⟩

namespace ExactAt

variable {o : ParseOptions} {n : Nat} {s s' : Spot} {R : α → Spot → Prop} {S : β → Spot → Prop}
  {t : Token} {kind : TokenKind} {text : String}

theorem peek : ExactAt (σ := σ) o n s Parser.peek fun found s' => found = s.rest.head? ∧ s' = s where
  ended := by
    rintro found s' ⟨rfl, rfl⟩ hs
    exact hs
  sound := by
    rintro p p' found _ rfl hrun
    rcases peek_cases p with ⟨q, hq, _, hspot, hd, hu⟩ | ⟨⟨e, q, hq⟩, _⟩
    · cases hq.symm.trans hrun
      exact ⟨⟨rfl, hspot⟩, hd, hu⟩
    · cases hq.symm.trans hrun
  complete := by
    rintro p found s' _ rfl ⟨rfl, rfl⟩ hend
    rcases peek_cases p with ⟨q, hq, _, hspot, _⟩ | ⟨_, hrest, hu⟩
    · exact ⟨q, hq, hspot⟩
    · exact absurd (hend hrest) hu

theorem advance :
    ExactAt (σ := σ) o n s Parser.advance fun found s' => found = s.rest.head? ∧ s' = s.behind where
  ended := by
    rintro found s' ⟨rfl, rfl⟩ hs
    rw [behind, hs]
    exact hs
  sound := by
    rintro p p' found _ rfl hrun
    rcases advance_cases p with ⟨q, hq, hspot, hd, hu⟩ | ⟨⟨e, q, hq⟩, _⟩
    · cases hq.symm.trans hrun
      exact ⟨⟨rfl, hspot⟩, hd, hu⟩
    · cases hq.symm.trans hrun
  complete := by
    rintro p found s' _ rfl ⟨rfl, rfl⟩ hend
    rcases advance_cases p with ⟨q, hq, hspot, _⟩ | ⟨_, hrest, hu⟩
    · exact ⟨q, hq, hspot⟩
    · have hbehind : p.spot.behind.rest = [] := by
        rw [behind, hrest]
        exact hrest
      exact absurd (hend hbehind) hu

theorem peek_bind {f : Option Token → Parse σ α} (h : ExactAt o n s (f s.rest.head?) R) :
    ExactAt o n s (Parser.peek >>= f) R :=
  .step peek h

theorem isAt_bind {f : Bool → Parse σ α} (h : ExactAt o n s (f (s.isAt kind text)) R) :
    ExactAt o n s (Parser.isAt kind text >>= f) R := by
  rw [Parser.isAt, bind_assoc]
  refine peek_bind ?_
  rw [pure_bind]
  exact h

theorem atEnd_bind {f : Bool → Parse σ α} (h : ExactAt o n s (f s.rest.isEmpty) R) :
    ExactAt o n s (atEnd >>= f) R := by
  rw [atEnd_eq, bind_assoc]
  refine peek_bind ?_
  rw [pure_bind]
  cases hs : s.rest <;> rw [hs] at h <;> exact h

theorem advance_bind {l : Option Token} {rest : List Token} {f : Option Token → Parse σ α}
    (h : ExactAt o n ⟨some t, rest⟩ (f (some t)) R) :
    ExactAt o n ⟨l, t :: rest⟩ (Parser.advance >>= f) R :=
  .step advance h

theorem advance_bind_nil {l : Option Token} {f : Option Token → Parse σ α}
    (h : ExactAt o n ⟨l, []⟩ (f none) R) : ExactAt o n ⟨l, []⟩ (Parser.advance >>= f) R :=
  .step advance h

omit [LawfulTokenSource σ] in
theorem spanFrom_bind {l : Location} {f : Span → Parse σ α} (h : ExactAt o n s (f (s.spanFrom l)) R) :
    ExactAt o n s (Parser.spanFrom l >>= f) R := by
  refine h.of_run fun p _ hs => ?_
  rw [← hs]
  rfl

omit [LawfulTokenSource σ] in
/-- A step that depends on the state in its run only. -/
theorem get_bind {f : Parser σ → Parse σ α} (hended : ∀ a s', R a s' → s.rest = [] → s'.rest = [])
    (h : ∀ p : Parser σ, p.spot = s → ExactAt o n s (f p) R) :
    ExactAt o n s ((get : Parse σ (Parser σ)) >>= f) R where
  ended := hended _ _
  sound {p _ _} hn hs hm := (h p hs).sound hn hs hm
  complete {p _ _} hn hs ha hend := (h p hs).complete hn hs ha hend

omit [LawfulTokenSource σ] in
theorem note_bind {x : Note} {f : Unit → Parse σ α} (h : ExactAt o n s (f ()) R) :
    ExactAt o n s (onTokens (Lookahead.note x) >>= f) R where
  ended := h.ended
  sound {p _ _} hn hs hm := h.sound (p := { p with tokens := { p.tokens with
    journal := p.tokens.journal.push x } }) hn hs hm
  complete {p _ _} hn hs ha hend := h.complete (p := { p with tokens := { p.tokens with
    journal := p.tokens.journal.push x } }) hn hs ha hend

end ExactAt

namespace ExactAt

variable {o : ParseOptions} {n : Nat} {s : Spot} {kind : TokenKind} {text : String}

theorem skip : ExactAt (σ := σ) o n s (Parser.skip kind text) fun _ s' => s.Passes kind text s' := by
  unfold Parser.skip
  refine isAt_bind ?_
  obtain ⟨l, _ | ⟨t, rest⟩⟩ := s
  · exact (reject _).congr fun _ _ => ⟨False.elim, nofun⟩
  · cases ht : t.is kind text with
    | true =>
      rw [isAt_cons, ht, if_pos rfl]
      refine advance_bind ((ExactAt.pure ()).congr fun _ s' => ⟨?_, ?_⟩)
      · rintro ⟨_, rfl⟩
        exact ⟨ht⟩
      · rintro ⟨_⟩
        exact ⟨rfl, rfl⟩
    | false =>
      rw [isAt_cons, ht, if_neg Bool.false_ne_true]
      refine (reject _).congr fun _ s' => ⟨False.elim, ?_⟩
      rintro ⟨ht'⟩
      rw [ht] at ht'
      cases ht'

theorem skip_bind {f : Unit → Parse σ α} {S : Spot → α → Spot → Prop}
    (hf : ∀ s', s.Passes kind text s' → ExactAt o n s' (f ()) (S s')) :
    ExactAt o n s (Parser.skip kind text >>= f) fun a s'' =>
      ∃ s', s.Passes kind text s' ∧ S s' a s'' :=
  unit_bind skip hf

theorem startLocation_bind {f : Location → Parse σ α}
    (h : ∀ l, (∀ t, s.rest.head? = some t → t.location = l) → ExactAt o n s (f l) R) :
    ExactAt o n s (Parser.startLocation >>= f) R := by
  rw [Parser.startLocation, bind_assoc]
  refine peek_bind ?_
  cases hs : s.rest.head? with
  | none =>
    have hany : ∀ l, ExactAt o n s (f l) R := fun l => h l fun t ht => by rw [hs] at ht; cases ht
    dsimp only
    rw [bind_assoc]
    refine get_bind (fun a s' => (hany (.start "")).ended) fun p _ => ?_
    rw [pure_bind]
    exact hany _
  | some t =>
    dsimp only
    rw [pure_bind]
    exact h _ fun u hu => by rw [hs] at hu; cases hu; rfl

end ExactAt

end Steps
end Parser
end LambdaReader
