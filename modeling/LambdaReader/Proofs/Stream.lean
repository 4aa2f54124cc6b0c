import LambdaReader.Proofs.Scan
import LambdaReader.Source

/-!
# `Proofs.Stream` — all that a token source has to give

A token source is lawful if every token brings it nearer to its end and leaves it just behind that
token, and if it stays at its end. Scanners and records are lawful. What a lawful source gives is one
list of tokens and one ending, `TokenSource.drain`; the laws say how `drain` unrolls by one scan, and
`drain_induction` is induction along it.

The last section says what `drain` is for a scanner: the result of `Source.tokens`, with lexemes for
tokens, and ending where the text ends.
-/

namespace LambdaReader

open TokenSource

/-- Every token brings the source nearer to its end and leaves it behind the token; it stays at its
end. -/
class LawfulTokenSource (σ : Type) [TokenSource σ] : Prop where
  scan_some {s s' : σ} {t : Token} : scan s = .ok (some t) s' → bound s' < bound s ∧ location s' = t.stop
  scan_none {s s' : σ} : scan s = .ok none s' → bound s' ≤ bound s ∧ scan s' = .ok none s'

/-! ## Scanners and records are lawful -/

namespace Scanner

variable {s s' : Scanner} {t : Token}

theorem Takes.location (h : Takes s t s') : s'.location = t.stop := by
  obtain ⟨run, _, _, ht, rfl⟩ := h
  rw [ht, after_location, Token.stop, String.toList_ofList]

theorem Takes.length_lt (h : Takes s t s') : s'.cursor.rest.length < s.cursor.rest.length := by
  obtain ⟨run, hprefix, hd, _, rfl⟩ := h
  have hpos : 0 < run.length := List.length_pos_iff.mpr hd.ne_nil
  have hle : run.length ≤ s.cursor.rest.length := hprefix.length_le
  rw [after_rest, List.length_drop]
  omega

theorem length_after_le (s : Scanner) (run : List Char) :
    (s.after run).cursor.rest.length ≤ s.cursor.rest.length := by
  rw [after_rest, List.length_drop]
  omega

instance : LawfulTokenSource Scanner where
  scan_some h :=
    have taken := readNext_some h
    ⟨Nat.lt_of_lt_of_le taken.length_lt (length_after_le _ _), taken.location⟩
  scan_none {s s'} h := by
    obtain ⟨hs, hnil⟩ := readNext_none h
    refine ⟨?_, readNext_of_nil hnil⟩
    show s'.cursor.rest.length ≤ s.cursor.rest.length
    rw [hnil]
    exact Nat.zero_le _

end Scanner

namespace Replay

theorem scan_cons (t : Token) (ts : List Token) (ending : Ending) (l : Location) :
    scan ⟨t :: ts, ending, l⟩ = .ok (some t) ⟨ts, ending, t.stop⟩ := rfl

theorem scan_done (l l' : Location) : scan ⟨[], .done l, l'⟩ = .ok none ⟨[], .done l, l⟩ := rfl

theorem scan_failed (f : Failure) (l : Location) :
    scan ⟨[], .failed f, l⟩ = .error f ⟨[], .failed f, l⟩ := rfl

instance : LawfulTokenSource Replay where
  scan_some {s s' t} h := by
    obtain ⟨ts, ending, l⟩ := s
    cases ts with
    | cons u us =>
      cases (scan_cons u us ending l).symm.trans h
      exact ⟨Nat.lt_succ_self _, rfl⟩
    | nil =>
      cases ending with
      | done e => cases (scan_done e l).symm.trans h
      | failed f => cases (scan_failed f l).symm.trans h
  scan_none {s s'} h := by
    obtain ⟨ts, ending, l⟩ := s
    cases ts with
    | cons u us => cases (scan_cons u us ending l).symm.trans h
    | nil =>
      cases ending with
      | done e => cases (scan_done e l).symm.trans h; exact ⟨Nat.le_refl _, rfl⟩
      | failed f => cases (scan_failed f l).symm.trans h

end Replay

/-! ## Unrolling `drain` -/

namespace TokenSource

variable {σ : Type} [TokenSource σ]

theorem collect_succ (n : Nat) (s : σ) :
    collect (n + 1) s = match scan s with
      | .ok (some t) s' => (t :: (collect n s').1, (collect n s').2)
      | .ok none s' => ([], .done (location s'))
      | .error f _ => ([], .failed f) := rfl

variable [LawfulTokenSource σ]

/-- More rounds than tokens give no more than as many. -/
theorem collect_eq_drain {n : Nat} {s : σ} (h : bound s < n) : collect n s = drain s := by
  have key : ∀ n m (s : σ), bound s < n → bound s < m → collect n s = collect m s := by
    intro n
    induction n with
    | zero => intro m s h _; exact absurd h (Nat.not_lt_zero _)
    | succ n ih =>
      intro m s hn hm
      obtain ⟨m, rfl⟩ := Nat.exists_eq_succ_of_ne_zero (Nat.ne_zero_of_lt hm)
      rw [collect_succ, collect_succ]
      cases hscan : scan s with
      | error f s' => rfl
      | ok found s' =>
        cases found with
        | none => rfl
        | some t =>
          have hlt := (LawfulTokenSource.scan_some hscan).1
          dsimp only
          rw [ih m s' (by omega) (by omega)]
  exact key n _ s h (Nat.lt_succ_self _)

variable {s s' : σ}

theorem drain_some {t : Token} (h : scan s = .ok (some t) s') :
    drain s = (t :: (drain s').1, (drain s').2) := by
  have hlt := (LawfulTokenSource.scan_some h).1
  rw [drain, collect_succ, h]
  dsimp only
  rw [collect_eq_drain hlt]

omit [LawfulTokenSource σ] in
theorem drain_none (h : scan s = .ok none s') : drain s = ([], .done (location s')) := by
  rw [drain, collect_succ, h]

omit [LawfulTokenSource σ] in
theorem drain_error {f : Failure} (h : scan s = .error f s') : drain s = ([], .failed f) := by
  rw [drain, collect_succ, h]

/-- What holds at every ending, and before a token if it holds behind it, holds of every source. -/
theorem drain_induction {P : σ → List Token × Ending → Prop}
    (token : ∀ {s s' t}, scan s = .ok (some t) s' → P s' (drain s') →
      P s (t :: (drain s').1, (drain s').2))
    (done : ∀ {s s'}, scan s = .ok none s' → P s ([], .done (location s')))
    (failed : ∀ {s s' f}, scan s = .error f s' → P s ([], .failed f)) (s : σ) : P s (drain s) := by
  induction hn : bound s using Nat.strongRecOn generalizing s with
  | ind n ih =>
    cases hscan : scan s with
    | error f s' => rw [drain_error hscan]; exact failed hscan
    | ok found s' =>
      cases found with
      | none => rw [drain_none hscan]; exact done hscan
      | some t =>
        have hlt := (LawfulTokenSource.scan_some hscan).1
        rw [drain_some hscan]
        exact token hscan (ih (bound s') (hn ▸ hlt) s' rfl)

/-- There are no more tokens than the bound says. -/
theorem length_drain_le (s : σ) : (drain s).1.length ≤ bound s := by
  refine drain_induction (P := fun s d => d.1.length ≤ bound s) ?_ ?_ ?_ s
  · intro s s' t hscan ih
    have := (LawfulTokenSource.scan_some hscan).1
    simp only [List.length_cons]
    omega
  · intro s s' _; exact Nat.zero_le _
  · intro s s' f _; exact Nat.zero_le _

end TokenSource

/-! ## What a scanner has to give -/

/-- Where a scanner ends up if nothing stops it. -/
def Scanner.finish (s : Scanner) : Location := s.location.advance s.cursor.rest

theorem Scanner.finish_after {s : Scanner} {run : List Char} (h : run <+: s.cursor.rest) :
    (s.after run).finish = s.finish := by
  obtain ⟨rest, hrest⟩ := h
  rw [finish, finish, after_location, after_rest, ← hrest, List.drop_left, Location.advance_append]

/-- The token is a lexeme of its kind and has the value of that lexeme. -/
def Token.IsLexeme (t : Token) : Prop := Lexeme.Denotes t.kind t.lexeme.toList t.value

/-- Scanned numerals stand for numbers. -/
theorem Token.IsLexeme.number?_isSome {t : Token} (h : t.IsLexeme) (hk : t.kind = .number) :
    t.number?.isSome = true := by
  rw [Token.IsLexeme, hk] at h
  unfold Token.number?
  generalize t.value = v at h
  cases h
  rfl

theorem Token.IsLexeme.number?_ne_none {t : Token} (h : t.IsLexeme) (hk : t.kind = .number) :
    t.number? ≠ none :=
  Option.isSome_iff_ne_none.mp (h.number?_isSome hk)

theorem Scanner.isLexeme_of_takes {s s' : Scanner} {t : Token} (h : s.Takes t s') : t.IsLexeme := by
  obtain ⟨run, _, hd, ht, _⟩ := h
  have hrun : t.lexeme.toList = run := by rw [ht, String.toList_ofList]
  rw [Token.IsLexeme, hrun]
  exact hd

/-- Scanned tokens are lexemes. -/
theorem Scanner.isLexeme_of_mem_drain (s : Scanner) : ∀ t ∈ (drain s).1, t.IsLexeme := by
  refine drain_induction (P := fun _ d => ∀ t ∈ d.1, t.IsLexeme) ?_ ?_ ?_ s
  · intro s s' t hscan ih u hu
    rcases List.mem_cons.mp hu with rfl | hu
    · exact isLexeme_of_takes (readNext_some hscan)
    · exact ih u hu
  · intro s s' _ t ht; cases ht
  · intro s s' f _ t ht; cases ht

/-- A scan that is not stopped ends where the text ends. -/
theorem Scanner.drain_done (s : Scanner) : ∀ l, (drain s).2 = .done l → l = s.finish := by
  refine drain_induction (P := fun s d => ∀ l, d.2 = .done l → l = s.finish) ?_ ?_ ?_ s
  · intro s s' t hscan ih l hl
    obtain ⟨run, hrun, _, _, hs'⟩ := readNext_some hscan
    rw [ih l hl, hs', finish_after hrun, finish_after (triviaRun_isPrefix _ _)]
  · intro s s' hscan l hl
    obtain ⟨hs', hnil⟩ := readNext_none hscan
    rw [← finish_after (triviaRun_isPrefix false s.cursor.rest), ← hs', finish, hnil]
    exact (Ending.done.inj hl).symm
  · intro s s' f _ l hl; cases hl

/-- A scan is stopped for a lexical cause only. -/
theorem Scanner.drain_failed (s : Scanner) :
    ∀ e, (drain s).2 = .failed e → ∃ cause l, e = .lexical cause l := by
  refine drain_induction (P := fun _ d => ∀ e, d.2 = .failed e → ∃ cause l, e = .lexical cause l)
    ?_ ?_ ?_ s
  · intro s s' t _ ih; exact ih
  · intro s s' _ e he; cases he
  · intro s s' f hscan e he
    cases he
    obtain ⟨cause, l, hcause, _⟩ := readNext_error hscan
    exact ⟨cause, l, hcause⟩

/-! ## Looking at the next token -/

namespace Lookahead

open Step

variable {σ : Type} [TokenSource σ]

theorem fetch_apply (l : Lookahead σ) :
    fetch l = match scan l.source with
      | .ok (some t) s => .ok (some t) ⟨s, l.ahead, l.journal.push (.scanned t)⟩
      | .ok none s => .ok none ⟨s, l.ahead, l.journal⟩
      | .error e s => .error e ⟨s, l.ahead, l.journal⟩ := by
  rw [fetch, bind_apply, onSource]
  cases scan l.source with
  | error e s => rfl
  | ok found s => cases found <;> rfl

theorem peek_of_ahead {l : Lookahead σ} {t : Token} (h : l.ahead = some t) :
    peek l = .ok (some t) l := by
  rw [peek, bind_of_ok (get_apply l), h]
  rfl

theorem peek_of_none (s : σ) (j : Array Note) :
    peek ⟨s, none, j⟩ = match scan s with
      | .ok (some t) s' => .ok (some t) ⟨s', some t, j.push (.scanned t)⟩
      | .ok none s' => .ok none ⟨s', none, j⟩
      | .error e s' => .error e ⟨s', none, j⟩ := by
  rw [peek, bind_of_ok (get_apply _)]
  dsimp only
  rw [bind_apply, fetch_apply]
  dsimp only
  cases scan s with
  | error e s' => rfl
  | ok found s' => cases found <;> rfl

theorem next_of_ahead {l : Lookahead σ} {t : Token} (h : l.ahead = some t) :
    next l = .ok (some t) l.forget := by
  rw [next, bind_of_ok (get_apply l), h]
  rfl

theorem next_of_none (s : σ) (j : Array Note) :
    next ⟨s, none, j⟩ = match scan s with
      | .ok (some t) s' => .ok (some t) ⟨s', none, j.push (.scanned t)⟩
      | .ok none s' => .ok none ⟨s', none, j⟩
      | .error e s' => .error e ⟨s', none, j⟩ := by
  rw [next, bind_of_ok (get_apply _)]
  exact fetch_apply _

omit [TokenSource σ] in
theorem forget_eq_self {l : Lookahead σ} (h : l.ahead = none) : l.forget = l := by
  rw [forget, ← h]

/-- To take the next token is to look at it and to let go of it. -/
theorem next_eq_peek (l : Lookahead σ) : next l = match peek l with
    | .ok found l' => .ok found l'.forget
    | .error e l' => .error e l' := by
  obtain ⟨s, ahead, j⟩ := l
  cases ahead with
  | some t => rw [next_of_ahead rfl, peek_of_ahead rfl]
  | none =>
    rw [next_of_none, peek_of_none]
    cases scan s with
    | error e s' => rfl
    | ok found s' => cases found <;> rfl

/-- To look at a token that is held back changes nothing, and otherwise one is scanned, if there is one. -/
theorem cases_of_peek {l l' : Lookahead σ} {found : Option Token} (h : peek l = .ok found l') :
    (∃ t, l.ahead = some t ∧ found = some t ∧ l' = l) ∨
    (∃ t s, l.ahead = none ∧ scan l.source = .ok (some t) s ∧ found = some t ∧
      l' = ⟨s, some t, l.journal.push (.scanned t)⟩) ∨
    ∃ s, l.ahead = none ∧ scan l.source = .ok none s ∧ found = none ∧ l' = ⟨s, none, l.journal⟩ := by
  obtain ⟨s, ahead, j⟩ := l
  cases ahead with
  | some t =>
    rw [peek_of_ahead rfl] at h
    cases h
    exact .inl ⟨t, rfl, rfl, rfl⟩
  | none =>
    rw [peek_of_none] at h
    cases hscan : scan s with
    | error e s' => rw [hscan] at h; cases h
    | ok found' s' =>
      rw [hscan] at h
      cases found' with
      | some t => cases h; exact .inr (.inl ⟨t, s', rfl, rfl, rfl, rfl⟩)
      | none => cases h; exact .inr (.inr ⟨s', rfl, rfl, rfl, rfl⟩)

/-- The token looked at is held back. -/
theorem ahead_of_peek {l l' : Lookahead σ} {found : Option Token} (h : peek l = .ok found l') :
    l'.ahead = found := by
  obtain ⟨t, hahead, rfl, rfl⟩ | ⟨t, s, _, _, rfl, rfl⟩ | ⟨s, _, _, rfl, rfl⟩ := cases_of_peek h
  · exact hahead
  · rfl
  · rfl

/-- To look again is to see the same. -/
theorem peek_of_peek [LawfulTokenSource σ] {l l' : Lookahead σ} {found : Option Token}
    (h : peek l = .ok found l') : peek l' = .ok found l' := by
  obtain ⟨t, hahead, rfl, rfl⟩ | ⟨t, s, _, _, rfl, rfl⟩ | ⟨s, _, hscan, rfl, rfl⟩ := cases_of_peek h
  · exact h
  · exact peek_of_ahead rfl
  · rw [peek_of_none, (LawfulTokenSource.scan_none hscan).2]

/-- Several tokens are taken by looking at each before it is taken. -/
theorem take_succ (n : Nat) (l : Lookahead σ) : take (n + 1) l = match peek l with
    | .ok none l' => .ok [] l'
    | .ok (some t) l' =>
      match take n l'.forget with
      | .ok ts l'' => .ok (t :: ts) l''
      | .error e l'' => .error e l''
    | .error e l' => .error e l' := by
  rw [take, atEnd, bind_apply, bind_apply]
  cases hpeek : peek l with
  | error e l' => rfl
  | ok found l' =>
    cases found with
    | none => rfl
    | some t =>
      simp only [pure_apply, Option.isNone_some, Bool.false_eq_true, if_false]
      rw [bind_of_ok (next_of_ahead (ahead_of_peek hpeek))]
      dsimp only
      rw [bind_apply]
      cases take n l'.forget <;> rfl

/-- Several tokens at once are what the source has to give in as many rounds. -/
theorem take_eq_collect (n : Nat) (s : σ) (j : Array Note) :
    ∃ l, take n ⟨s, none, j⟩ = match (collect n s).2 with
      | .done _ => .ok (collect n s).1 l
      | .failed f => .error f l := by
  induction n generalizing s j with
  | zero => exact ⟨_, rfl⟩
  | succ n ih =>
    rw [take_succ, peek_of_none, collect_succ]
    cases hscan : scan s with
    | error e s' => exact ⟨_, rfl⟩
    | ok found s' =>
      cases found with
      | none => exact ⟨_, rfl⟩
      | some t =>
        obtain ⟨l, hl⟩ := ih s' (j.push (.scanned t))
        refine ⟨l, ?_⟩
        dsimp only [forget]
        rw [hl]
        cases (collect n s').2 <;> rfl

end Lookahead

/-- To be at the end is to see no token. -/
theorem Parser.atEnd_eq {σ : Type} [TokenSource σ] :
    (atEnd : Parse σ Bool) = peek >>= fun found => pure found.isNone := by
  funext p
  rw [atEnd, Parser.peek, Step.bind_apply, onTokens, onTokens, Lookahead.atEnd, Step.bind_apply]
  cases Lookahead.peek p.tokens <;> rfl

/-- The parser looks at the next token through its tokens. -/
theorem Parser.lookahead_peek {σ : Type} [TokenSource σ] {p q : Parser σ} {found : Option Token}
    (h : peek p = .ok found q) :
    ∃ ts, Lookahead.peek p.tokens = .ok found ts ∧ q = { p with tokens := ts } := by
  unfold Parser.peek onTokens at h
  cases hpeek : Lookahead.peek p.tokens with
  | error e ts => rw [hpeek] at h; cases h
  | ok found' ts => rw [hpeek] at h; cases h; exact ⟨ts, rfl, rfl⟩

/-- A token that was looked at is taken without a scan. -/
theorem Parser.advance_of_ahead {σ : Type} [TokenSource σ] {p : Parser σ} {t : Token}
    (h : p.tokens.ahead = some t) :
    advance p = .ok (some t) { p with tokens := p.tokens.forget, last := some t } := by
  rw [advance, Step.bind_apply, onTokens, Lookahead.next_of_ahead h]
  rfl

/-- To take the next token is to look at it first. -/
theorem Parser.advance_eq_peek_bind {σ : Type} [TokenSource σ] :
    (advance : Parse σ (Option Token)) = peek >>= fun found =>
      match found with
      | some _ => advance
      | none => pure none := by
  funext ⟨⟨r, ahead, j⟩, last, depth⟩
  cases ahead with
  | some t => rw [Step.bind_apply, Parser.peek, onTokens, Lookahead.peek_of_ahead rfl]
  | none =>
    rw [Step.bind_apply, Parser.peek, onTokens, Lookahead.peek_of_none, advance, Step.bind_apply,
      onTokens, Lookahead.next_of_none]
    cases scan r with
    | error e r' => rfl
    | ok found r' => cases found <;> rfl

/-- The tokens of a source are what its scanner has to give, unless it is stopped. -/
theorem Source.tokens_eq (s : Source) :
    s.tokens = match (drain s.scanner).2 with
      | .done _ => .ok (drain s.scanner).1
      | .failed f => .error f := by
  obtain ⟨l, hl⟩ := Lookahead.take_eq_collect (bound s.scanner + 1) s.scanner #[]
  rw [Source.tokens, Lookahead.toList, Step.bind_of_ok (Step.get_apply _)]
  rw [show Lookahead.take ((Lookahead.ofSource s.scanner).bound + 1)
    (Lookahead.ofSource s.scanner) = _ from hl]
  cases hd : (drain s.scanner).2 <;> rw [drain] at hd ⊢ <;> rw [hd]

/-- The failure of a source that cannot be read. Failures can be compared, which trees cannot. -/
def Source.failure? (s : Source) (o : ParseOptions) : Option Failure :=
  match s.parse o with
  | .ok _ => none
  | .error e => some e

theorem Source.parse_of_failure? {s : Source} {o : ParseOptions} {e : Failure} (h : s.failure? o = some e) :
    s.parse o = .error e := by
  unfold Source.failure? at h
  cases hparse : s.parse o with
  | ok n => rw [hparse] at h; cases h
  | error e' => rw [hparse] at h; exact congrArg _ (Option.some.inj h)

/-- A source that can be scanned gives all its tokens and does not fail. -/
theorem Source.drain_of_tokens {s : Source} {ts : List Token} (hts : s.tokens = .ok ts) :
    (drain s.scanner).1 = ts ∧ ∃ l, (drain s.scanner).2 = .done l := by
  rw [Source.tokens_eq] at hts
  cases hd : (drain s.scanner).2 with
  | failed f => rw [hd] at hts; cases hts
  | done l => rw [hd] at hts; exact ⟨Except.ok.inj hts, l, rfl⟩

theorem Source.failed_of_tokens {s : Source} {e : Failure} (h : s.tokens = .error e) :
    (drain s.scanner).2 = .failed e := by
  rw [Source.tokens_eq] at h
  cases hd : (drain s.scanner).2 with
  | failed f => rw [hd] at h; rw [Except.error.inj h]
  | done l => rw [hd] at h; cases h

end LambdaReader
