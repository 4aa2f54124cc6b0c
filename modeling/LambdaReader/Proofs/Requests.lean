import LambdaReader.Proofs.Stream

/-!
# `Proofs.Requests` — the token held back is never seen

Whoever uses a lookahead asks it for a token, for the end, or for several tokens at once. Whatever has
been asked before, the answers are those of a cursor on a fixed list of tokens: looking does not move it,
taking moves it over as many tokens as are given, and at the end of the list there is either the end of
the text for ever or a failure. Which tokens are scanned already, and whether one is held back, cannot be
told from the answers.

`Lookahead.Shows` relates a lookahead to a place on such a `Tape`; `ask_agrees` is the step and
`answers_eq` the run.

## Main result
- `Source.answers_to_requests`: the answers to any requests, up to the first failure.
-/

namespace LambdaReader

open TokenSource

/-! ## Requests -/

/-- What a lookahead can be asked for. -/
inductive Request where
  | peek
  | next
  | atEnd
  /-- The next `n` tokens, one after the other. -/
  | take (n : Nat)
  | toList

inductive Answer where
  | token (found : Option Token)
  | flag (holds : Bool)
  | tokens (ts : List Token)

namespace Lookahead

variable {σ : Type} [TokenSource σ]

def ask : Request → EStateM Failure (Lookahead σ) Answer
  | .peek => do return .token (← peek)
  | .next => do return .token (← next)
  | .atEnd => do return .flag (← atEnd)
  | .take n => do return .tokens (← take n)
  | .toList => do return .tokens (← toList)

/-- The answers to requests made one after the other, up to the first failure. -/
def answers : List Request → Lookahead σ → List (Except Failure Answer)
  | [], _ => []
  | r :: rs, l =>
    match ask r l with
    | .ok a l' => .ok a :: answers rs l'
    | .error e _ => [.error e]

end Lookahead

/-! ## Tapes -/

/-- Tokens in a row, and the failure behind them unless they just end. -/
structure Tape where
  tokens : List Token
  failure : Option Failure

namespace Tape

/-- What stands at a place: a token, or behind all of them no token or the failure. -/
def entry (d : Tape) (i : Nat) : Except Failure (Option Token) :=
  match d.tokens[i]?, d.failure with
  | some t, _ => .ok (some t)
  | none, none => .ok none
  | none, some e => .error e

/-- At most `n` tokens from a place on, and the place behind them. It fails if there are too few and a
failure behind them. -/
def stretch (d : Tape) (n i : Nat) : Except Failure (List Token × Nat) :=
  let ts := (d.tokens.drop i).take n
  match d.failure with
  | some e => if ts.length < n then .error e else .ok (ts, i + ts.length)
  | none => .ok (ts, i + ts.length)

/-- The answer at a place, and the place after it. -/
def answer (d : Tape) (i : Nat) : Request → Except Failure (Answer × Nat)
  | .peek => (d.entry i).map fun found => (.token found, i)
  | .next => (d.entry i).map fun found => (.token found, if found.isSome then i + 1 else i)
  | .atEnd => (d.entry i).map fun found => (.flag found.isNone, i)
  | .take n => (d.stretch n i).map fun (ts, j) => (.tokens ts, j)
  | .toList =>
    match d.failure with
    | some e => .error e
    | none => .ok (.tokens (d.tokens.drop i), d.tokens.length)

/-- The answers to requests made one after the other from a place on, up to the first failure. -/
def answers (d : Tape) : Nat → List Request → List (Except Failure Answer)
  | _, [] => []
  | i, r :: rs =>
    match d.answer i r with
    | .ok (a, j) => .ok a :: d.answers j rs
    | .error e => [.error e]

variable {d : Tape} {i : Nat}

theorem entry_of_drop {t : Token} {ts : List Token} (h : d.tokens.drop i = t :: ts) :
    d.entry i = .ok (some t) ∧ d.tokens.drop (i + 1) = ts := by
  have hat : d.tokens[i]? = some t := by
    rw [← List.head?_drop, h, List.head?_cons]
  refine ⟨by rw [entry, hat], ?_⟩
  rw [← List.tail_drop, h, List.tail_cons]

theorem entry_of_drop_nil (h : d.tokens.drop i = []) :
    d.entry i = match d.failure with
      | none => .ok none
      | some e => .error e := by
  rw [entry, List.getElem?_eq_none (List.drop_eq_nil_iff.mp h)]
  cases d.failure <;> rfl

theorem stretch_succ (d : Tape) (n i : Nat) :
    d.stretch (n + 1) i = match d.entry i with
      | .ok (some t) => (d.stretch n (i + 1)).map fun (ts, j) => (t :: ts, j)
      | .ok none => .ok ([], i)
      | .error e => .error e := by
  cases hdrop : d.tokens.drop i with
  | nil =>
    rw [entry_of_drop_nil hdrop, stretch, hdrop, List.take_nil]
    cases d.failure <;> rfl
  | cons t ts =>
    obtain ⟨hentry, hrest⟩ := entry_of_drop hdrop
    rw [hentry, stretch, stretch, hdrop, hrest]
    dsimp only
    rw [List.take_succ_cons, List.length_cons]
    have hplace : i + ((ts.take n).length + 1) = i + 1 + (ts.take n).length := by omega
    rw [hplace]
    cases d.failure with
    | none => rfl
    | some e =>
      dsimp only
      by_cases hshort : (ts.take n).length < n
      · rw [if_pos hshort, if_pos (Nat.succ_lt_succ hshort)]
        rfl
      · rw [if_neg hshort, if_neg fun h => hshort (Nat.lt_of_succ_lt_succ h)]
        rfl

end Tape

/-! ## The tape of a source -/

namespace TokenSource

variable {σ : Type} [TokenSource σ]

/-- The outcome of the last of `n + 1` scans in a row. Nothing is scanned behind a failure. -/
def nth : Nat → σ → Except Failure (Option Token)
  | 0, s =>
    match scan s with
    | .ok found _ => .ok found
    | .error e _ => .error e
  | n + 1, s =>
    match scan s with
    | .ok _ s' => nth n s'
    | .error e _ => .error e

def tape (s : σ) : Tape where
  tokens := (drain s).1
  failure :=
    match (drain s).2 with
    | .done _ => none
    | .failed e => some e

variable [LawfulTokenSource σ] {s s' : σ}

theorem tape_some {t : Token} (h : scan s = .ok (some t) s') :
    tape s = ⟨t :: (tape s').tokens, (tape s').failure⟩ := by
  rw [tape, drain_some h, tape]

omit [LawfulTokenSource σ] in
theorem tape_none (h : scan s = .ok none s') : tape s = ⟨[], none⟩ := by
  rw [tape, drain_none h]

omit [LawfulTokenSource σ] in
theorem tape_error {e : Failure} (h : scan s = .error e s') : tape s = ⟨[], some e⟩ := by
  rw [tape, drain_error h]

/-- Scans in a row give the tokens of the tape, and then its end for ever or its failure. -/
theorem nth_eq (s : σ) (n : Nat) : nth n s = (tape s).entry n := by
  induction n generalizing s with
  | zero =>
    rw [nth]
    cases hscan : scan s with
    | error e s' => rw [tape_error hscan]; rfl
    | ok found s' =>
      cases found with
      | none => rw [tape_none hscan]; rfl
      | some t => rw [tape_some hscan]; rfl
  | succ n ih =>
    rw [nth]
    cases hscan : scan s with
    | error e s' => rw [tape_error hscan]; rfl
    | ok found s' =>
      dsimp only
      rw [ih]
      cases found with
      | none => rw [tape_none hscan, tape_none (LawfulTokenSource.scan_none hscan).2]; rfl
      | some t => rw [tape_some hscan]; rfl

end TokenSource

/-! ## Requests are answered from the tape -/

namespace Lookahead

open Step

variable {σ : Type} [TokenSource σ]

/-- The lookahead stands before the `i`-th token of the tape: what it holds back and what its source has
to give make up the rest of the tape. -/
structure Shows (l : Lookahead σ) (d : Tape) (i : Nat) : Prop where
  tokens : l.ahead.toList ++ (tape l.source).tokens = d.tokens.drop i
  failure : (tape l.source).failure = d.failure

variable {d : Tape} {i : Nat} {l : Lookahead σ}

theorem Shows.forget {t : Token} (h : l.Shows d i) (ht : l.ahead = some t) :
    l.forget.Shows d (i + 1) := by
  have htokens := h.tokens
  rw [ht, Option.toList_some, List.singleton_append] at htokens
  exact ⟨(Tape.entry_of_drop htokens.symm).2.symm, h.failure⟩

variable [LawfulTokenSource σ]

/-- Looking gives what stands at the place and does not move. A token looked at can then be let go. -/
theorem peek_shown (h : l.Shows d i) :
    (∃ e l', d.entry i = .error e ∧ peek l = .error e l') ∨
    (∃ l', d.entry i = .ok none ∧ peek l = .ok none l' ∧ l'.Shows d i) ∨
    ∃ t l', d.entry i = .ok (some t) ∧ peek l = .ok (some t) l' ∧ l'.Shows d i ∧
      l'.forget.Shows d (i + 1) := by
  obtain ⟨s, ahead, j⟩ := l
  have htokens := h.tokens
  have hfailure := h.failure
  cases ahead with
  | some t =>
    rw [Option.toList_some, List.singleton_append] at htokens
    exact .inr (.inr ⟨t, _, (Tape.entry_of_drop htokens.symm).1, peek_of_ahead rfl, h, h.forget rfl⟩)
  | none =>
    rw [Option.toList_none, List.nil_append] at htokens
    rw [peek_of_none]
    dsimp only at htokens hfailure
    cases hscan : scan s with
    | error e s' =>
      rw [tape_error hscan] at htokens hfailure
      refine .inl ⟨e, _, ?_, rfl⟩
      rw [Tape.entry_of_drop_nil htokens.symm, ← hfailure]
    | ok found s' =>
      cases found with
      | none =>
        rw [tape_none hscan] at htokens hfailure
        have hend := tape_none (LawfulTokenSource.scan_none hscan).2
        refine .inr (.inl ⟨_, ?_, rfl, ?_, ?_⟩)
        · rw [Tape.entry_of_drop_nil htokens.symm, ← hfailure]
        · rw [hend]
          exact htokens
        · rw [hend]
          exact hfailure
      | some t =>
        rw [tape_some hscan] at htokens hfailure
        have hshows : Shows ⟨s', some t, j.push (.scanned t)⟩ d i := ⟨htokens, hfailure⟩
        exact .inr (.inr ⟨t, _, (Tape.entry_of_drop htokens.symm).1, rfl, hshows, hshows.forget rfl⟩)

/-- An outcome is the one that the tape has, and the lookahead stands where the cursor does. -/
inductive Agrees {α : Type} (d : Tape) :
    Except Failure (α × Nat) → EStateM.Result Failure (Lookahead σ) α → Prop
  | ok {a : α} {i : Nat} {l : Lookahead σ} : l.Shows d i → Agrees d (.ok (a, i)) (.ok a l)
  | error {e : Failure} {l : Lookahead σ} : Agrees d (.error e) (.error e l)

omit [LawfulTokenSource σ] in
theorem Agrees.map {α β : Type} {x : Except Failure (α × Nat)} {m : EStateM Failure (Lookahead σ) α}
    (h : Agrees d x (m l)) (f : α → β) :
    Agrees d (x.map fun (a, j) => (f a, j)) ((do return f (← m)) l) := by
  rw [bind_apply]
  generalize m l = r at h
  cases h with
  | ok hshows => exact .ok hshows
  | error => exact .error

theorem peek_agrees (h : l.Shows d i) :
    Agrees d ((d.entry i).map fun found => (found, i)) (peek l) := by
  obtain ⟨e, l', hentry, hpeek⟩ | ⟨l', hentry, hpeek, hl'⟩ | ⟨t, l', hentry, hpeek, hl', _⟩ := peek_shown h
  all_goals rw [hentry, hpeek]
  · exact .error
  · exact .ok hl'
  · exact .ok hl'

theorem next_agrees (h : l.Shows d i) :
    Agrees d ((d.entry i).map fun found => (found, if found.isSome then i + 1 else i)) (next l) := by
  rw [next_eq_peek]
  obtain ⟨e, l', hentry, hpeek⟩ | ⟨l', hentry, hpeek, hl'⟩ | ⟨t, l', hentry, hpeek, _, hl'⟩ := peek_shown h
  all_goals rw [hentry, hpeek]
  · exact .error
  · dsimp only
    rw [forget_eq_self (ahead_of_peek hpeek)]
    exact .ok hl'
  · exact .ok hl'

theorem take_agrees (n : Nat) (h : l.Shows d i) : Agrees d (d.stretch n i) (take n l) := by
  induction n generalizing l i with
  | zero =>
    have hnone : d.stretch 0 i = .ok ([], i) := by
      rw [Tape.stretch, List.take_zero]
      cases d.failure <;> rfl
    rw [hnone]
    exact .ok h
  | succ n ih =>
    rw [take_succ, Tape.stretch_succ]
    obtain ⟨e, l', hentry, hpeek⟩ | ⟨l', hentry, hpeek, hl'⟩ | ⟨t, l', hentry, hpeek, _, hl'⟩ := peek_shown h
    all_goals rw [hentry, hpeek]
    · exact .error
    · exact .ok hl'
    · have hrest := ih hl'
      dsimp only
      generalize take n l'.forget = r at hrest
      generalize d.stretch n (i + 1) = x at hrest
      cases hrest with
      | ok hl'' => exact .ok hl''
      | error => exact .error

/-- All tokens at once are those up to the end of the tape. -/
theorem toList_agrees (h : l.Shows d i) :
    Agrees d (match d.failure with
      | some e => .error e
      | none => .ok (d.tokens.drop i, d.tokens.length)) (toList l) := by
  have hlength : (d.tokens.drop i).length < l.bound + 1 := by
    have hle : (tape l.source).tokens.length ≤ TokenSource.bound l.source := length_drain_le l.source
    rw [← h.tokens, List.length_append, bound]
    omega
  have htake := take_agrees (l.bound + 1) h
  rw [Tape.stretch, List.take_of_length_le (Nat.le_of_lt hlength)] at htake
  rw [toList, bind_of_ok (get_apply l)]
  generalize take (l.bound + 1) l = r at htake
  cases hfailure : d.failure with
  | some e =>
    rw [hfailure] at htake
    dsimp only at htake
    rw [if_pos hlength] at htake
    cases htake
    exact .error
  | none =>
    rw [hfailure] at htake
    cases htake with
    | ok hl' =>
      have hend : d.tokens.drop (i + (d.tokens.drop i).length) = d.tokens.drop d.tokens.length := by
        rw [← List.drop_drop, List.drop_length, List.drop_length]
      exact .ok ⟨hl'.tokens.trans hend, hl'.failure⟩

/-- Every request is answered as the tape answers it. -/
theorem ask_agrees (r : Request) (h : l.Shows d i) : Agrees d (d.answer i r) (ask r l) := by
  cases r with
  | peek =>
    have hpeek := (peek_agrees h).map Answer.token
    rw [Tape.answer, ask]
    cases hentry : d.entry i <;> rw [hentry] at hpeek <;> exact hpeek
  | next =>
    have hnext := (next_agrees h).map Answer.token
    rw [Tape.answer, ask]
    cases hentry : d.entry i <;> rw [hentry] at hnext <;> exact hnext
  | atEnd =>
    have hend := ((peek_agrees h).map Option.isNone).map Answer.flag
    rw [Tape.answer, ask]
    cases hentry : d.entry i <;> rw [hentry] at hend <;> exact hend
  | take n => exact (take_agrees n h).map Answer.tokens
  | toList =>
    have hall := (toList_agrees h).map Answer.tokens
    rw [Tape.answer, ask]
    cases hfailure : d.failure <;> rw [hfailure] at hall <;> exact hall

theorem answers_eq (rs : List Request) (h : l.Shows d i) : l.answers rs = d.answers i rs := by
  induction rs generalizing l i with
  | nil => rfl
  | cons r rs ih =>
    have hr := ask_agrees r h
    rw [answers, Tape.answers]
    generalize ask r l = outcome at hr
    generalize d.answer i r = x at hr
    cases hr with
    | ok hl' => exact congrArg _ (ih hl')
    | error => rfl

end Lookahead

/-- A source answers requests like a cursor on the tokens that scans in a row would give, with the end or
the failure behind them. -/
theorem Source.answers_to_requests (s : Source) :
    let d := tape s.scanner
    (∀ n, nth n s.scanner = d.entry n) ∧
      ∀ rs, (Lookahead.ofSource s.scanner).answers rs = d.answers 0 rs :=
  ⟨nth_eq s.scanner, fun rs => Lookahead.answers_eq rs ⟨rfl, rfl⟩⟩

end LambdaReader
