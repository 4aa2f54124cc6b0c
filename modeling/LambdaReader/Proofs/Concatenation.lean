import LambdaReader.Proofs.Composition
import LambdaReader.Proofs.Depth
import LambdaReader.Proofs.Foresight
import LambdaReader.Proofs.Layout

/-!
# `Proofs.Concatenation` — programs one behind the other

A program is read a statement at a time: an expression and the semicolon behind it. What one statement
leaves to the next is the tokens behind that semicolon and nothing else. The depth is what it was, no
token is held back, and the token that was taken last and the journal make no difference to what is read
(`Poised.statements_like_new`). So if the tokens of a program are followed by a semicolon and another
program, the statements of the first are read as if nothing came behind them (`Poised.statements_append`),
and from there on the parser is as good as new.

Said of records this holds token by token, with every location. In a source of its own a part has its tokens
elsewhere, so sources are compared with the record of the whole up to locations.

## Main result
- `Replay.parse_concat`: what the tokens of two programs with a semicolon between them are parsed as.
-/

namespace LambdaReader

open TokenSource Step Spot

/-! ## Statements -/

namespace Parser

section Statement

variable {σ : Type} [TokenSource σ] {o : ParseOptions}

/-- An expression and the semicolon behind it; none at the end. -/
def statement (o : ParseOptions) : Parse σ (Option Node) := do
  if ← atEnd then return none
  else
    let first ← expression o
    onTokens (Lookahead.note (.parsed first.kind))
    skipSeparator
    return some first

theorem statements_succ (o : ParseOptions) (n : Nat) : statements (σ := σ) o (n + 1) =
    statement o >>= fun found =>
      found.elim (pure []) fun first => statements o n >>= fun es => pure (first :: es) := by
  rw [statements, statement, bind_assoc]
  congr 1
  funext done
  cases done with
  | true => rfl
  | false => simp only [Bool.false_eq_true, if_false, bind_assoc, pure_bind, Option.elim_some]

/-- The expressions of a program are those of its statements. -/
theorem statements_of_statement {p q : Parser σ} {e : Node} (h : statement o p = .ok (some e) q) (n : Nat) :
    statements o (n + 1) p = (statements o n >>= fun es => pure (e :: es)) q := by
  rw [statements_succ, bind_of_ok h, Option.elim_some]

theorem ahead_of_peek {p q : Parser σ} {found : Option Token} (h : peek p = .ok found q) :
    q.tokens.ahead = found := by
  obtain ⟨ts, hts, rfl⟩ := lookahead_peek h
  exact Lookahead.ahead_of_peek hts

/-- A token that was demanded is not held back any more. -/
theorem ahead_of_skip {kind : TokenKind} {text : String} {p q : Parser σ}
    (h : skip kind text p = .ok () q) : q.tokens.ahead = none := by
  rw [skip, isAt, bind_assoc] at h
  obtain ⟨found, p', hpeek, h⟩ := bind_eq_ok h
  rw [pure_bind] at h
  split at h
  · next hfound =>
    cases found with
    | none => cases hfound
    | some t =>
      rw [bind_of_ok (advance_of_ahead (ahead_of_peek hpeek))] at h
      cases h
      rfl
  · exact absurd h (reject_ne_ok _ _ _ _)

/-- No token is held back behind a semicolon, nor at the end. -/
theorem ahead_of_skipSeparator {p q : Parser σ} (h : skipSeparator p = .ok () q) :
    q.tokens.ahead = none := by
  rw [skipSeparator, atEnd_eq, bind_assoc] at h
  obtain ⟨found, p', hpeek, h⟩ := bind_eq_ok h
  rw [pure_bind] at h
  cases found with
  | none =>
    cases h
    exact ahead_of_peek hpeek
  | some t => exact ahead_of_skip h

end Statement

/-- A statement takes an expression and the semicolon behind it. -/
theorem statement_exact {σ : Type} [TokenSource σ] [LawfulTokenSource σ] {o : ParseOptions} {n : Nat}
    {l : Option Token} {t : Token} {rest : List Token} :
    ExactAt (σ := σ) o n ⟨l, t :: rest⟩ (statement o) fun found s' => ∃ e s₁,
      Reads o (.expression n) ⟨l, t :: rest⟩ [e] s₁ ∧
      (if s₁.rest = [] then s' = s₁ else s₁.Passes .punctuation ";" s') ∧ found = some e := by
  refine ExactAt.atEnd_bind ?_
  rw [List.isEmpty_cons, if_neg Bool.false_ne_true]
  refine (ExactAt.bind (expression_exact _) fun e s₁ _ => ExactAt.note_bind
    (ExactAt.unit_bind (skipSeparator_exact s₁) fun s₂ _ => ExactAt.pure (some e))).congr fun found s' => ?_
  constructor
  · rintro ⟨e, s₁, he, s₂, hsep, rfl, rfl⟩
    exact ⟨e, s₁, he, hsep, rfl⟩
  · rintro ⟨e, s₁, he, hsep, rfl⟩
    exact ⟨e, s₁, he, s', hsep, rfl, rfl⟩

/-- Behind a statement no token is held back. -/
theorem ahead_of_statement {σ : Type} [TokenSource σ] {o : ParseOptions} {p q : Parser σ} {e : Node}
    (h : statement o p = .ok (some e) q) : q.tokens.ahead = none := by
  obtain ⟨done, p₁, -, h⟩ := bind_eq_ok h
  cases done with
  | true => cases h
  | false =>
    obtain ⟨e', p₂, -, h⟩ := bind_eq_ok h
    obtain ⟨_, p₃, -, h⟩ := bind_eq_ok h
    obtain ⟨_, p₄, hskip, h⟩ := bind_eq_ok h
    cases h
    exact ahead_of_skipSeparator hskip

end Parser

/-! ## Between statements -/

/-- A record that ends like this and itself. -/
def Simulation.mirror (ending : Ending) : Simulation Replay Replay where
  sources r s := s = r ∧ r.ending = ending
  place := id
  token _ := True
  ends _ := True
  broken _ := True
  waived _ := False
  location_eq := by
    rintro r _ ⟨rfl, _⟩
    rfl
  bound_le := by
    rintro r _ ⟨rfl, _⟩
    exact Nat.le_refl _
  scan_token := by
    rintro ⟨_ | ⟨t, ts⟩, ending', l⟩ r' _ u ⟨rfl, rfl⟩ hr
    · cases ending' <;> cases hr
    · cases hr
      exact ⟨trivial, _, rfl, rfl, rfl⟩
  scan_end := by
    rintro ⟨_ | ⟨t, ts⟩, ending', l⟩ r' _ ⟨rfl, rfl⟩ hr
    · cases ending' with
      | failed e => cases hr
      | done l => cases hr; exact ⟨trivial, _, rfl, rfl, rfl⟩
    · cases hr
  scan_error := by
    rintro r r' _ e ⟨rfl, _⟩ hr
    exact .inr ⟨trivial, r', by rw [Failure.relocate_id]; exact hr⟩

theorem Simulation.Parsers.mirror (us : List Token) (ending : Ending) (l : Location) (j j' : Array Note)
    (last : Option Token) (depth : Nat) : (Simulation.mirror ending).Parsers
      ⟨⟨⟨us, ending, l⟩, none, j⟩, last, depth⟩ ⟨⟨⟨us, ending, l⟩, none, j'⟩, last, depth⟩ := by
  refine .unseen ?_ j j' ?_ depth
  · exact ⟨rfl, rfl⟩
  · cases last <;> rfl

theorem Simulation.Alike.statement {σ τ : Type} [TokenSource σ] [LawfulTokenSource σ] [TokenSource τ]
    {S : Simulation σ τ} {pre : Parser σ → Prop} {n : Nat} (o : ParseOptions) :
    S.Alike pre n 0 (fun _ _ => True) (Parser.statement o) (Parser.statement o) := by
  unfold Parser.statement
  refine atEnd_bind (.pure trivial) ?_
  refine (expression o).bind (j := 0) (fun m a a' _ ha => ?_) (Nat.zero_le _)
  exact note_bind (skipSeparator.bind (j := 0) (fun _ _ _ _ _ => .pure trivial) (Nat.zero_le _))

/-- Between two statements: these tokens are left, and none of them has been looked at. -/
inductive Poised (us : List Token) (finish : Location) : Parser Replay → Prop where
  | intro (l : Location) (j : Array Note) (last : Option Token) :
    Poised us finish ⟨⟨⟨us, .done finish, l⟩, none, j⟩, last, 0⟩

namespace Poised

variable {o : ParseOptions} {us : List Token} {finish : Location} {p q : Parser Replay}

theorem spot_eq (h : Poised us finish p) : p.spot = ⟨p.last, us⟩ := by
  obtain ⟨l, j, last⟩ := h
  rw [Parser.spot, Replay.drain_done]
  rfl

theorem unfailing (h : Poised us finish p) : p.Unfailing := by
  obtain ⟨l, j, last⟩ := h
  exact ⟨finish, by rw [Replay.drain_done]⟩

theorem levels_eq (h : Poised us finish p) : p.levels o = o.maxDepth.toNat := by
  obtain ⟨l, j, last⟩ := h
  show (o.maxDepth - (0 : Nat)).toNat = o.maxDepth.toNat
  omega

/-- A statement that ends with a semicolon leaves the tokens behind it. -/
theorem statement {s₁ s₂ : Spot} {e : Node} (h : Poised us finish p)
    (he : Reads o (.expression o.maxDepth.toNat) ⟨p.last, us⟩ [e] s₁)
    (hsep : s₁.Passes .punctuation ";" s₂) :
    ∃ q, Parser.statement o p = .ok (some e) q ∧ Poised s₂.rest finish q ∧ q.last = s₂.last := by
  cases us with
  | nil => exact absurd (he.length_lt trivial) (Nat.not_lt_zero _)
  | cons t rest =>
    have hexact := @Parser.statement_exact Replay _ _ o o.maxDepth.toNat p.last t rest
    have hpasses : if s₁.rest = [] then s₂ = s₁ else s₁.Passes .punctuation ";" s₂ := by
      obtain ⟨ht⟩ := hsep
      rw [if_neg (List.cons_ne_nil _ _)]
      exact ⟨ht⟩
    obtain ⟨q, hrun, hspot⟩ :=
      hexact.complete h.levels_eq h.spot_eq ⟨e, s₁, he, hpasses, rfl⟩ fun _ => h.unfailing
    obtain ⟨-, hdepth, -⟩ := hexact.sound h.levels_eq h.spot_eq hrun
    have hahead := Parser.ahead_of_statement hrun
    -- The record ends as it did before.
    obtain ⟨l, j, last⟩ := h
    have hending : q.tokens.source.ending = .done finish := by
      have halike : (Simulation.mirror (.done finish)).Alike Simulation.anyState (t :: rest).length 0 _
        (Parser.statement o) (Parser.statement o) := .statement o
      have hout := halike _ _ (.mirror (t :: rest) (.done finish) l j j last 0) trivial (Nat.le_refl _)
      rw [hrun] at hout
      cases hout with
      | ok _ hq _ => exact hq.sources.2
    obtain ⟨⟨⟨ws, ending, l'⟩, ahead, j'⟩, last', depth⟩ := q
    obtain rfl : ahead = none := hahead
    obtain rfl : ending = .done finish := hending
    obtain rfl : depth = 0 := hdepth
    rw [Parser.spot, Replay.drain_done] at hspot
    subst hspot
    exact ⟨_, hrun, .intro l' j' last', rfl⟩

/-- The statements of a program are read before a semicolon as they are at the end, and then the parser
stands behind that semicolon. -/
theorem statements_append {semicolon : Token} (hsemicolon : semicolon.is .punctuation ";" = true)
    {s s' : Spot} {es : List Node} (hes : Reads o (.statements o.maxDepth.toNat) s es s')
    (hne : s.rest ≠ []) (hs : Token.Unterminated s.rest)
    (h : Poised (s.rest ++ semicolon :: us) finish p) (hlast : p.last = s.last) {n : Nat}
    (hn : (s.rest ++ semicolon :: us).length < n) :
    ∃ q m, Poised us finish q ∧ us.length < m ∧
      Parser.statements o n p = (Parser.statements o m >>= fun rest => pure (es ++ rest)) q := by
  generalize htask : Task.statements o.maxDepth.toNat = task at hes
  have hends := (Token.closes_of_is hsemicolon (by decide)).ends
  induction hes generalizing p n with cases htask
  | done hnil => exact absurd hnil hne
  | @last _ s s₁ e he hrest =>
    have he' := he.extend trivial hends us
    have hsep : (s₁.extend (semicolon :: us)).Passes .punctuation ";" ⟨some semicolon, us⟩ := by
      rw [Spot.extend, hrest]
      exact ⟨hsemicolon⟩
    rw [Spot.extend, ← hlast] at he'
    obtain ⟨q, hrun, hq, -⟩ := h.statement he' hsep
    obtain ⟨n, rfl⟩ := Nat.exists_eq_succ_of_ne_zero (Nat.ne_zero_of_lt hn)
    refine ⟨q, n, hq, ?_, ?_⟩
    · rw [List.length_append, List.length_cons] at hn
      omega
    · exact Parser.statements_of_statement hrun n
  | @next _ s s₁ s₂ s₃ e es he hsep hes _ ih =>
    have he' := he.extend trivial hends us
    rw [Spot.extend, ← hlast] at he'
    obtain ⟨q, hrun, hq, hqlast⟩ := h.statement he' (hsep.extend _)
    obtain ⟨n, rfl⟩ := Nat.exists_eq_succ_of_ne_zero (Nat.ne_zero_of_lt hn)
    have hlt := he.length_lt trivial
    obtain ⟨hne', hs'⟩ := he.unterminated_behind hsep hs
    have hn' : (s₂.rest ++ semicolon :: us).length < n := by
      obtain ⟨_⟩ := hsep
      simp only [List.length_append, List.length_cons] at hn hlt ⊢
      omega
    obtain ⟨q', m, hq', hm, hstatements⟩ := ih hne' hs' hq hqlast hn' rfl
    refine ⟨q', m, hq', hm, ?_⟩
    rw [Parser.statements_of_statement hrun, bind_apply, hstatements, bind_apply, bind_apply]
    cases Parser.statements o m q' <;> rfl

/-- Where the record was read to does not matter, since the first step is to look at the next token. -/
theorem statements_place (us : List Token) (finish l l' : Location) (j : Array Note) (last : Option Token)
    (n : Nat) :
    Parser.statements o (n + 1) (⟨⟨⟨us, .done finish, l⟩, none, j⟩, last, 0⟩ : Parser Replay) =
      Parser.statements o (n + 1) ⟨⟨⟨us, .done finish, l'⟩, none, j⟩, last, 0⟩ := by
  have hend : Parser.atEnd (⟨⟨⟨us, .done finish, l⟩, none, j⟩, last, 0⟩ : Parser Replay) =
      Parser.atEnd ⟨⟨⟨us, .done finish, l'⟩, none, j⟩, last, 0⟩ := by
    cases us <;> rfl
  rw [Parser.statements, bind_apply, bind_apply, hend]

/-- Nothing of what was read before makes a difference. -/
theorem statements_like_new (h : Poised us finish p) (h' : Poised us finish q) {n m : Nat}
    (hn : us.length < n) (hm : us.length < m) :
    (∃ body p' q', Parser.statements o n p = .ok body p' ∧ Parser.statements o m q = .ok body q') ∨
    ∃ e p' q', Parser.statements o n p = .error e p' ∧ Parser.statements o m q = .error e q' := by
  obtain ⟨l, j, last⟩ := h
  obtain ⟨l', j', last'⟩ := h'
  obtain ⟨n, rfl⟩ := Nat.exists_eq_succ_of_ne_zero (Nat.ne_zero_of_lt hn)
  rw [statements_place us finish l l' j last n]
  -- The token taken last is exchanged first, then the journal and the fuel.
  have hlast : Parser.Heedless Parser.anyTokens Parser.Twins (Parser.statements (σ := Replay) o (n + 1)) :=
    .statements (n + 1)
  have hagree := hlast ⟨⟨⟨us, .done finish, l'⟩, none, j⟩, last, 0⟩ last' trivial
  have hout := Simulation.Alike.statements (o := o) hn hm _ _
    (.mirror us (.done finish) l' j j' last' 0) trivial (Nat.le_refl _)
  dsimp only at hagree
  generalize Parser.statements o (n + 1)
    (⟨⟨⟨us, .done finish, l'⟩, none, j⟩, last, 0⟩ : Parser Replay) = rx at hagree ⊢
  generalize Parser.statements o (n + 1)
    (⟨⟨⟨us, .done finish, l'⟩, none, j⟩, last', 0⟩ : Parser Replay) = ry at hagree hout
  generalize Parser.statements o m
    (⟨⟨⟨us, .done finish, l'⟩, none, j'⟩, last', 0⟩ : Parser Replay) = rz at hout ⊢
  cases hagree with
  | @ok body =>
    cases hout with
    | @ok _ body' _ _ has =>
      have hbody : body' = body :=
        (Simulation.Copies.relocateAll has.1).trans (Node.relocateAll_id body)
      rw [hbody]
      exact .inl ⟨_, _, _, rfl, rfl⟩
  | @error e =>
    cases hout with
    | failed => exact .inr ⟨e, _, _, rfl, congrArg (EStateM.Result.error · _) (Failure.relocate_id e)⟩
    | waived hw => exact hw.elim

/-- What is left are the statements of the program that these tokens are by themselves. -/
theorem parse_eq (h : Poised us finish p) {n : Nat} (hn : us.length < n) (start : Location) :
    (∃ body span q, Parser.statements o n p = .ok body q ∧
      Replay.parse o ⟨us, .done finish, start⟩ = .ok (.program body span)) ∨
    ∃ e q, Parser.statements o n p = .error e q ∧ Replay.parse o ⟨us, .done finish, start⟩ = .error e := by
  let r : Replay := ⟨us, .done finish, start⟩
  have hr : Poised us finish (.ofSource r) := .intro start #[] none
  have hbound : us.length < (Parser.ofSource r).tokens.bound + 1 := Nat.lt_succ_self _
  have hprogram := Parser.program_apply (o := o) (.ofSource r)
  rcases h.statements_like_new hr hn hbound with ⟨body, q, q', hq, hq'⟩ | ⟨e, q, q', hq, hq'⟩
  · rw [hq'] at hprogram
    exact .inl ⟨body, _, q, hq, by rw [Replay.parse, TokenSource.read, hprogram]⟩
  · rw [hq'] at hprogram
    exact .inr ⟨e, q, hq, by rw [Replay.parse, TokenSource.read, hprogram]⟩

end Poised

/-! ## Programs -/

namespace Replay

variable {o : ParseOptions} {ts : List Token} {semicolon : Token} {start finish : Location}

/-- Two programs with a semicolon between them are a program if the second is one, and fail as it fails. -/
theorem parse_append {b : List Node} {span : Option Span} (hsemicolon : semicolon.is .punctuation ";" = true)
    (h : parse o ⟨ts, .done finish, start⟩ = .ok (.program b span)) (hne : ts ≠ [])
    (hts : Token.Unterminated ts) (us : List Token) (l l' : Location) :
    (∃ b' span' span'', parse o ⟨us, .done l, l'⟩ = .ok (.program b' span') ∧
      parse o ⟨ts ++ semicolon :: us, .done l, start⟩ = .ok (.program (b ++ b') span'')) ∨
    ∃ e, parse o ⟨us, .done l, l'⟩ = .error e ∧ parse o ⟨ts ++ semicolon :: us, .done l, start⟩ = .error e := by
  have hdrain := drain_done ts finish start
  obtain ⟨body, s', hbody, hprogram⟩ :=
    (TokenSource.read_eq_ok_iff (by rw [hdrain]) (.program b span)).mp h
  rw [hdrain] at hbody
  obtain ⟨rfl, -⟩ := Node.program.inj hprogram
  let r : Replay := ⟨ts ++ semicolon :: us, .done l, start⟩
  have hr : Poised (ts ++ semicolon :: us) l (.ofSource r) := .intro start #[] none
  obtain ⟨q, m, hq, hm, hstatements⟩ :=
    hr.statements_append hsemicolon hbody hne hts rfl (Nat.lt_succ_self _)
  -- Behind the semicolon the second program is read, and its statements are added to those of the first.
  have hwhole := hr.parse_eq (o := o) (Nat.lt_succ_self _) start
  rw [hstatements, bind_apply] at hwhole
  rcases hq.parse_eq (o := o) hm l' with ⟨body', span', q', hq', hus⟩ | ⟨e, q', hq', hus⟩
  · rw [hq'] at hwhole
    rcases hwhole with ⟨_, span'', _, hok, hwhole⟩ | ⟨_, _, hok, _⟩
    · cases hok
      exact .inl ⟨body', span', span'', hus, hwhole⟩
    · cases hok
  · rw [hq'] at hwhole
    rcases hwhole with ⟨_, _, _, herror, _⟩ | ⟨_, _, herror, hwhole⟩
    · cases herror
    · cases herror
      exact .inr ⟨e, hus, hwhole⟩

/-- Tokens that are refused at one of them are refused there whatever comes behind them. -/
theorem parse_refused {e : Failure} {t : Token} (h : parse o ⟨ts, .done finish, start⟩ = .error e)
    (ht : e.found? = some t) (us : List Token) (ending : Ending) :
    parse o ⟨ts ++ us, ending, start⟩ = .error e := by
  have htokenless : (Ending.done finish).Tokenless := by
    rintro _ ⟨⟩
  rw [← List.append_nil ts] at h
  exact parse_of_shared htokenless h ht List.not_mem_nil

end Replay

/-! ## Programs elsewhere -/

/-- Tokens that are spelled alike are alike in everything but their locations. -/
theorem Token.IsLexeme.is_eq {t t' : Token} (h : t.IsLexeme) (h' : t'.IsLexeme)
    (hspelling : t.spelling = t'.spelling) (kind : TokenKind) (text : String) :
    t.is kind text = t'.is kind text := by
  have hmoved := h.movedTo_eq h' hspelling (.start "")
  show (t.movedTo (.start "")).is kind text = (t'.movedTo (.start "")).is kind text
  rw [hmoved]

theorem Token.Unterminated.respelled {ts us : List Token} (h : Unterminated ts)
    (hts : ∀ t ∈ ts, t.IsLexeme) (hus : ∀ t ∈ us, t.IsLexeme) (hsame : ts.map spelling = us.map spelling) :
    Unterminated us := by
  intro u hu
  have hlast : (ts.getLast?).map spelling = some u.spelling := by
    rw [← List.getLast?_map, hsame, List.getLast?_map, hu]
    rfl
  obtain ⟨t, ht, hspelling⟩ := Option.map_eq_some_iff.mp hlast
  rw [← (hts t (List.mem_of_getLast? ht)).is_eq (hus u (List.mem_of_getLast? hu)) hspelling]
  exact h t ht

theorem Token.Parallel.exists_of_found {ts us : List Token} {found found' : Option Token} {t : Token}
    (h : Parallel ts us found found') (ht : found = some t) : ∃ t', found' = some t' := by
  rcases h with ⟨rfl, _⟩ | ⟨_, _, t', _, _, _, hfound', _⟩
  · cases ht
  · exact ⟨t', hfound'⟩

/-- A tree that differs from a program in spans only is a program. -/
theorem Node.eq_program_of_bare {b : List Node} {span : Option Span} {n : Node}
    (h : (Node.program b span).bare = n.bare) :
    ∃ b' span', n = .program b' span' ∧ bareAll b = bareAll b' := by
  cases n <;> simp only [bare, reduceCtorEq, program.injEq] at h
  exact ⟨_, _, rfl, h.1⟩

/-- What is parsed likewise as a program is a program. -/
theorem Likewise.program {ts us : List Token} {b : List Node} {span : Option Span} {x : Except Failure Node}
    (h : Likewise ts us (.ok (.program b span)) x) :
    ∃ b' span', x = .ok (.program b' span') ∧ Node.bareAll b = Node.bareAll b' := by
  cases h with
  | ok hbare =>
    obtain ⟨b', span', rfl, hb⟩ := Node.eq_program_of_bare hbare
    exact ⟨b', span', rfl, hb⟩

namespace Source

variable {o : ParseOptions} {s₁ s₂ s : Source} {ts₁ ts₂ us₁ us₂ : List Token}

/-- A source with the tokens of two others and a semicolon between them is read as the program of both, if
the first is read as a program, or is at fault where the second is. -/
theorem parse_append {semicolon : Token} {b₁ : List Node} {span₁ : Option Span}
    (hsemicolon : semicolon.is .punctuation ";" = true) (h₁ : s₁.tokens = .ok ts₁)
    (h₂ : s₂.tokens = .ok ts₂) (h : s.tokens = .ok (us₁ ++ semicolon :: us₂))
    (hsame₁ : ts₁.map Token.spelling = us₁.map Token.spelling)
    (hsame₂ : ts₂.map Token.spelling = us₂.map Token.spelling)
    (hb₁ : s₁.parse o = .ok (.program b₁ span₁)) (hne : ts₁ ≠ []) (hts : Token.Unterminated ts₁) :
    (∃ b₂ span₂ n, s₂.parse o = .ok (.program b₂ span₂) ∧ s.parse o = .ok n ∧
      (n == .program (b₁ ++ b₂) none) = true) ∨
    ∃ e₂ e f₂ f, s₂.parse o = .error e₂ ∧ s.parse o = .error e ∧ e₂.fault? = .ok f₂ ∧
      e.fault? = .ok f ∧ f₂.Corresponds ts₂ us₂ f := by
  -- The whole is taken apart where it stands, and its parts are compared with the other two sources.
  obtain ⟨hlexemes, l, hwhole⟩ := parse_eq_replay h o
  have hus₁ : ∀ t ∈ us₁, t.IsLexeme := fun t ht => hlexemes t (List.mem_append_left _ ht)
  have hus₂ : ∀ t ∈ us₂, t.IsLexeme := fun t ht =>
    hlexemes t (List.mem_append_right _ (List.mem_cons_of_mem _ ht))
  have hfirst := parse_likewise h₁ hus₁ hsame₁ (.start s.file) l o
  have hsecond := parse_likewise h₂ hus₂ hsame₂ (.start s.file) l o
  rw [hb₁] at hfirst
  obtain ⟨b, span, hfirst, hb⟩ := hfirst.program
  have hne' : us₁ ≠ [] := by
    rintro rfl
    exact hne (List.map_eq_nil_iff.mp hsame₁)
  have hts' := hts.respelled (parse_eq_replay h₁ o).1 hus₁ hsame₁
  rcases Replay.parse_append hsemicolon hfirst hne' hts' us₂ l (.start s.file) with
    ⟨b', span', span'', hright, hok⟩ | ⟨e, hright, hfail⟩
  · rw [hright] at hsecond
    generalize s₂.parse o = second at hsecond
    cases hsecond with
    | ok hbare =>
      obtain ⟨b₂, span₂, rfl, hb₂⟩ := Node.eq_program_of_bare hbare.symm
      rw [← hwhole] at hok
      refine .inl ⟨b₂, span₂, _, rfl, hok, (isProgram_of_parse hok).beq_of_bare ?_⟩
      rw [Node.bare, Node.bare, Node.bareAll_append, Node.bareAll_append, hb, hb₂]
  · rw [hright] at hsecond
    generalize s₂.parse o = second at hsecond
    cases hsecond with
    | @error cause _ _ l₂ l' hparallel =>
      obtain ⟨f₂, f, hf₂, hf, hcorresponds⟩ := Failure.corresponds hparallel cause l₂ l'
      exact .inr ⟨_, _, f₂, f, rfl, hwhole.trans hfail, hf₂, hf, hcorresponds⟩

/-- A source that is at fault at a token is at fault there with more tokens behind. -/
theorem parse_refused {us : List Token} {e₁ : Failure} {t : Token} (h₁ : s₁.tokens = .ok ts₁)
    (h : s.tokens = .ok (us₁ ++ us)) (hsame₁ : ts₁.map Token.spelling = us₁.map Token.spelling)
    (he₁ : s₁.parse o = .error e₁) (ht : e₁.found? = some t) :
    ∃ e f₁ f, s.parse o = .error e ∧ e₁.fault? = .ok f₁ ∧ e.fault? = .ok f ∧
      f₁.Corresponds ts₁ us₁ f := by
  obtain ⟨hlexemes, l, hwhole⟩ := parse_eq_replay h o
  have hus₁ : ∀ t ∈ us₁, t.IsLexeme := fun t ht => hlexemes t (List.mem_append_left _ ht)
  have hfirst := parse_likewise h₁ hus₁ hsame₁ (.start s.file) l o
  rw [he₁] at hfirst
  generalize hfail : Replay.parse o ⟨us₁, .done l, .start s.file⟩ = result at hfirst
  cases hfirst with
  | @error cause _ _ l₁ l' hparallel =>
    obtain ⟨t', rfl⟩ := hparallel.exists_of_found ht
    obtain ⟨f₁, f, hf₁, hf, hcorresponds⟩ := Failure.corresponds hparallel cause l₁ l'
    exact ⟨_, f₁, f, hwhole.trans (Replay.parse_refused hfail rfl _ _), hf₁, hf, hcorresponds⟩

end Source

/-- Programs can be put one behind the other with a semicolon between them, if the first is not empty and
does not end with a semicolon itself. The whole is parsed just if the second is, with the expressions of both,
and otherwise it fails as the second does. If the first is refused at one of its tokens, so is the whole. The
same holds of the tokens of three sources, up to their locations. -/
theorem Replay.parse_concat {semicolon : Token} (hsemicolon : semicolon.is .punctuation ";" = true)
    (o : ParseOptions) :
    (∀ (ts us : List Token) (start start' finish finish' : Location),
      (∀ b₁ span₁, parse o ⟨ts, .done finish, start⟩ = .ok (.program b₁ span₁) → ts ≠ [] →
        Token.Unterminated ts →
        (∃ b₂ span₂ span, parse o ⟨us, .done finish', start'⟩ = .ok (.program b₂ span₂) ∧
          parse o ⟨ts ++ semicolon :: us, .done finish', start⟩ = .ok (.program (b₁ ++ b₂) span)) ∨
        ∃ e, parse o ⟨us, .done finish', start'⟩ = .error e ∧
          parse o ⟨ts ++ semicolon :: us, .done finish', start⟩ = .error e) ∧
      ∀ e t, parse o ⟨ts, .done finish, start⟩ = .error e → e.found? = some t →
        parse o ⟨ts ++ semicolon :: us, .done finish', start⟩ = .error e) ∧
    ∀ (s₁ s₂ s : Source) (ts₁ ts₂ us₁ us₂ : List Token), s₁.tokens = .ok ts₁ → s₂.tokens = .ok ts₂ →
      s.tokens = .ok (us₁ ++ semicolon :: us₂) → ts₁.map Token.spelling = us₁.map Token.spelling →
      ts₂.map Token.spelling = us₂.map Token.spelling →
      (∀ b₁ span₁, s₁.parse o = .ok (.program b₁ span₁) → ts₁ ≠ [] → Token.Unterminated ts₁ →
        (∃ b₂ span₂ n, s₂.parse o = .ok (.program b₂ span₂) ∧ s.parse o = .ok n ∧
          (n == .program (b₁ ++ b₂) none) = true) ∨
        ∃ e₂ e f₂ f, s₂.parse o = .error e₂ ∧ s.parse o = .error e ∧ e₂.fault? = .ok f₂ ∧
          e.fault? = .ok f ∧ f₂.Corresponds ts₂ us₂ f) ∧
      ∀ e₁ t, s₁.parse o = .error e₁ → e₁.found? = some t →
        ∃ e f₁ f, s.parse o = .error e ∧ e₁.fault? = .ok f₁ ∧ e.fault? = .ok f ∧
          f₁.Corresponds ts₁ us₁ f := by
  constructor
  · intro ts us start start' finish finish'
    refine ⟨fun b₁ span₁ h hne hts => ?_, fun e t h ht => ?_⟩
    · exact parse_append hsemicolon h hne hts us finish' start'
    · exact parse_refused h ht _ _
  · intro s₁ s₂ s ts₁ ts₂ us₁ us₂ h₁ h₂ h hsame₁ hsame₂
    refine ⟨fun b₁ span₁ hb₁ hne hts => ?_, fun e₁ t he₁ ht => ?_⟩
    · exact Source.parse_append hsemicolon h₁ h₂ h hsame₁ hsame₂ hb₁ hne hts
    · exact Source.parse_refused h₁ h hsame₁ he₁ ht

/-- The branch of a conditional is neither called with the group behind the semicolon nor goes on there. -/
theorem Replay.parse_concat_conditional :
    let s₁ : Source := ⟨"if a then b", "x", false⟩
    let s₂ : Source := ⟨"(c)", "y", false⟩
    let s : Source := ⟨"if a then b;\n(c)", "x", false⟩
    ∃ b₁ span₁ b₂ span₂ n, s₁.parse {} = .ok (.program b₁ span₁) ∧ s₂.parse {} = .ok (.program b₂ span₂) ∧
      s.parse {} = .ok n ∧ (n == .program (b₁ ++ b₂) none) = true := by
  intro s₁ s₂ s
  let ts₁ : List Token := [.plain .keyword "if" ⟨"x", 1, 0, 0⟩, .plain .identifier "a" ⟨"x", 1, 3, 3⟩,
    .plain .keyword "then" ⟨"x", 1, 5, 5⟩, .plain .identifier "b" ⟨"x", 1, 10, 10⟩]
  let semicolon : Token := .plain .punctuation ";" ⟨"x", 1, 11, 11⟩
  have hts₁ : s₁.tokens = .ok ts₁ := by decide +kernel
  have hts₂ : s₂.tokens = .ok [.plain .punctuation "(" ⟨"y", 1, 0, 0⟩, .plain .identifier "c" ⟨"y", 1, 1, 1⟩,
    .plain .punctuation ")" ⟨"y", 1, 2, 2⟩] := by decide +kernel
  have hts : s.tokens = .ok (ts₁ ++ semicolon :: [.plain .punctuation "(" ⟨"x", 2, 0, 13⟩,
    .plain .identifier "c" ⟨"x", 2, 1, 14⟩, .plain .punctuation ")" ⟨"x", 2, 2, 15⟩]) := by decide +kernel
  have hok₁ : (s₁.parse {}).isOk = true := by decide +kernel
  have hok₂ : (s₂.parse {}).isOk = true := by decide +kernel
  cases hn₁ : s₁.parse {} with
  | error e => rw [hn₁] at hok₁; cases hok₁
  | ok n₁ =>
    obtain @⟨b₁, span₁⟩ := Source.isProgram_of_parse hn₁
    have hlast : Token.Unterminated ts₁ := by
      rintro _ ⟨⟩
      decide
    have hsemicolon : semicolon.is .punctuation ";" = true := by decide
    obtain ⟨-, hsources⟩ := Replay.parse_concat hsemicolon {}
    obtain ⟨hconcat, -⟩ := hsources s₁ s₂ s _ _ _ _ hts₁ hts₂ hts rfl rfl
    rcases hconcat b₁ span₁ hn₁ (List.cons_ne_nil _ _) hlast with ⟨b₂, span₂, n, h⟩ | ⟨_, _, _, _, hfail, _⟩
    · exact ⟨b₁, span₁, b₂, span₂, n, rfl, h⟩
    · rw [hfail] at hok₂
      cases hok₂

end LambdaReader
