import LambdaReader.Proofs.Recorded
import LambdaReader.Proofs.Compositional

/-!
# `Proofs.Foresight` — a parser does not see past the token that it fails at

A parser holds back one token at most, and a failure by the grammar names the token that was asked for
last. So whatever stands behind that token has not been asked for, and could be something else.

Two records that share their first tokens and then go on in two ways, a `Fork`, are read side by side. As
long as both parsers are among the shared tokens they are in the same state (`Abreast`). Once the left one
is behind them (`Past`), it fails at a token from there, or at none, so nothing has to be known of the
right one any more. `Shortsighted` says so of a step, and every step of the grammar is.

The loops of a parser have fuel by the number of tokens that are left, in which the two records may
differ. `Roomy` is a record that passes for a longer one: a parser cannot tell it from the record as it
is, and two of them with the same room give the same fuel.

## Main results
- `Replay.stops_of_parse`: where a parser of a record fails;
- `Replay.parse_of_shared`: a failure at a shared token does not depend on what comes behind.
-/

namespace LambdaReader

open TokenSource Step

/-! ## Records with room -/

/-- A record of tokens that passes for one of as many tokens as there is room for. -/
structure Roomy where
  record : Replay
  room : Nat

instance : TokenSource Roomy where
  scan s := match Replay.scan s.record with
    | .ok found r => .ok found { s with record := r }
    | .error e r => .error e { s with record := r }
  location s := s.record.location
  bound := Roomy.room

/-- A record of these tokens and the same with room. -/
def Simulation.roomy (ts : List Token) (ending : Ending) : Simulation Replay Roomy where
  sources r s := s.record = r ∧ r.ending = ending ∧ r.tokens.length ≤ s.room ∧ r.tokens ⊆ ts
  place := id
  token t := t ∈ ts
  ends l := ending = .done l
  broken e := ending = .failed e
  waived _ := False
  location_eq := by
    rintro _ s ⟨rfl, _⟩
    rfl
  bound_le h := h.2.2.1
  scan_token := by
    rintro _ r' ⟨⟨_ | ⟨t, us⟩, ending, l⟩, room⟩ u ⟨rfl, rfl, hroom, hts⟩ hr
    · cases ending <;> cases hr
    · cases hr
      obtain ⟨ht, hus⟩ := List.cons_subset.mp hts
      exact ⟨ht, _, rfl, rfl, rfl, Nat.le_of_succ_le hroom, hus⟩
  scan_end := by
    rintro _ r' ⟨⟨_ | ⟨t, us⟩, ending, l⟩, room⟩ ⟨rfl, rfl, hroom, hts⟩ hr
    · cases ending with
      | failed e => cases hr
      | done l => cases hr; exact ⟨rfl, _, rfl, rfl, rfl, hroom, hts⟩
    · cases hr
  scan_error := by
    rintro _ r' ⟨⟨_ | ⟨t, us⟩, ending, l⟩, room⟩ e ⟨rfl, rfl, _, _⟩ hr
    · cases ending with
      | done l => cases hr
      | failed f =>
        cases hr
        exact .inr ⟨rfl, _, by rw [Failure.relocate_id]; rfl⟩
    · cases hr

namespace Replay

variable {o : ParseOptions} {r : Replay} {ts : List Token} {ending : Ending} {start : Location}

/-- Room makes no difference. -/
theorem parse_eq_roomy (o : ParseOptions) {room : Nat} (hroom : r.tokens.length ≤ room) :
    (TokenSource.read o (⟨r, room⟩ : Roomy)).result = r.parse o := by
  have hsources : (Simulation.roomy r.tokens r.ending).sources r ⟨r, room⟩ :=
    ⟨rfl, rfl, hroom, List.Subset.refl _⟩
  rcases Simulation.read hsources o with ⟨n, hleft, hright, _⟩ | ⟨e, hleft, hwaived | ⟨_, hright⟩⟩
  · rw [Replay.parse, hleft, hright]
    exact congrArg _ (Node.relocate_id n)
  · exact hwaived.elim
  · rw [Replay.parse, hleft, hright]
    exact congrArg _ (Failure.relocate_id e)

/-- A record is given up where it breaks off, by the grammar just behind one of its tokens, or by the
grammar at its end. -/
theorem stops_of_parse {e : Failure} (hts : ∀ t ∈ ts, t.IsLexeme)
    (h : parse o ⟨ts, ending, start⟩ = .error e) :
    ending = .failed e ∨ (∃ cause t, t ∈ ts ∧ e = .grammar cause (some t) t.stop) ∨
      ∃ cause l, ending = .done l ∧ e = .grammar cause none l := by
  have hsources : (Simulation.roomy ts ending).sources ⟨ts, ending, start⟩
      ⟨⟨ts, ending, start⟩, ts.length⟩ :=
    ⟨rfl, rfl, Nat.le_refl _, List.Subset.refl _⟩
  rcases Simulation.read hsources o with ⟨n, hleft, _⟩ | ⟨e', hleft, hwaived | ⟨hstops, _⟩⟩
  · cases h.symm.trans hleft
  · exact hwaived.elim
  · obtain rfl := Except.error.inj (h.symm.trans hleft)
    cases hstops with
    | broken hbroken => exact .inl hbroken
    | found ht => exact .inr (.inl ⟨_, _, ht, rfl⟩)
    | ended hend => exact .inr (.inr ⟨_, _, hend, rfl⟩)
    | misused ht hkind hnone => exact absurd hnone ((hts _ ht).number?_ne_none hkind)

end Replay

/-! ## States and outcomes -/

/-- The token that a failure was met at. -/
def Failure.found? : Failure → Option Token
  | .grammar _ found _ => found
  | .lexical _ _ | .misuse _ => none

/-- A scan that is stopped is not stopped at a token. -/
def Ending.Tokenless (ending : Ending) : Prop := ∀ e, ending = .failed e → e.found? = none

/-- Two ways for a record to go on. On the left it is not stopped at a token. -/
structure Fork where
  left : List Token
  leftEnd : Ending
  right : List Token
  rightEnd : Ending
  tokenless : leftEnd.Tokenless

namespace Fork

open LambdaReader.Parser

variable {α β : Type} {o : ParseOptions} (F : Fork)

/-- Parsers on records that go on in the two ways after the tokens that both have still to give. -/
inductive Abreast : Parser Roomy → Parser Roomy → Prop where
  | intro (ts : List Token) (l : Location) (room : Nat) (ahead : Option Token) (j : Array Note)
    (last : Option Token) (depth : Nat) :
    Abreast ⟨⟨⟨⟨ts ++ F.left, F.leftEnd, l⟩, room⟩, ahead, j⟩, last, depth⟩
      ⟨⟨⟨⟨ts ++ F.right, F.rightEnd, l⟩, room⟩, ahead, j⟩, last, depth⟩

/-- Whatever the parser will ask for, it finds a token of the left way or none. -/
structure Past (p : Parser Roomy) : Prop where
  rest : p.tokens.source.record.tokens ⊆ F.left
  ahead : ∀ t ∈ p.tokens.ahead, t ∈ F.left
  ending : p.tokens.source.record.ending.Tokenless

/-- The run succeeds and leaves a parser past the shared tokens, or it fails at none of them. -/
inductive Gone : EStateM.Result Failure (Parser Roomy) α → Prop where
  | ok {a : α} {p : Parser Roomy} : F.Past p → Gone (.ok a p)
  | error {e : Failure} {p : Parser Roomy} : (∀ t ∈ e.found?, t ∈ F.left) → Gone (.error e p)

/-- Both runs end alike, or the left one has gone past the shared tokens. -/
inductive Outcome : EStateM.Result Failure (Parser Roomy) α →
    EStateM.Result Failure (Parser Roomy) α → Prop where
  | ok {a : α} {p q : Parser Roomy} : F.Abreast p q → Outcome (.ok a p) (.ok a q)
  | error {e : Failure} {p q : Parser Roomy} : Outcome (.error e p) (.error e q)
  | gone {x y : EStateM.Result Failure (Parser Roomy) α} : F.Gone x → Outcome x y

/-- The step sees no token that it has not asked for, and blames none but the last one. -/
structure Shortsighted ⦃α : Type⦄ (x : Parse Roomy α) : Prop where
  past {p : Parser Roomy} : F.Past p → F.Gone (x p)
  abreast {p q : Parser Roomy} : F.Abreast p q → F.Outcome (x p) (x q)

variable {F} {p q : Parser Roomy}

/-! ## The next token -/

/-- Past the shared tokens the next token is one of those behind them. -/
theorem Past.peek (h : F.Past p) :
    (∃ t q, t ∈ F.left ∧ peek p = .ok (some t) q ∧ q.tokens.ahead = some t ∧ F.Past q) ∨
    (∃ q, peek p = .ok none q ∧ F.Past q) ∨ ∃ e q, peek p = .error e q ∧ e.found? = none := by
  obtain ⟨⟨⟨⟨ts, ending, l⟩, room⟩, ahead, j⟩, last, depth⟩ := p
  obtain ⟨hrest, hahead, htokenless⟩ := h
  cases ahead with
  | some t =>
    refine .inl ⟨t, _, hahead t rfl, ?_, rfl, hrest, hahead, htokenless⟩
    rw [Parser.peek, onTokens, Lookahead.peek_of_ahead rfl]
  | none =>
    rw [Parser.peek, onTokens, Lookahead.peek_of_none]
    cases ts with
    | cons t ts =>
      obtain ⟨ht, hts⟩ := List.cons_subset.mp hrest
      exact .inl ⟨t, _, ht, rfl, rfl, hts, fun u hu => Option.some.inj hu ▸ ht, htokenless⟩
    | nil =>
      cases ending with
      | done l => exact .inr (.inl ⟨_, rfl, hrest, hahead, htokenless⟩)
      | failed e => exact .inr (.inr ⟨e, _, rfl, htokenless e rfl⟩)

/-- A shared token is seen on both sides. Without one the left parser is past the shared tokens. -/
theorem Abreast.peek (h : F.Abreast p q) :
    F.Past p ∨ ∃ t p' q', peek p = .ok (some t) p' ∧ peek q = .ok (some t) q' ∧
      p'.tokens.ahead = some t ∧ F.Abreast p' q' := by
  obtain ⟨ts, l, room, ahead, j, last, depth⟩ := h
  cases ahead with
  | some t =>
    refine .inr ⟨t, _, _, ?_, ?_, rfl, .intro ts l room (some t) j last depth⟩
    · rw [Parser.peek, onTokens, Lookahead.peek_of_ahead rfl]
    · rw [Parser.peek, onTokens, Lookahead.peek_of_ahead rfl]
  | none =>
    cases ts with
    | nil =>
      refine .inl ⟨List.Subset.refl F.left, ?_, F.tokenless⟩
      rintro _ ⟨⟩
    | cons t ts =>
      refine .inr ⟨t, _, _, ?_, ?_, rfl, .intro ts t.stop room (some t) (j.push (.scanned t)) last depth⟩
      · rw [Parser.peek, onTokens, Lookahead.peek_of_none]
        rfl
      · rw [Parser.peek, onTokens, Lookahead.peek_of_none]
        rfl

theorem Past.advance {t : Token} (h : F.Past p) (ht : p.tokens.ahead = some t) :
    ∃ q, advance p = .ok (some t) q ∧ F.Past q :=
  ⟨_, advance_of_ahead ht, h.rest, nofun, h.ending⟩

theorem Abreast.advance {t : Token} (h : F.Abreast p q) (ht : p.tokens.ahead = some t) :
    ∃ p' q', advance p = .ok (some t) p' ∧ advance q = .ok (some t) q' ∧ F.Abreast p' q' := by
  obtain ⟨ts, l, room, ahead, j, last, depth⟩ := h
  exact ⟨_, _, advance_of_ahead ht, advance_of_ahead ht, .intro ts l room none j (some t) depth⟩

theorem Abreast.location_eq (h : F.Abreast p q) : q.location = p.location := by
  obtain ⟨ts, l, room, ahead, j, last, depth⟩ := h
  rfl

theorem Past.atDepth (h : F.Past p) (depth : Nat) : F.Past { p with depth } :=
  ⟨h.rest, h.ahead, h.ending⟩

theorem Abreast.deeper (h : F.Abreast p q) : F.Abreast p.deeper q.deeper := by
  obtain ⟨ts, l, room, ahead, j, last, depth⟩ := h
  exact .intro ts l room ahead j last (depth + 1)

theorem Abreast.ascend (h : F.Abreast p q) : F.Abreast p.ascend q.ascend := by
  obtain ⟨ts, l, room, ahead, j, last, depth⟩ := h
  exact .intro ts l room ahead j last (depth - 1)

theorem Abreast.depth_eq (h : F.Abreast p q) : q.depth = p.depth := by
  obtain ⟨ts, l, room, ahead, j, last, depth⟩ := h
  rfl

/-! ## Single steps -/

namespace Shortsighted

protected theorem pure (a : α) : F.Shortsighted (pure a : Parse Roomy α) :=
  ⟨fun h => .ok h, fun h => .ok h⟩

protected theorem bind {x : Parse Roomy α} {f : α → Parse Roomy β} (hx : F.Shortsighted x)
    (hf : ∀ a, F.Shortsighted (f a)) : F.Shortsighted (x >>= f) := by
  have hgone {p : Parser Roomy} (h : F.Gone (x p)) : F.Gone ((x >>= f) p) := by
    rw [bind_apply]
    generalize x p = rx at h
    cases h with
    | ok hpast => exact (hf _).past hpast
    | error he => exact .error he
  refine ⟨fun h => hgone (hx.past h), fun {p q} h => ?_⟩
  have hfork := hx.abreast h
  have hleft : F.Gone (x p) → F.Gone ((x >>= f) p) := hgone
  rw [bind_apply, bind_apply]
  rw [bind_apply] at hleft
  generalize x p = rx, x q = ry at hfork hleft
  cases hfork with
  | ok habreast => exact (hf _).abreast habreast
  | error => exact .error
  | gone h => exact .gone (hleft h)

/-- What the state says is the same on both sides. -/
theorem ask {f : Parser Roomy → Parse Roomy α} (hf : ∀ p, F.Shortsighted (f p))
    (hsame : ∀ p q, SameView p q → f p = f q) : F.Shortsighted (get >>= f) := by
  refine ⟨fun {p} h => ?_, fun {p q} h => ?_⟩
  · rw [bind_of_ok (get_apply p)]
    exact (hf p).past h
  · have hview : SameView p q := by
      obtain ⟨ts, l, room, ahead, j, last, depth⟩ := h
      exact ⟨rfl, rfl, rfl⟩
    rw [bind_of_ok (get_apply p), bind_of_ok (get_apply q), ← hsame p q hview]
    exact (hf p).abreast h

theorem note (n : Note) : F.Shortsighted (onTokens (Lookahead.note n)) := by
  refine ⟨fun h => .ok ⟨h.rest, h.ahead, h.ending⟩, fun h => ?_⟩
  obtain ⟨ts, l, room, ahead, j, last, depth⟩ := h
  exact .ok (.intro ts l room ahead (j.push n) last depth)

theorem misuse (m : Misuse) : F.Shortsighted (throw (.misuse m) : Parse Roomy α) :=
  ⟨fun _ => .error nofun, fun _ => .error⟩

/-- A step that looks at the next token first. -/
theorem peek_bind {f : Option Token → Parse Roomy α}
    (hsome : ∀ t q, t ∈ F.left → q.tokens.ahead = some t → F.Past q → F.Gone (f (some t) q))
    (hnone : ∀ q, F.Past q → F.Gone (f none q))
    (habreast : ∀ t p q, p.tokens.ahead = some t → F.Abreast p q →
      F.Outcome (f (some t) p) (f (some t) q)) : F.Shortsighted (peek >>= f) := by
  have hpast {p : Parser Roomy} (h : F.Past p) : F.Gone ((Parser.peek >>= f) p) := by
    rcases h.peek with ⟨t, q, ht, hpeek, hahead, hq⟩ | ⟨q, hpeek, hq⟩ | ⟨e, q, hpeek, he⟩
    · rw [bind_of_ok hpeek]
      exact hsome t q ht hahead hq
    · rw [bind_of_ok hpeek]
      exact hnone q hq
    · rw [bind_apply, hpeek]
      exact .error (by rw [he]; exact nofun)
  refine ⟨hpast, fun {p q} h => ?_⟩
  rcases h.peek with h | ⟨t, p', q', hp, hq, hahead, h⟩
  · exact .gone (hpast h)
  · rw [bind_of_ok hp, bind_of_ok hq]
    exact habreast t p' q' hahead h

theorem peek : F.Shortsighted peek := by
  rw [← bind_pure Parser.peek]
  exact peek_bind (fun _ _ _ _ h => .ok h) (fun _ h => .ok h) fun _ _ _ _ h => .ok h

/-- What follows a token that is taken may blame it. -/
theorem advance_bind {f : Option Token → Parse Roomy α}
    (hsome : ∀ t q, t ∈ F.left → F.Past q → F.Gone (f (some t) q))
    (hnone : ∀ q, F.Past q → F.Gone (f none q))
    (habreast : ∀ t p q, F.Abreast p q → F.Outcome (f (some t) p) (f (some t) q)) :
    F.Shortsighted (advance >>= f) := by
  rw [advance_eq_peek_bind, bind_assoc]
  refine peek_bind (fun t q ht hahead h => ?_) (fun q h => ?_) fun t p q hahead h => ?_
  · obtain ⟨q', hq, h⟩ := h.advance hahead
    rw [bind_of_ok hq]
    exact hsome t q' ht h
  · exact hnone q h
  · obtain ⟨p', q', hp, hq, h⟩ := h.advance hahead
    rw [bind_of_ok hp, bind_of_ok hq]
    exact habreast t p' q' h

theorem advance : F.Shortsighted advance := by
  rw [← bind_pure Parser.advance]
  exact advance_bind (fun _ _ _ h => .ok h) (fun _ h => .ok h) fun _ _ _ h => .ok h

/-- A failure names the token that has just been looked at. -/
theorem reject (cause : GrammarCause) : F.Shortsighted (reject cause : Parse Roomy α) := by
  refine peek_bind (fun t q ht _ _ => ?_) (fun q _ => .error nofun) fun t p q _ h => ?_
  · exact .error fun u hu => Option.some.inj hu ▸ ht
  · rw [fail, bind_of_ok (get_apply p), bind_of_ok (get_apply q), h.location_eq]
    exact .error

/-- A failure names the token that has just been taken. -/
theorem variableName : F.Shortsighted variableName := by
  refine advance_bind (fun t q ht h => ?_) (fun q _ => .error nofun) fun t p q h => ?_
  · dsimp only
    by_cases hkind : t.kind = .identifier
    · rw [if_pos hkind]
      exact .ok h
    · rw [if_neg hkind]
      exact .error fun u hu => Option.some.inj hu ▸ ht
  · dsimp only
    by_cases hkind : t.kind = .identifier
    · rw [if_pos hkind]
      exact .ok h
    · rw [if_neg hkind, fail, bind_of_ok (get_apply p), bind_of_ok (get_apply q), h.location_eq]
      exact .error

theorem hereditary : Hereditary (Itself F.Shortsighted) where
  pure a := ⟨rfl, .pure a⟩
  bind := Itself.bind Shortsighted.bind
  ask h := Itself.ask h ask
  peek := ⟨rfl, peek⟩
  advance := ⟨rfl, advance⟩
  note _ := ⟨rfl, note _⟩
  reject _ := ⟨rfl, reject _⟩
  variableName := ⟨rfl, variableName⟩
  misuse m := ⟨rfl, misuse m⟩

/-- At the limit the next token is blamed, and below it the step is run one level deeper. -/
theorem nested {x : Parse Roomy α} (hx : F.Shortsighted x) : F.Shortsighted (nested o x) := by
  have hreject : F.Shortsighted (Parser.reject (.tooDeep o.maxDepth) : Parse _ α) := reject _
  have hpast {p : Parser Roomy} (h : F.Past p) : F.Gone (Parser.nested o x p) := by
    by_cases hlimit : o.maxDepth < (p.depth : Int) + 1
    · rw [nested_of_lt hlimit]
      exact hreject.past h
    · have hgone : F.Gone (x p.deeper) := hx.past (h.atDepth _)
      rw [nested_of_le (by omega)]
      generalize x p.deeper = rx at hgone ⊢
      cases hgone with
      | ok h => exact .ok (h.atDepth _)
      | error he => exact .error he
  refine ⟨hpast, fun {p q} h => ?_⟩
  have hdepth := h.depth_eq
  by_cases hlimit : o.maxDepth < (p.depth : Int) + 1
  · rw [nested_of_lt hlimit, nested_of_lt (by omega)]
    exact hreject.abreast h
  · have hfork := hx.abreast h.deeper
    rw [nested_of_le (by omega), nested_of_le (by omega)]
    generalize x p.deeper = rx, x q.deeper = ry at hfork ⊢
    cases hfork with
    | ok h => exact .ok h.ascend
    | error => exact .error
    | gone hgone =>
      cases hgone with
      | ok h => exact .gone (.ok (h.atDepth _))
      | error he => exact .gone (.error he)

/-! ## The grammar -/

theorem expression (o : ParseOptions) : F.Shortsighted (expression o) := by
  have hR : Hereditary (Itself F.Shortsighted) := hereditary
  have hlevels (n : Nat) : F.Shortsighted (expressionAt o n) := by
    refine (hR.levels (fun _ _ hx => hx.imp nested) ?_ n).1.2
    rw [exhausted_eq]
    exact ⟨rfl, reject _⟩
  refine ⟨fun {p} h => (hlevels (p.levels o)).past h, fun {p q} h => ?_⟩
  have hsame : q.levels o = p.levels o := by rw [levels, levels, h.depth_eq]
  rw [Parser.expression, Parser.expression, hsame]
  exact (hlevels (p.levels o)).abreast h

theorem program (o : ParseOptions) : F.Shortsighted (program o) :=
  (hereditary.program ⟨rfl, expression o⟩).2

end Shortsighted
end Fork

/-! ## Records -/

/-- A failure at a token that stands among the shared ones only is the same whatever comes behind them. -/
theorem Replay.parse_of_shared {o : ParseOptions} {ts us us' : List Token} {ending ending' : Ending}
    {start : Location} {e : Failure} {t : Token} (hending : ending.Tokenless)
    (h : Replay.parse o ⟨ts ++ us, ending, start⟩ = .error e) (hfound : e.found? = some t)
    (ht : t ∉ us) : Replay.parse o ⟨ts ++ us', ending', start⟩ = .error e := by
  -- Both records pass for one as long as the longer of them.
  let F : Fork := ⟨us, ending, us', ending', hending⟩
  let room := max (ts ++ us).length (ts ++ us').length
  let r : Roomy := ⟨⟨ts ++ us, ending, start⟩, room⟩
  let r' : Roomy := ⟨⟨ts ++ us', ending', start⟩, room⟩
  have hread : (TokenSource.read o r).result = .error e :=
    (parse_eq_roomy o (Nat.le_max_left _ _)).trans h
  rw [← parse_eq_roomy o (Nat.le_max_right _ _ : _ ≤ room)]
  have habreast : F.Abreast (.ofSource r) (.ofSource r') := .intro ts start room none #[] none 0
  have hfork := (Fork.Shortsighted.program o).abreast habreast
  show (TokenSource.read o r').result = .error e
  rw [TokenSource.read] at hread ⊢
  generalize Parser.program o (.ofSource r) = rx, Parser.program o (.ofSource r') = ry at hread hfork ⊢
  cases hfork with
  | ok => cases hread
  | error => exact hread
  | gone hgone =>
    cases hgone with
    | ok => cases hread
    | error he =>
      obtain rfl := Except.error.inj hread
      exact absurd (he t hfound) ht

end LambdaReader
