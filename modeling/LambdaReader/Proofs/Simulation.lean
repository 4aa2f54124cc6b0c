import Mathlib.Data.List.Forall2
import LambdaReader.Proofs.Stream
import LambdaReader.Proofs.Relocation

/-!
# `Proofs.Simulation` — parsers on sources that cannot be told apart

Two token sources are related if they give the same tokens up to locations and end alike. A parser on
the one then does what it does on the other: they give the same node or fail alike, up to locations. A
`Simulation` may also waive failures of scanning on the left, after which nothing is said of the right.

The judgement is `Alike`, on two runs from related states. It is closed under sequencing, and every form
of the grammar has it: the proofs follow the program, and nothing is said of what it reads. A count of
the tokens that a step takes at least goes along with it, since the loops of the two sides have different
fuel.
-/

namespace LambdaReader

open TokenSource Step

/-- Two kinds of token source that a parser cannot tell apart but for locations. -/
structure Simulation (σ τ : Type) [TokenSource σ] [TokenSource τ] where
  /-- The sources that are alike. -/
  sources : σ → τ → Prop
  /-- The location on the right of one on the left. -/
  place : Location → Location
  /-- What is known of the tokens on the left. -/
  token : Token → Prop
  /-- What is known of the place where the left ends. -/
  ends : Location → Prop
  /-- The failures of scanning that both have. -/
  broken : Failure → Prop
  /-- The failures of scanning on the left after which the right may do anything. -/
  waived : Failure → Prop
  location_eq {r : σ} {s : τ} : sources r s → location s = place (location r)
  bound_le {r : σ} {s : τ} : sources r s → bound r ≤ bound s
  scan_token {r r' : σ} {s : τ} {t : Token} : sources r s → scan r = .ok (some t) r' →
    token t ∧ ∃ s', scan s = .ok (some (t.relocate place)) s' ∧ sources r' s'
  scan_end {r r' : σ} {s : τ} : sources r s → scan r = .ok none r' →
    ends (location r') ∧ ∃ s', scan s = .ok none s' ∧ sources r' s'
  scan_error {r r' : σ} {s : τ} {e : Failure} : sources r s → scan r = .error e r' →
    waived e ∨ broken e ∧ ∃ s', scan s = .error (e.relocate place) s'

namespace Simulation

variable {σ τ α α' β β' : Type} [TokenSource σ] [TokenSource τ] (S : Simulation σ τ)

/-! ## States and outcomes -/

/-- Parsers in the same state up to locations. -/
structure Parsers (p : Parser σ) (q : Parser τ) : Prop where
  sources : S.sources p.tokens.source q.tokens.source
  ahead : q.tokens.ahead = p.tokens.ahead.map (Token.relocate S.place)
  last : q.last = p.last.map (Token.relocate S.place)
  depth : q.depth = p.depth
  known {t : Token} : p.tokens.ahead = some t → S.token t ∧ location p.tokens.source = t.stop

/-- Why a parser may fail: in scanning, by the grammar just behind the token it has found or at the end, or
at a number that stands for none. -/
inductive Stops : Failure → Prop where
  | broken {e : Failure} : S.broken e → Stops e
  | found {cause : GrammarCause} {t : Token} : S.token t → Stops (.grammar cause (some t) t.stop)
  | ended {cause : GrammarCause} {l : Location} : S.ends l → Stops (.grammar cause none l)
  | misused {t : Token} : S.token t → t.kind = .number → t.number? = none →
    Stops (.misuse (.notANumeral t.text))

/-- Both runs succeed alike, with at least `k` of at most `n` tokens taken, or both fail alike, or the
failure on the left is waived. -/
inductive Outcome (n k : Nat) (A : α → α' → Prop) :
    EStateM.Result Failure (Parser σ) α → EStateM.Result Failure (Parser τ) α' → Prop where
  | ok {a : α} {b : α'} {p : Parser σ} {q : Parser τ} :
    A a b → S.Parsers p q → p.tokens.bound + k ≤ n → Outcome n k A (.ok a p) (.ok b q)
  | failed {e : Failure} {p : Parser σ} {q : Parser τ} :
    S.Stops e → Outcome n k A (.error e p) (.error (e.relocate S.place) q)
  | waived {e : Failure} {p : Parser σ} {result : EStateM.Result Failure (Parser τ) α'} :
    S.waived e → Outcome n k A (.error e p) result

/-- From related states with at most `n` tokens left, of which `pre` holds on the left, the runs end
alike. -/
def Alike (pre : Parser σ → Prop) (n k : Nat) (A : α → α' → Prop) (x : Parse σ α) (y : Parse τ α') :
    Prop :=
  ∀ p q, S.Parsers p q → pre p → p.tokens.bound ≤ n → S.Outcome n k A (x p) (y q)

/-- Nothing is known of the state. -/
def anyState (_ : Parser σ) : Prop := True

variable {S}

/-- Parsers that have not looked at their next token. -/
theorem Parsers.unseen {r : σ} {s : τ} (h : S.sources r s) (jr js : Array Note) {last last' : Option Token}
    (hlast : last' = last.map (Token.relocate S.place)) (depth : Nat) :
    S.Parsers ⟨⟨r, none, jr⟩, last, depth⟩ ⟨⟨s, none, js⟩, last', depth⟩ where
  sources := h
  ahead := rfl
  last := hlast
  depth := rfl
  known := by
    rintro t ⟨⟩

theorem Outcome.mono {n m i k : Nat} {A : α → α' → Prop} {x : EStateM.Result Failure (Parser σ) α}
    {y : EStateM.Result Failure (Parser τ) α'} (h : S.Outcome n i A x y)
    (hk : ∀ b, b + i ≤ n → b + k ≤ m) : S.Outcome m k A x y := by
  cases h with
  | ok ha hpq hb => exact .ok ha hpq (hk _ hb)
  | failed he => exact .failed he
  | waived he => exact .waived he

namespace Alike

variable {pre : Parser σ → Prop} {n i j k : Nat} {A : α → α' → Prop} {B : β → β' → Prop}
  {x : Parse σ α} {y : Parse τ α'}

theorem weaken {pre' : Parser σ → Prop} (h : S.Alike pre n i A x y) (hpre : ∀ p, pre' p → pre p)
    (hk : k ≤ i) : S.Alike pre' n k A x y := by
  intro p q hpq hp hn
  have hout := h p q hpq (hpre p hp) hn
  exact hout.mono fun b hb => by omega

protected theorem pure {a : α} {b : α'} (h : A a b) : S.Alike pre n 0 A (pure a) (pure b) := by
  intro p q hpq _ hn
  exact .ok h hpq hn

/-- What holds from any state holds from the states that `pre` picks out. -/
theorem any (h : S.Alike anyState n k A x y) : S.Alike pre n k A x y :=
  h.weaken (fun _ _ => trivial) (Nat.le_refl k)

/-- It does no harm not to count the tokens that are taken. -/
theorem uncounted (h : S.Alike pre n k A x y) : S.Alike pre n 0 A x y :=
  h.weaken (fun _ hp => hp) (Nat.zero_le k)

/-- Runs of two steps are alike if the runs of each step are. -/
protected theorem bind {f : α → Parse σ β} {g : α' → Parse τ β'} (hx : S.Alike pre n i A x y)
    (hf : ∀ m a b, m + i ≤ n → A a b → S.Alike anyState m j B (f a) (g b)) (hk : k ≤ i + j) :
    S.Alike pre n k B (x >>= f) (y >>= g) := by
  intro p q hpq hp hn
  have hout := hx p q hpq hp hn
  rw [bind_apply, bind_apply]
  generalize x p = rx, y q = ry at hout
  cases hout with
  | failed he => exact .failed he
  | waived he => exact .waived he
  | @ok a b p' q' hab hpq' hb =>
    -- At least `i` tokens are gone when the second step starts.
    have hout' := hf (n - i) a b (by omega) hab p' q' hpq' trivial (by omega)
    exact hout'.mono fun b hb => by omega

end Alike

/-! ## Single steps -/

namespace Alike

open LambdaReader.Parser

variable {pre : Parser σ → Prop} {n i j k : Nat} {B : β → β' → Prop}

/-- A step ends at a token or at the end, and it is known where. -/
theorem peek_bind [LawfulTokenSource σ] {f : Option Token → Parse σ β} {g : Option Token → Parse τ β'}
    (hsome : ∀ t, S.token t → S.Alike (fun p => p.tokens.ahead = some t) n k B (f (some t))
      (g (some (t.relocate S.place))))
    (hnone : S.Alike (fun p => S.ends p.location) n k B (f none) (g none)) :
    S.Alike pre n k B (peek >>= f) (peek >>= g) := by
  rintro ⟨⟨r, ahead, jr⟩, last, depth⟩ ⟨⟨s, ahead', js⟩, last', depth'⟩ hpq _ hn
  obtain rfl : depth = depth' := hpq.depth.symm
  cases ahead with
  | some t =>
    -- Both sides have looked at their next token before.
    obtain rfl : ahead' = some (t.relocate S.place) := hpq.ahead
    rw [bind_apply, bind_apply, peek, peek, onTokens, onTokens, Lookahead.peek_of_ahead rfl,
      Lookahead.peek_of_ahead rfl]
    exact hsome t (hpq.known rfl).1 _ _ hpq rfl hn
  | none =>
    -- Both sides scan, and the simulation says how that ends.
    obtain rfl : ahead' = none := hpq.ahead
    rw [bind_apply, bind_apply, peek, peek, onTokens, onTokens, Lookahead.peek_of_none,
      Lookahead.peek_of_none]
    cases hscan : scan r with
    | error e r' =>
      rcases S.scan_error hpq.sources hscan with hw | ⟨he, s', hs⟩
      · exact .waived hw
      · rw [hs]
        exact .failed (.broken he)
    | ok found r' =>
      cases found with
      | none =>
        obtain ⟨hends, s', hs, hsources⟩ := S.scan_end hpq.sources hscan
        have hle := (LawfulTokenSource.scan_none hscan).1
        rw [hs]
        exact hnone _ _ (.unseen hsources jr js hpq.last _) hends (Nat.le_trans hle hn)
      | some t =>
        obtain ⟨ht, s', hs, hsources⟩ := S.scan_token hpq.sources hscan
        obtain ⟨hlt, hlocation⟩ := LawfulTokenSource.scan_some hscan
        rw [hs]
        refine hsome t ht _ _ ⟨hsources, rfl, hpq.last, hpq.depth, ?_⟩ rfl (Nat.le_trans hlt hn)
        rintro u ⟨⟩
        exact ⟨ht, hlocation⟩

theorem advance_known {t : Token} {f : Option Token → Parse σ β} {g : Option Token → Parse τ β'}
    (h : ∀ m, m + 1 ≤ n → S.Alike (fun p => p.location = t.stop) m j B (f (some t))
      (g (some (t.relocate S.place))))
    (hk : k ≤ 1 + j) :
    S.Alike (fun p => p.tokens.ahead = some t) n k B (advance >>= f) (advance >>= g) := by
  rintro ⟨⟨r, ahead, jr⟩, last, depth⟩ ⟨⟨s, ahead', js⟩, last', depth'⟩ hpq hahead hn
  obtain rfl : ahead = some t := hahead
  obtain rfl : ahead' = some (t.relocate S.place) := hpq.ahead
  obtain rfl : depth = depth' := hpq.depth.symm
  rw [bind_of_ok (advance_of_ahead rfl), bind_of_ok (advance_of_ahead rfl)]
  have hpq' : S.Parsers (⟨⟨r, none, jr⟩, some t, depth⟩ : Parser σ)
      ⟨⟨s, none, js⟩, some (t.relocate S.place), depth⟩ :=
    .unseen hpq.sources jr js rfl depth
  have hbound : bound r + 1 ≤ n := hn
  have hle : bound r ≤ n - 1 := by omega
  have hout := h (n - 1) (by omega) _ _ hpq' (hpq.known rfl).2 hle
  exact hout.mono fun b hb => by omega

/-- A token that has not been looked at is taken as if it had been. -/
theorem advance_bind [LawfulTokenSource σ] {f : Option Token → Parse σ β}
    {g : Option Token → Parse τ β'}
    (hsome : ∀ t m, S.token t → m + 1 ≤ n →
      S.Alike (fun p => p.location = t.stop) m j B (f (some t)) (g (some (t.relocate S.place))))
    (hnone : S.Alike (fun p => S.ends p.location) n k B (f none) (g none)) (hk : k ≤ 1 + j) :
    S.Alike pre n k B (advance >>= f) (advance >>= g) := by
  rw [advance_eq_peek_bind (σ := σ), advance_eq_peek_bind (σ := τ), bind_assoc, bind_assoc]
  refine peek_bind (fun t ht => ?_) ?_
  · exact advance_known (fun m hm => hsome t m ht hm) hk
  · rw [pure_bind, pure_bind]
    exact hnone

/-- A branch on the kind and the text of the next token. -/
theorem isAt_bind [LawfulTokenSource σ] {kind : TokenKind} {text : String} {f : Bool → Parse σ β}
    {g : Bool → Parse τ β'}
    (htrue : ∀ t, S.token t → S.Alike (fun p => p.tokens.ahead = some t) n k B (f true) (g true))
    (hfalse : S.Alike anyState n k B (f false) (g false)) :
    S.Alike pre n k B (isAt kind text >>= f) (isAt kind text >>= g) := by
  rw [isAt, isAt, bind_assoc, bind_assoc]
  refine peek_bind (fun t ht => ?_) ?_
  · rw [pure_bind, pure_bind, Option.any_some, Option.any_some, Token.relocate_kind,
      Token.relocate_hasText]
    cases decide (t.kind = kind) && t.hasText text with
    | false => exact hfalse.any
    | true => exact htrue t ht
  · rw [pure_bind, pure_bind]
    exact hfalse.any

/-- A branch on whether a token is left. -/
theorem atEnd_bind [LawfulTokenSource σ] {f : Bool → Parse σ β} {g : Bool → Parse τ β'}
    (htrue : S.Alike (fun p => S.ends p.location) n k B (f true) (g true))
    (hfalse : S.Alike anyState n k B (f false) (g false)) :
    S.Alike pre n k B (atEnd >>= f) (atEnd >>= g) := by
  rw [atEnd_eq, atEnd_eq, bind_assoc, bind_assoc]
  refine peek_bind (fun t _ => ?_) ?_
  · rw [pure_bind, pure_bind]
    exact hfalse.any
  · rw [pure_bind, pure_bind]
    exact htrue

/-- What the state says is the same on both sides up to locations. -/
theorem get_bind {f : Parser σ → Parse σ β} {g : Parser τ → Parse τ β'}
    (h : ∀ p q, S.Parsers p q → S.Alike pre n k B (f p) (g q)) :
    S.Alike pre n k B (get >>= f) (get >>= g) := by
  intro p q hpq hp hn
  rw [bind_of_ok (get_apply p), bind_of_ok (get_apply q)]
  exact h p q hpq p q hpq hp hn

theorem location_eq {p : Parser σ} {q : Parser τ} (h : S.Parsers p q) :
    q.location = S.place p.location :=
  S.location_eq h.sources

theorem bound_le {p : Parser σ} {q : Parser τ} (h : S.Parsers p q) :
    p.tokens.bound ≤ q.tokens.bound := by
  have hle := S.bound_le h.sources
  have hahead : q.tokens.ahead.toList.length = p.tokens.ahead.toList.length := by
    rw [h.ahead, Option.length_toList, Option.length_toList, Option.isSome_map]
  rw [Lookahead.bound, Lookahead.bound, hahead]
  omega

/-- What the state says holds for a run that takes none of its tokens for granted. -/
theorem get_bind_bound {f : Parser σ → Parse σ β} {g : Parser τ → Parse τ β'}
    (h : ∀ p q, S.Parsers p q → S.Alike pre p.tokens.bound k B (f p) (g q)) :
    S.Alike pre n k B (get >>= f) (get >>= g) := by
  intro p q hpq hp hn
  rw [bind_of_ok (get_apply p), bind_of_ok (get_apply q)]
  have hout := h p q hpq p q hpq hp (Nat.le_refl _)
  exact hout.mono fun b hb => by omega

/-- A failure that the grammar explains is the same on both sides. -/
protected theorem fail {A : α → α' → Prop} {cause : GrammarCause} (found : Option Token)
    (h : ∀ p q, S.Parsers p q → pre p → S.Stops (.grammar cause found p.location)) :
    S.Alike pre n k A (Parser.fail cause found)
      (Parser.fail cause (found.map (Token.relocate S.place))) := by
  intro p q hpq hp _
  rw [Parser.fail, Parser.fail, bind_of_ok (get_apply p), bind_of_ok (get_apply q), throw_apply,
    throw_apply, location_eq hpq]
  exact .failed (h p q hpq hp)

theorem reject [LawfulTokenSource σ] {A : α → α' → Prop} (cause : GrammarCause) :
    S.Alike pre n k A (Parser.reject cause) (Parser.reject cause) := by
  unfold Parser.reject
  refine peek_bind (fun t ht => ?_) ?_
  · refine Alike.fail (some t) fun p q hpq hp => ?_
    have hlocation : p.location = t.stop := (hpq.known hp).2
    rw [hlocation]
    exact .found ht
  · exact Alike.fail none fun p q hpq hp => .ended hp

/-- A certain token is demanded on both sides and found on both or on neither. -/
theorem skip [LawfulTokenSource σ] (kind : TokenKind) (text : String) :
    S.Alike pre n 1 (fun _ _ => True) (Parser.skip kind text) (Parser.skip kind text) := by
  unfold Parser.skip
  refine isAt_bind (fun t _ => ?_) (reject _)
  exact advance_known (j := 0) (fun m _ => .pure trivial) (Nat.le_refl _)

theorem skip_bind [LawfulTokenSource σ] {kind : TokenKind} {text : String} {f : Unit → Parse σ β}
    {g : Unit → Parse τ β'} (h : ∀ m, m + 1 ≤ n → S.Alike anyState m j B (f ()) (g ()))
    (hk : k ≤ 1 + j) :
    S.Alike pre n k B (Parser.skip kind text >>= f) (Parser.skip kind text >>= g) :=
  (skip kind text).bind (fun m _ _ hm _ => h m hm) hk

theorem startLocation_bind [LawfulTokenSource σ] {f : Location → Parse σ β}
    {g : Location → Parse τ β'} (h : ∀ l, S.Alike anyState n k B (f l) (g (S.place l))) :
    S.Alike pre n k B (startLocation >>= f) (startLocation >>= g) := by
  rw [startLocation, startLocation, bind_assoc, bind_assoc]
  refine peek_bind (fun t _ => ?_) ?_
  · simp only [pure_bind]
    exact (h t.location).any
  · simp only [bind_assoc, pure_bind]
    refine get_bind fun p q hpq => ?_
    rw [location_eq hpq]
    exact (h p.location).any

theorem spanFrom_bind {first : Location} {f : Span → Parse σ β} {g : Span → Parse τ β'}
    (h : ∀ s, S.Alike pre n k B (f s) (g (s.relocate S.place))) :
    S.Alike pre n k B (spanFrom first >>= f) (spanFrom (S.place first) >>= g) := by
  rw [spanFrom, spanFrom, bind_assoc, bind_assoc]
  refine get_bind fun p q hpq => ?_
  rw [pure_bind, pure_bind, hpq.last]
  have hspan : (⟨S.place first,
      ((p.last.map (Token.relocate S.place)).map Token.location).getD (S.place first)⟩ : Span) =
      Span.relocate S.place ⟨first, (p.last.map Token.location).getD first⟩ := by
    cases p.last <;> rfl
  rw [hspan]
  exact h _

theorem note_bind {a b : Note} {f : Unit → Parse σ β} {g : Unit → Parse τ β'}
    (h : S.Alike anyState n k B (f ()) (g ())) :
    S.Alike pre n k B (onTokens (Lookahead.note a) >>= f) (onTokens (Lookahead.note b) >>= g) := by
  intro p q hpq _ hn
  let p' : Parser σ := { p with tokens := { p.tokens with journal := p.tokens.journal.push a } }
  let q' : Parser τ := { q with tokens := { q.tokens with journal := q.tokens.journal.push b } }
  have hpq' : S.Parsers p' q' := ⟨hpq.sources, hpq.ahead, hpq.last, hpq.depth, hpq.known⟩
  exact h p' q' hpq' trivial hn

/-- Both sides are at the same depth, so both are too deep or neither is. -/
theorem descend [LawfulTokenSource σ] (o : ParseOptions) :
    S.Alike pre n 0 (fun _ _ => True) (Parser.descend o) (Parser.descend o) := by
  intro p q hpq _ hn
  have hdown : S.Parsers { p with depth := p.depth + 1 } { q with depth := q.depth + 1 } :=
    ⟨hpq.sources, hpq.ahead, hpq.last, congrArg Nat.succ hpq.depth, hpq.known⟩
  rw [Parser.descend, Parser.descend, bind_of_ok (modify_apply _ p), bind_of_ok (modify_apply _ q),
    bind_of_ok (get_apply _), bind_of_ok (get_apply _)]
  have hdepth : (o.maxDepth < ↑(q.depth + 1)) ↔ o.maxDepth < ↑(p.depth + 1) := by rw [hpq.depth]
  by_cases hdeep : o.maxDepth < ↑(p.depth + 1)
  · rw [if_pos hdeep, if_pos (hdepth.mpr hdeep)]
    have hreject : S.Alike anyState n 0 (fun (_ _ : Unit) => True) (Parser.reject _)
        (Parser.reject _) := reject (.tooDeep o.maxDepth)
    exact hreject _ _ hdown trivial hn
  · rw [if_neg hdeep, if_neg (hdeep ∘ hdepth.mp)]
    exact .ok trivial hdown hn

theorem nested [LawfulTokenSource σ] {o : ParseOptions} {A : α → α' → Prop} {x : Parse σ α}
    {y : Parse τ α'} (h : ∀ m, S.Alike anyState m k A x y) :
    S.Alike pre n k A (Parser.nested o x) (Parser.nested o y) := by
  intro p q hpq hp hn
  have hbody : S.Alike pre n k A (Parser.descend o >>= fun _ => x)
      (Parser.descend o >>= fun _ => y) :=
    (descend o).bind (fun m _ _ _ _ => h m) (Nat.le_add_left k 0)
  have hout := hbody p q hpq hp hn
  unfold Parser.nested
  generalize (Parser.descend o >>= fun _ => x) p = rx,
    (Parser.descend o >>= fun _ => y) q = ry at hout
  cases hout with
  | failed he => exact .failed he
  | waived he => exact .waived he
  | @ok a b p' q' ha hpq' hb =>
    have hup : S.Parsers p'.ascend q'.ascend :=
      ⟨hpq'.sources, hpq'.ahead, hpq'.last, congrArg (· - 1) hpq'.depth, hpq'.known⟩
    exact .ok ha hup hb

end Alike

/-! ## Trees -/

variable (S) in
/-- The tree on the right is that on the left up to locations, and it has a span. -/
structure Copies (a : Node) (b : Node) : Prop where
  eq : b = a.relocate S.place
  spanned : a.span.isSome = true

theorem Copies.relocateAll {as bs : List Node} (h : List.Forall₂ S.Copies as bs) :
    bs = Node.relocateAll S.place as := by
  induction h with
  | nil => rfl
  | cons hab _ ih => rw [Node.relocateAll, ← hab.eq, ← ih]

namespace Alike

variable [LawfulTokenSource σ] {pre : Parser σ → Prop} {n k : Nat} {o : ParseOptions}
  {B : β → β' → Prop}

omit [LawfulTokenSource σ] in
theorem spanOf_bind {a b : Node} {f : Span → Parse σ β} {g : Span → Parse τ β'} (hab : S.Copies a b)
    (h : ∀ s, S.Alike pre n k B (f s) (g (s.relocate S.place))) :
    S.Alike pre n k B (Parser.spanOf a >>= f) (Parser.spanOf b >>= g) := by
  obtain ⟨s, hs⟩ := Option.isSome_iff_exists.mp hab.spanned
  have hleft : (Parser.spanOf a : Parse σ Span) = pure s := by rw [Parser.spanOf, hs]
  have hright : (Parser.spanOf b : Parse τ Span) = pure (s.relocate S.place) := by
    rw [Parser.spanOf, hab.eq, Node.span_relocate, hs]
    rfl
  rw [hleft, hright, pure_bind, pure_bind]
  exact h s

/-! ## Sequences -/

theorem anotherItem {stop separator : String} {first : Bool} :
    S.Alike anyState n 0 Eq (Parser.anotherItem o stop separator first)
      (Parser.anotherItem o stop separator first) := by
  unfold Parser.anotherItem
  by_cases hfirst : first = true
  · rw [if_pos hfirst, if_pos hfirst]
    exact .pure rfl
  · rw [if_neg hfirst, if_neg hfirst]
    refine skip_bind (j := 0) (fun m _ => ?_) (Nat.zero_le _)
    by_cases htrailing : o.trailingSeparators = true
    · rw [if_pos htrailing, if_pos htrailing]
      exact isAt_bind (fun _ _ => .pure rfl) (.pure rfl)
    · rw [if_neg htrailing, if_neg htrailing]
      exact .pure rfl

/-- Fuel that the tokens cannot use up makes no difference. -/
theorem items {stop separator : String} {A : α → α' → Prop} {x : Parse σ α} {y : Parse τ α'}
    (hx : ∀ m, S.Alike anyState m 1 A x y) {b c : Nat} {first : Bool} (hb : n < b) (hc : n < c) :
    S.Alike anyState n 0 (List.Forall₂ A) (Parser.items o stop separator x b first)
      (Parser.items o stop separator y c first) := by
  induction b generalizing n c first with
  | zero => cases hb
  | succ b ih =>
    -- An item takes a token, so less fuel is enough for the items after it on both sides.
    obtain ⟨c, rfl⟩ := Nat.exists_eq_succ_of_ne_zero (Nat.ne_zero_of_lt hc)
    unfold Parser.items
    refine atEnd_bind (.pure .nil) (isAt_bind (fun _ _ => .pure .nil) ?_)
    refine anotherItem.bind (j := 0) (fun m another another' _ hanother => ?_) (Nat.le_refl _)
    obtain rfl := hanother
    cases another with
    | false => exact .pure .nil
    | true =>
      refine (hx m).bind (j := 0) (fun l a a' hl ha => ?_) (Nat.zero_le _)
      refine (ih (by omega) (by omega)).bind (j := 0) (fun _ as as' _ has => ?_) (Nat.le_refl _)
      exact .pure (.cons ha has)

theorem delimited {start stop separator : String} {A : α → α' → Prop} {x : Parse σ α}
    {y : Parse τ α'} (hx : ∀ m, S.Alike anyState m 1 A x y) :
    S.Alike pre n 1 (List.Forall₂ A) (Parser.delimited o start stop separator x)
      (Parser.delimited o start stop separator y) := by
  unfold Parser.delimited
  refine skip_bind (j := 0) (fun m _ => ?_) (Nat.le_refl _)
  refine get_bind_bound fun p q hpq => ?_
  have hle := bound_le hpq
  refine (items hx (Nat.lt_succ_self _) (Nat.lt_succ_of_le hle)).bind (j := 0)
    (fun _ as as' _ has => ?_) (Nat.le_refl _)
  exact skip_bind (j := 0) (fun _ _ => .pure has) (Nat.zero_le _)

/-! ## Atoms -/

theorem variableName : S.Alike pre n 1 Eq Parser.variableName Parser.variableName := by
  unfold Parser.variableName
  refine advance_bind (j := 0) (fun t m ht _ => ?_) ?_ (Nat.le_refl _)
  · dsimp only
    rw [Token.relocate_kind]
    by_cases hkind : t.kind = .identifier
    · rw [if_pos hkind, if_pos hkind]
      exact .pure rfl
    · rw [if_neg hkind, if_neg hkind]
      refine Alike.fail (some t) fun p _ _ hp => ?_
      rw [hp]
      exact .found ht
  · exact Alike.fail none fun _ _ _ hp => .ended hp

omit [LawfulTokenSource σ] in
theorem boolean {t : Token} :
    S.Alike (fun p => p.tokens.ahead = some t) n 1 S.Copies Parser.boolean Parser.boolean := by
  unfold Parser.boolean
  refine advance_known (j := 0) (fun m _ => ?_) (Nat.le_refl _)
  exact spanFrom_bind fun s => .pure ⟨rfl, rfl⟩

omit [LawfulTokenSource σ] in
theorem leafNode {t : Token} (ht : S.token t) (s : Span) :
    S.Alike pre n 0 S.Copies (Parser.leafNode t s)
      (Parser.leafNode (t.relocate S.place) (s.relocate S.place)) := by
  rw [Parser.leafNode, Parser.leafNode, Token.relocate_kind]
  cases hkind : t.kind with
  | number =>
    dsimp only
    rw [Token.relocate_number?, Token.relocate_text]
    cases hv : t.number? with
    | some v => exact .pure ⟨rfl, rfl⟩
    | none => exact fun _ _ _ _ _ => .failed (.misused ht hkind hv)
  | _ => exact .pure ⟨rfl, rfl⟩

theorem leaf : S.Alike pre n 1 S.Copies Parser.leaf Parser.leaf := by
  unfold Parser.leaf
  refine peek_bind (fun t ht => ?_) (reject _)
  dsimp only
  rw [Token.relocate_kind]
  by_cases hkind : t.kind = .punctuation ∨ t.kind = .keyword
  · rw [if_pos hkind, if_pos hkind]
    exact reject _
  · rw [if_neg hkind, if_neg hkind]
    refine advance_known (j := 0) (fun m _ => ?_) (Nat.le_refl _)
    exact spanFrom_bind fun s => leafNode ht s

section Forms

variable {expr : Parse σ Node} {expr' : Parse τ Node}
  (hexpr : ∀ m, S.Alike anyState m 1 S.Copies expr expr')

include hexpr

theorem callWith {f g : Node} (hfg : S.Copies f g) :
    S.Alike pre n 1 S.Copies (Parser.callWith o expr f) (Parser.callWith o expr' g) := by
  unfold Parser.callWith
  refine (delimited hexpr).bind (j := 0) (fun m as as' _ has => ?_) (Nat.le_refl _)
  refine spanOf_bind hfg fun s => spanFrom_bind fun s' => .pure ⟨?_, rfl⟩
  rw [Node.relocate, ← Copies.relocateAll has, ← hfg.eq]
  rfl

theorem maybeCallWith {f g : Node} (hfg : S.Copies f g) :
    S.Alike pre n 0 S.Copies (Parser.maybeCallWith o expr f) (Parser.maybeCallWith o expr' g) := by
  unfold Parser.maybeCallWith
  exact isAt_bind (fun _ _ => (callWith hexpr hfg).uncounted) (.pure hfg)

omit hexpr in
theorem skipThen : S.Alike pre n 0 (fun _ _ => True) Parser.skipThen Parser.skipThen := by
  unfold Parser.skipThen
  exact isAt_bind (fun _ _ => .pure trivial) (skip _ _).uncounted

theorem conditionalWith :
    S.Alike pre n 1 S.Copies (Parser.conditionalWith expr) (Parser.conditionalWith expr') := by
  unfold Parser.conditionalWith
  refine startLocation_bind fun start => skip_bind (j := 0) (fun m _ => ?_) (Nat.le_refl _)
  refine (hexpr m).bind (j := 0) (fun m c c' _ hc => ?_) (Nat.zero_le _)
  refine skipThen.bind (j := 0) (fun m _ _ _ _ => ?_) (Nat.le_refl _)
  refine (hexpr m).bind (j := 0) (fun m a a' _ ha => ?_) (Nat.zero_le _)
  refine isAt_bind (fun t _ => ?_) ?_
  · refine advance_known (j := 0) (fun m _ => ?_) (Nat.zero_le _)
    refine (hexpr m).any.bind (j := 0) (fun m b b' _ hb => ?_) (Nat.zero_le _)
    refine spanFrom_bind fun s => .pure ⟨?_, rfl⟩
    rw [Node.relocate, ← hc.eq, ← ha.eq, ← hb.eq]
    rfl
  · refine spanFrom_bind fun s => .pure ⟨?_, rfl⟩
    rw [Node.relocate, ← hc.eq, ← ha.eq]
    rfl

theorem functionWith :
    S.Alike pre n 1 S.Copies (Parser.functionWith o expr) (Parser.functionWith o expr') := by
  unfold Parser.functionWith
  refine startLocation_bind fun start => skip_bind (j := 0) (fun m _ => ?_) (Nat.le_refl _)
  refine (delimited fun _ => variableName).bind (j := 0) (fun m xs xs' _ hxs => ?_) (Nat.zero_le _)
  rw [List.forall₂_eq_eq_eq] at hxs
  obtain rfl := hxs
  refine (hexpr m).bind (j := 0) (fun m b b' _ hb => ?_) (Nat.zero_le _)
  refine spanFrom_bind fun s => .pure ⟨?_, rfl⟩
  rw [Node.relocate, ← hb.eq]
  rfl

theorem blockWith :
    S.Alike pre n 1 S.Copies (Parser.blockWith o expr) (Parser.blockWith o expr') := by
  unfold Parser.blockWith
  refine startLocation_bind fun start => ?_
  refine (delimited hexpr).bind (j := 0) (fun m as as' _ has => ?_) (Nat.le_refl _)
  refine spanFrom_bind fun s => ?_
  cases has with
  | nil => exact .pure ⟨rfl, rfl⟩
  | cons ha has =>
    cases has with
    | nil => exact .pure ha
    | cons hb has =>
      refine .pure ⟨?_, rfl⟩
      rw [Node.relocate, ← Copies.relocateAll (.cons ha (.cons hb has))]
      rfl

theorem groupWith {t : Token} :
    S.Alike (fun p => p.tokens.ahead = some t) n 1 S.Copies (Parser.groupWith expr)
      (Parser.groupWith expr') := by
  unfold Parser.groupWith
  refine advance_known (j := 0) (fun m _ => ?_) (Nat.le_refl _)
  refine (hexpr m).any.bind (j := 0) (fun m a a' _ ha => ?_) (Nat.zero_le _)
  exact skip_bind (j := 0) (fun _ _ => .pure ha) (Nat.zero_le _)

theorem primaryWith :
    S.Alike pre n 1 S.Copies (Parser.primaryWith o expr) (Parser.primaryWith o expr') := by
  unfold Parser.primaryWith
  refine isAt_bind (fun _ _ => groupWith hexpr) ?_
  refine isAt_bind (fun _ _ => blockWith hexpr) ?_
  refine isAt_bind (fun _ _ => conditionalWith hexpr) ?_
  refine isAt_bind (fun _ _ => boolean) ?_
  refine isAt_bind (fun _ _ => boolean) ?_
  exact isAt_bind (fun _ _ => functionWith hexpr) leaf

theorem atomWith : S.Alike pre n 1 S.Copies (Parser.atomWith o expr) (Parser.atomWith o expr') := by
  unfold Parser.atomWith
  exact (primaryWith hexpr).bind (fun _ _ _ _ ha => maybeCallWith hexpr ha) (Nat.le_refl _)

end Forms

/-! ## Operators and expressions -/

/-- A branch on whether the next token is an operator that binds tighter. -/
theorem tighterThan_bind {bound : Int} {f : Option String → Parse σ β}
    {g : Option String → Parse τ β'}
    (hsome : ∀ t : Token, S.Alike (fun p => p.tokens.ahead = some t) n k B (f (some t.text))
      (g (some t.text)))
    (hnone : S.Alike anyState n k B (f none) (g none)) :
    S.Alike pre n k B (Parser.tighterThan bound >>= f) (Parser.tighterThan bound >>= g) := by
  rw [Parser.tighterThan, Parser.tighterThan, bind_assoc, bind_assoc]
  refine peek_bind (fun t _ => ?_) ?_
  · dsimp only
    rw [Token.relocate_kind, Token.relocate_text]
    by_cases ht : t.kind = .operator ∧ bound < (Precedence.ofSymbol t.text).strength
    · rw [if_pos ht, if_pos ht, pure_bind, pure_bind]
      exact hsome t
    · rw [if_neg ht, if_neg ht, pure_bind, pure_bind]
      exact hnone.any
  · rw [pure_bind, pure_bind]
    exact hnone.any

omit [LawfulTokenSource σ] in
theorem join {symbol : String} {l r l' r' : Node} (hl : S.Copies l l') (hr : S.Copies r r') :
    S.Alike pre n 0 S.Copies (Parser.join symbol l r) (Parser.join symbol l' r') := by
  unfold Parser.join
  refine spanOf_bind hl fun s => spanOf_bind hr fun s' => ?_
  by_cases hsymbol : symbol = Node.assignSymbol
  · rw [if_pos hsymbol, if_pos hsymbol]
    refine .pure ⟨?_, rfl⟩
    rw [Node.relocate, ← hl.eq, ← hr.eq]
    rfl
  · rw [if_neg hsymbol, if_neg hsymbol]
    refine .pure ⟨?_, rfl⟩
    rw [Node.relocate, ← hl.eq, ← hr.eq]
    rfl

theorem exhausted {A : α → α' → Prop} :
    S.Alike pre n k A (Parser.exhausted o) (Parser.exhausted o) :=
  nested fun _ => reject _

/-- Expressions, operands and folds are alike whatever the number of levels left. -/
theorem levels (o : ParseOptions) (d : Nat) :
    (∀ n, S.Alike anyState n 1 S.Copies (Parser.expressionAt o d) (Parser.expressionAt o d)) ∧
    (∀ n bound, S.Alike anyState n 1 S.Copies (Parser.operandAt o d bound)
      (Parser.operandAt o d bound)) ∧
    (∀ n l l' bound, S.Copies l l' → S.Alike anyState n 0 S.Copies (Parser.operatorsAt o d l bound)
      (Parser.operatorsAt o d l' bound)) := by
  induction d with
  | zero =>
    refine ⟨fun n => ?_, fun n bound => ?_, fun n l l' bound hl => ?_⟩
    · unfold Parser.expressionAt
      exact exhausted
    · unfold Parser.operandAt
      exact exhausted
    · unfold Parser.operatorsAt
      refine tighterThan_bind (fun t => ?_) (.pure hl)
      exact advance_known (j := 0) (fun _ _ => exhausted) (Nat.zero_le _)
  | succ d ih =>
    obtain ⟨hexpr, hoperand, hoperators⟩ := ih
    refine ⟨fun n => ?_, fun n bound => ?_, fun n l l' bound hl => ?_⟩
    · -- An expression: an atom takes a token, and what comes after it need not.
      unfold Parser.expressionAt
      refine nested fun n => (atomWith hexpr).bind (j := 0) (fun m a a' _ ha => ?_) (Nat.le_refl _)
      refine (hoperators m a a' _ ha).bind (j := 0) (fun m b b' _ hb => ?_) (Nat.le_refl _)
      exact maybeCallWith hexpr hb
    · unfold Parser.operandAt
      refine nested fun n => (atomWith hexpr).bind (j := 0) (fun m a a' _ ha => ?_) (Nat.le_refl _)
      exact hoperators m a a' bound ha
    · unfold Parser.operatorsAt
      refine tighterThan_bind (fun t => ?_) (.pure hl)
      refine advance_known (j := 0) (fun m _ => nested fun n => ?_) (Nat.zero_le _)
      refine (hoperand n _).bind (j := 0) (fun m r r' _ hr => ?_) (Nat.zero_le _)
      refine (join hl hr).bind (j := 0) (fun m w w' _ hw => ?_) (Nat.le_refl _)
      exact hoperators m w w' bound hw

theorem expression (o : ParseOptions) :
    S.Alike pre n 1 S.Copies (Parser.expression o) (Parser.expression o) := by
  intro p q hpq _ hn
  rw [Parser.expression, Parser.expression, Parser.levels, Parser.levels, hpq.depth]
  exact (levels o _).1 n p q hpq trivial hn

/-! ## Programs -/

theorem skipSeparator :
    S.Alike pre n 0 (fun _ _ => True) Parser.skipSeparator Parser.skipSeparator := by
  unfold Parser.skipSeparator
  exact atEnd_bind (.pure trivial) (skip _ _).uncounted

/-- The expressions of a program are read up to the end of the tokens. -/
theorem statements {b c : Nat} (hb : n < b) (hc : n < c) :
    S.Alike anyState n 0 (fun as bs => List.Forall₂ S.Copies as bs ∧ ∃ l, S.ends l)
      (Parser.statements o b) (Parser.statements o c) := by
  induction b generalizing n c with
  | zero => cases hb
  | succ b ih =>
    obtain ⟨c, rfl⟩ := Nat.exists_eq_succ_of_ne_zero (Nat.ne_zero_of_lt hc)
    unfold Parser.statements
    refine atEnd_bind ?_ ?_
    · intro p q hpq hend hn
      exact .ok ⟨.nil, p.location, hend⟩ hpq hn
    · -- An expression takes a token, so less fuel is enough for what comes after it.
      refine (expression o).bind (j := 0) (fun m a a' hm ha => ?_) (Nat.zero_le _)
      refine note_bind (skipSeparator.bind (j := 0) (fun l _ _ hl _ => ?_) (Nat.le_refl _))
      refine (ih (by omega) (by omega)).bind (j := 0) (fun _ as as' _ has => ?_) (Nat.le_refl _)
      exact .pure ⟨.cons ha has.1, has.2⟩

theorem program (o : ParseOptions) :
    S.Alike anyState n 0 (fun a b => S.Copies a b ∧ ∃ l, S.ends l) (Parser.program o)
      (Parser.program o) := by
  unfold Parser.program
  refine get_bind fun p q hpq => ?_
  rw [location_eq hpq]
  refine get_bind_bound fun p q hpq => ?_
  have hle := bound_le hpq
  refine (statements (Nat.lt_succ_self _) (Nat.lt_succ_of_le hle)).bind (j := 0)
    (fun _ as as' _ has => ?_) (Nat.le_refl _)
  refine spanFrom_bind fun s => note_bind (.pure ⟨⟨?_, rfl⟩, has.2⟩)
  rw [Node.relocate, ← Copies.relocateAll has.1]
  rfl

end Alike

/-- Sources that are alike are read alike: as the same program up to locations, if the left one ends
where both do, or with the same failure, if it is not waived. -/
theorem read [LawfulTokenSource σ] {r : σ} {s : τ} (h : S.sources r s) (o : ParseOptions) :
    (∃ a, (TokenSource.read o r).result = .ok a ∧
      (TokenSource.read o s).result = .ok (a.relocate S.place) ∧ ∃ l, S.ends l) ∨
    (∃ e, (TokenSource.read o r).result = .error e ∧ (S.waived e ∨
      S.Stops e ∧ (TokenSource.read o s).result = .error (e.relocate S.place))) := by
  have hparsers : S.Parsers (Parser.ofSource r) (Parser.ofSource s) := .unseen h #[] #[] rfl 0
  have hout := Alike.program o _ _ hparsers trivial (Nat.le_refl _)
  rw [TokenSource.read, TokenSource.read]
  generalize Parser.program o (Parser.ofSource r) = rx,
    Parser.program o (Parser.ofSource s) = ry at hout
  cases hout with
  | ok hab _ _ => exact .inl ⟨_, rfl, congrArg _ hab.1.eq, hab.2⟩
  | failed he => exact .inr ⟨_, rfl, .inr ⟨he, rfl⟩⟩
  | waived he => exact .inr ⟨_, rfl, .inl he⟩

end Simulation
end LambdaReader
