import LambdaReader.Proofs.Depth
import LambdaReader.Proofs.Refusal

/-!
# `Proofs.Watching` — the states that a scanner goes through

A run tells what it gives and which state it leaves, but not the states between. So a token source is
watched: it does what the source does and remembers the state before each scan. Whoever uses a watched
source cannot tell it from the source itself, however the run ends, so the states it remembers are those of
the run on the source.

What one scan keeps, requests to a lookahead keep and calls of a parser. Of a watched scanner each scan
keeps that its states stand in a row where each is reached from all before it by reading on.

## Main results
- `Lookahead.replies_unwatched`, `Lookahead.after_unwatched` and `Parser.program_unwatched`: what is watched
  is the run itself;
- `Lookahead.keeps_after` and `Parser.Offered.keepsSource`: what a run keeps if each scan keeps it;
- `Watched.keeps_onward`: the states of a scanner.
-/

namespace LambdaReader

open TokenSource

/-! ## States and what is made of them -/

namespace Step

variable {ε σ τ α β : Type}

/-- The state that is left, by a success or by a failure. -/
def left : EStateM.Result ε σ α → σ
  | .ok _ s => s
  | .error _ s => s

/-- The same outcome with what `f` makes of the state. -/
def mapState (f : τ → σ) : EStateM.Result ε τ α → EStateM.Result ε σ α
  | .ok a s => .ok a (f s)
  | .error e s => .error e (f s)

/-- On what `f` makes of a state, the first step does what the second one does on the state. -/
def Mirrors (f : τ → σ) (x : EStateM ε σ α) (y : EStateM ε τ α) : Prop := ∀ s, x (f s) = mapState f (y s)

/-- However it ends, the step leaves a state with `I` if it starts with one. -/
def Keeps (I : σ → Prop) (x : EStateM ε σ α) : Prop := ∀ s, I s → I (left (x s))

theorem left_mapState (f : τ → σ) (r : EStateM.Result ε τ α) : left (mapState f r) = f (left r) := by
  cases r with
  | ok a s => rfl
  | error e s => rfl

namespace Mirrors

variable {f : τ → σ} {x : EStateM ε σ α} {y : EStateM ε τ α}

protected theorem pure (a : α) : Mirrors (ε := ε) f (pure a) (pure a) := fun _ => rfl

protected theorem throw (e : ε) :
    Mirrors f (throw e : EStateM ε σ α) (throw e : EStateM ε τ α) := fun _ => rfl

protected theorem bind {g : α → EStateM ε σ β} {h : α → EStateM ε τ β} (hx : Mirrors f x y)
    (hg : ∀ a, Mirrors f (g a) (h a)) : Mirrors f (x >>= g) (y >>= h) := by
  intro s
  rw [bind_apply, bind_apply, hx s]
  cases y s with
  | ok a s' => exact hg a s'
  | error e s' => rfl

end Mirrors

namespace Keeps

variable {I : σ → Prop} {x : EStateM ε σ α}

protected theorem pure (a : α) : Keeps (ε := ε) I (pure a) := fun _ hs => hs

protected theorem bind {f : α → EStateM ε σ β} (hx : Keeps I x) (hf : ∀ a, Keeps I (f a)) :
    Keeps I (x >>= f) := by
  intro s hs
  have hleft := hx s hs
  rw [bind_apply]
  cases hrun : x s with
  | ok a s' =>
    rw [hrun] at hleft
    exact hf a s' hleft
  | error e s' =>
    rw [hrun] at hleft
    exact hleft

end Keeps

end Step

open Step

/-! ## Watched sources -/

/-- A token source with the states it was in. -/
structure Watched (σ : Type) where
  source : σ
  /-- The states before, the last one first. -/
  past : List σ

namespace Watched

variable {σ α : Type}

/-- Nothing was scanned yet. -/
def ofSource (s : σ) : Watched σ := ⟨s, []⟩

/-- All states, the first one first and the present one last. -/
def states (w : Watched σ) : List σ := (w.source :: w.past).reverse

variable [TokenSource σ]

/-- Scans, and remembers the state before. -/
def scan : EStateM Failure (Watched σ) (Option Token) := fun w =>
  match TokenSource.scan w.source with
  | .ok found s => .ok found ⟨s, w.source :: w.past⟩
  | .error e s => .error e ⟨s, w.source :: w.past⟩

instance : TokenSource (Watched σ) where
  scan := Watched.scan
  location w := TokenSource.location w.source
  bound w := TokenSource.bound w.source

theorem scan_of_ok {w : Watched σ} {found : Option Token} {s : σ}
    (h : TokenSource.scan w.source = .ok found s) :
    TokenSource.scan w = .ok found ⟨s, w.source :: w.past⟩ := by
  show Watched.scan w = _
  rw [Watched.scan, h]

theorem scan_of_error {w : Watched σ} {e : Failure} {s : σ}
    (h : TokenSource.scan w.source = .error e s) :
    TokenSource.scan w = .error e ⟨s, w.source :: w.past⟩ := by
  show Watched.scan w = _
  rw [Watched.scan, h]

end Watched

namespace Lookahead

variable {σ α β : Type}

/-- The lookahead on the source that is watched. -/
def unwatched (l : Lookahead (Watched σ)) : Lookahead σ := ⟨l.source.source, l.ahead, l.journal⟩

variable [TokenSource σ]

theorem mirrors_peek : Mirrors (unwatched (σ := σ)) peek peek := by
  rintro ⟨w, ahead, j⟩
  cases ahead with
  | some t => rw [peek_of_ahead rfl, peek_of_ahead rfl, mapState]
  | none =>
    rw [unwatched, peek_of_none, peek_of_none]
    dsimp only
    cases hscan : scan w.source with
    | error e s =>
      rw [Watched.scan_of_error hscan]
      rfl
    | ok found s =>
      rw [Watched.scan_of_ok hscan]
      cases found <;> rfl

theorem mirrors_next : Mirrors (unwatched (σ := σ)) next next := by
  intro l
  rw [next_eq_peek, next_eq_peek, mirrors_peek]
  cases peek l with
  | ok found l' => rfl
  | error e l' => rfl

theorem mirrors_atEnd : Mirrors (unwatched (σ := σ)) atEnd atEnd := mirrors_peek.bind fun _ => .pure _

theorem mirrors_take (n : Nat) : Mirrors (unwatched (σ := σ)) (take n) (take n) := by
  induction n with
  | zero => exact .pure []
  | succ n ih =>
    refine mirrors_atEnd.bind fun done => ?_
    cases done with
    | true => exact .pure []
    | false =>
      refine mirrors_next.bind fun found => ?_
      cases found with
      | none => exact .pure []
      | some t => exact ih.bind fun _ => .pure _

theorem mirrors_ask (r : Request) : Mirrors (unwatched (σ := σ)) (ask r) (ask r) := by
  cases r with
  | peek => exact mirrors_peek.bind fun _ => .pure _
  | next => exact mirrors_next.bind fun _ => .pure _
  | atEnd => exact mirrors_atEnd.bind fun _ => .pure _
  | take n => exact (mirrors_take n).bind fun _ => .pure _
  | toList => exact Mirrors.bind (fun l => mirrors_take (l.bound + 1) l) fun _ => .pure _

/-- Requests to a watched source are answered as by the source. -/
theorem replies_unwatched (rs : List Request) (l : Lookahead (Watched σ)) :
    l.unwatched.replies rs = l.replies rs := by
  induction rs generalizing l with
  | nil => rfl
  | cons r rs ih =>
    rw [replies, replies, mirrors_ask r l]
    cases ask r l with
    | ok a l' => exact congrArg _ (ih l')
    | error e l' => exact congrArg _ (ih l')

theorem after_unwatched (rs : List Request) (l : Lookahead (Watched σ)) :
    l.unwatched.after rs = (l.after rs).unwatched := by
  induction rs generalizing l with
  | nil => rfl
  | cons r rs ih =>
    rw [after, after, mirrors_ask r l]
    cases ask r l with
    | ok a l' => exact ih l'
    | error e l' => exact ih l'

end Lookahead

namespace Parser

variable {σ α β : Type} {o : ParseOptions}

/-- The parser on the source that is watched. -/
def unwatched (p : Parser (Watched σ)) : Parser σ := ⟨p.tokens.unwatched, p.last, p.depth⟩

/-- A parser on a watched source does what the parser on the source does. -/
abbrev Unwatched ⦃α : Type⦄ (x : Parse σ α) (y : Parse (Watched σ) α) : Prop := Mirrors unwatched x y

theorem Unwatched.onTokens {x : EStateM Failure (Lookahead σ) α} {y : EStateM Failure (Lookahead (Watched σ)) α}
    (h : Mirrors Lookahead.unwatched x y) : Unwatched (onTokens x) (onTokens y) := by
  intro p
  unfold Parser.onTokens
  rw [show p.unwatched.tokens = p.tokens.unwatched from rfl, h]
  cases y p.tokens with
  | ok a ts => rfl
  | error e ts => rfl

variable [TokenSource σ]

theorem Unwatched.peek : Unwatched (σ := σ) peek peek := .onTokens Lookahead.mirrors_peek

theorem Unwatched.advance : Unwatched (σ := σ) advance advance := by
  refine Mirrors.bind (Unwatched.onTokens Lookahead.mirrors_next) fun found => ?_
  cases found with
  | none => exact .pure none
  | some t => exact fun _ => rfl

theorem Unwatched.fail (cause : GrammarCause) (found : Option Token) :
    Unwatched (fail cause found : Parse σ α) (fail cause found) :=
  fun _ => rfl

theorem Unwatched.reject (cause : GrammarCause) :
    Unwatched (reject cause : Parse σ α) (reject cause) :=
  Mirrors.bind Unwatched.peek fun _ => Unwatched.fail cause _

theorem Unwatched.hereditary : Hereditary (Unwatched (σ := σ)) where
  pure := .pure
  bind := .bind
  ask h := fun p => h p.unwatched p ⟨rfl, rfl, rfl⟩ p
  peek := .peek
  advance := .advance
  reject _ := .reject _
  variableName := by
    refine Mirrors.bind Unwatched.advance fun found => ?_
    cases found with
    | none => exact Unwatched.fail _ _
    | some t => exact related_ite (R := Unwatched) (Mirrors.pure _) (Unwatched.fail _ _)
  misuse _ := Mirrors.throw _
  note _ := .onTokens fun _ => rfl

/-- The depth of both is the same. -/
theorem Unwatched.nested {x : Parse σ α} {y : Parse (Watched σ) α} (h : Unwatched x y) :
    Unwatched (nested o x) (nested o y) := by
  intro p
  by_cases hlimit : o.maxDepth < (p.depth : Int) + 1
  · rw [nested_of_lt hlimit, nested_of_lt (p := p.unwatched) hlimit]
    exact Unwatched.reject _ p
  · have hle : (p.depth : Int) + 1 ≤ o.maxDepth := by omega
    rw [nested_of_le hle, nested_of_le (p := p.unwatched) hle,
      show p.unwatched.deeper = p.deeper.unwatched from rfl, h]
    cases y p.deeper with
    | ok a q => rfl
    | error e q => rfl

theorem Unwatched.exhausted : Unwatched (exhausted o : Parse σ α) (exhausted o) := by
  rw [exhausted_eq, exhausted_eq]
  exact .reject _

theorem Unwatched.program (o : ParseOptions) : Unwatched (program (σ := σ) o) (program o) := by
  have hR : Hereditary (Unwatched (σ := σ)) := Unwatched.hereditary
  refine hR.program fun p => ?_
  exact (hR.levels (fun _ _ h => Unwatched.nested h) Unwatched.exhausted (p.levels o)).1 p

omit [TokenSource σ] in
theorem after_eq_left (m : Parse σ α) (p : Parser σ) : after m p = left (m p) := by
  cases h : m p with
  | ok a q => exact after_of_ok h
  | error e q => exact after_of_error h

/-- A program is read from a watched source as from the source, and the source is left in the same state. -/
theorem program_unwatched (o : ParseOptions) (s : σ) :
    TokenSource.read o (Watched.ofSource s) = TokenSource.read o s ∧
      (after (program o) (ofSource (Watched.ofSource s))).tokens.source.source =
        (after (program o) (ofSource s)).tokens.source := by
  have hrun : program o (ofSource s) = mapState unwatched (program o (ofSource (Watched.ofSource s))) :=
    Unwatched.program o (ofSource (Watched.ofSource s))
  rw [after_eq_left, after_eq_left, hrun, left_mapState]
  refine ⟨?_, rfl⟩
  unfold TokenSource.read
  rw [hrun]
  cases program o (ofSource (Watched.ofSource s)) with
  | ok n p => rfl
  | error e p => rfl

end Parser

/-! ## What each scan keeps -/

namespace Lookahead

variable {σ : Type} [TokenSource σ] {I : σ → Prop} (hI : Keeps I (scan (σ := σ)))

include hI

theorem keeps_peek : Keeps (fun l => I l.source) (peek (σ := σ)) := by
  rintro ⟨s, ahead, j⟩ hs
  cases ahead with
  | some t =>
    rw [peek_of_ahead rfl]
    exact hs
  | none =>
    have hleft := hI s hs
    rw [peek_of_none]
    cases hscan : scan s with
    | error e s' =>
      rw [hscan] at hleft
      exact hleft
    | ok found s' =>
      rw [hscan] at hleft
      cases found <;> exact hleft

theorem keeps_next : Keeps (fun l => I l.source) (next (σ := σ)) := by
  intro l hl
  have hleft := keeps_peek hI l hl
  rw [next_eq_peek]
  cases hpeek : peek l with
  | ok found l' =>
    rw [hpeek] at hleft
    exact hleft
  | error e l' =>
    rw [hpeek] at hleft
    exact hleft

theorem keeps_atEnd : Keeps (fun l => I l.source) (atEnd (σ := σ)) :=
  (keeps_peek hI).bind fun _ => .pure _

theorem keeps_take (n : Nat) : Keeps (fun l => I l.source) (take (σ := σ) n) := by
  induction n with
  | zero => exact .pure []
  | succ n ih =>
    refine (keeps_atEnd hI).bind fun done => ?_
    cases done with
    | true => exact .pure []
    | false =>
      refine (keeps_next hI).bind fun found => ?_
      cases found with
      | none => exact .pure []
      | some t => exact ih.bind fun _ => .pure _

theorem keeps_ask (r : Request) : Keeps (fun l => I l.source) (ask (σ := σ) r) := by
  cases r with
  | peek => exact (keeps_peek hI).bind fun _ => .pure _
  | next => exact (keeps_next hI).bind fun _ => .pure _
  | atEnd => exact (keeps_atEnd hI).bind fun _ => .pure _
  | take n => exact (keeps_take hI n).bind fun _ => .pure _
  | toList => exact Keeps.bind (fun l => keeps_take hI (l.bound + 1) l) fun _ => .pure _

/-- What each scan keeps is kept by requests, whatever their outcome is. -/
theorem keeps_after (rs : List Request) {l : Lookahead σ} (hl : I l.source) : I (l.after rs).source := by
  induction rs generalizing l with
  | nil => exact hl
  | cons r rs ih =>
    have hleft := keeps_ask hI r l hl
    rw [after]
    cases hask : ask r l with
    | ok a l' =>
      rw [hask] at hleft
      exact ih hleft
    | error e l' =>
      rw [hask] at hleft
      exact ih hleft

end Lookahead

namespace Parser

variable {σ α β : Type} {o : ParseOptions} {I : σ → Prop}

/-- However it ends, the step keeps what is known of the source. -/
def KeepsSource (I : σ → Prop) ⦃α : Type⦄ (x : Parse σ α) : Prop := Keeps (fun p => I p.tokens.source) x

theorem keepsSource_onTokens {step : EStateM Failure (Lookahead σ) α}
    (h : Keeps (fun l => I l.source) step) : KeepsSource I (onTokens step) := by
  intro p hp
  have hleft := h p.tokens hp
  unfold onTokens
  cases hstep : step p.tokens with
  | ok a ts =>
    rw [hstep] at hleft
    exact hleft
  | error e ts =>
    rw [hstep] at hleft
    exact hleft

variable [TokenSource σ] (hI : Keeps I (scan (σ := σ)))

include hI

theorem keepsSource_peek : KeepsSource I (peek (σ := σ)) :=
  keepsSource_onTokens (Lookahead.keeps_peek hI)

theorem keepsSource_reject (cause : GrammarCause) : KeepsSource I (reject cause : Parse σ α) :=
  Keeps.bind (keepsSource_peek hI) fun _ _ hp => hp

theorem keepsSource_compositional : Compositional (Itself (KeepsSource (σ := σ) I)) where
  pure a := ⟨rfl, Keeps.pure a⟩
  bind := Itself.bind Keeps.bind
  get := ⟨rfl, fun _ hp => hp⟩
  peek := ⟨rfl, keepsSource_peek hI⟩
  advance := by
    refine ⟨rfl, Keeps.bind (keepsSource_onTokens (Lookahead.keeps_next hI)) fun found => ?_⟩
    cases found with
    | none => exact Keeps.pure none
    | some t => exact fun _ hp => hp
  note _ := ⟨rfl, keepsSource_onTokens fun _ hl => hl⟩
  fail _ _ := ⟨rfl, fun _ hp => hp⟩
  misuse _ := ⟨rfl, fun _ hp => hp⟩

theorem keepsSource_nested {x : Parse σ α} (h : KeepsSource I x) : KeepsSource I (nested o x) := by
  intro p hp
  by_cases hlimit : o.maxDepth < (p.depth : Int) + 1
  · rw [nested_of_lt hlimit]
    exact keepsSource_reject hI _ p hp
  · have hleft := h p.deeper hp
    rw [nested_of_le (by omega)]
    cases hrun : x p.deeper with
    | ok a q =>
      rw [hrun] at hleft
      exact hleft
    | error e q =>
      rw [hrun] at hleft
      exact hleft

/-- What each scan keeps every call of a parser keeps, however it ends. -/
theorem Offered.keepsSource {m : Parse σ α} (h : Offered o m) {p : Parser σ} (hp : I p.tokens.source) :
    I (after m p).tokens.source := by
  have hexhausted : KeepsSource I (Parser.exhausted (α := Node) o : Parse σ Node) := by
    rw [exhausted_eq]
    exact keepsSource_reject hI _
  have hkeeps := h.inherits (keepsSource_compositional hI) (fun _ => keepsSource_nested hI) hexhausted
  rw [after_eq_left]
  exact hkeeps p hp

end Parser

/-! ## The states of a scanner -/

namespace Watched

open Scanner

variable {s : Scanner} {w : Watched Scanner}

/-- The first state is `s`, and each is reached from all before it by reading on. -/
structure Onward (s : Scanner) (w : Watched Scanner) : Prop where
  first : w.states.head? = some s
  along : w.states.Pairwise Along

theorem Onward.start (s : Scanner) : Onward s (ofSource s) := ⟨rfl, List.pairwise_singleton _ _⟩

theorem states_scanned {σ : Type} (w : Watched σ) (s : σ) :
    states ⟨s, w.source :: w.past⟩ = w.states ++ [s] :=
  List.reverse_cons

theorem getLast?_states {σ : Type} (w : Watched σ) : w.states.getLast? = some w.source := by
  rw [states, List.getLast?_reverse]
  rfl

/-- The present state is behind all others. -/
theorem Onward.along_source (h : Onward s w) {s' : Scanner} (hs' : s' ∈ w.states) : s'.Along w.source := by
  rw [states, List.mem_reverse, List.mem_cons] at hs'
  rcases hs' with rfl | hs'
  · exact .refl _
  · have halong := h.along
    rw [states, List.pairwise_reverse] at halong
    exact (List.pairwise_cons.mp halong).1 s' hs'

/-- All states are reached from the first one. -/
theorem Onward.along_first (h : Onward s w) {s' : Scanner} (hs' : s' ∈ w.states) : s.Along s' := by
  obtain ⟨rest, hrest⟩ := List.head?_eq_some_iff.mp h.first
  have halong := h.along
  rw [hrest] at hs' halong
  rcases List.mem_cons.mp hs' with rfl | hs'
  · exact .refl _
  · exact (List.pairwise_cons.mp halong).1 s' hs'

theorem Onward.scanned {s' : Scanner} (h : Onward s w) (hs' : w.source.Along s') :
    Onward s ⟨s', w.source :: w.past⟩ where
  first := by
    rw [states_scanned, List.head?_append, h.first]
    rfl
  along := by
    rw [states_scanned, List.pairwise_append]
    refine ⟨h.along, List.pairwise_singleton _ _, fun x hx y hy => ?_⟩
    rw [List.mem_singleton.mp hy]
    exact (h.along_source hx).trans hs'

/-- A scan reads on, also one that fails. -/
theorem keeps_onward (s : Scanner) : Keeps (Onward s) (TokenSource.scan (σ := Watched Scanner)) := by
  intro w hw
  cases hscan : TokenSource.scan w.source with
  | ok found s' =>
    rw [scan_of_ok hscan]
    exact hw.scanned (.of_scan hscan)
  | error e s' =>
    rw [scan_of_error hscan]
    exact hw.scanned (.of_failure hscan)

end Watched
end LambdaReader
