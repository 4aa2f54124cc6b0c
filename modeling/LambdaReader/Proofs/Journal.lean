import LambdaReader.Proofs.Concatenation
import LambdaReader.Proofs.Failures
import LambdaReader.Proofs.Pace

/-!
# `Proofs.Journal` — what a reading notes, and when

The journal notes every token when it is taken from the source, once and in order, and the parser takes a
token when it has to look at it and no sooner. So when the parser fails at a token, that token is the last
one noted, and when it fails at the end all tokens are.
-/

namespace LambdaReader

open TokenSource Step Spot

namespace Parser

variable {σ α β : Type} [TokenSource σ]

/-! ## Notes -/

/-- All that was noted. -/
def journal (p : Parser σ) : List Note := p.tokens.journal.toList

/-- The tokens that were noted. -/
def scanned (p : Parser σ) : List Token := p.journal.filterMap Note.token?

/-- Since `p` the journal has become `journal`, by notes of which `P` holds, and the tokens noted are those
that the source had before the ones it has left. -/
inductive Noted (P : Note → Prop) (p : Parser σ) (journal : List Note) (left : List Token × Ending) : Prop where
  | intro (notes : List Note) : journal = p.journal ++ notes → (∀ n ∈ notes, P n) →
    drain p.tokens.source = (notes.filterMap Note.token? ++ left.1, left.2) → Noted P p journal left

/-- A token that is held back was noted last. -/
def Held (p : Parser σ) : Prop := ∀ t, p.tokens.ahead = some t → p.scanned.getLast? = some t

/-- The parser with one more note. -/
def noting (p : Parser σ) (n : Note) : Parser σ :=
  { p with tokens := { p.tokens with journal := p.tokens.journal.push n } }

variable {P : Note → Prop} {p q : Parser σ} {o : ParseOptions}

omit [TokenSource σ] in
theorem journal_noting (p : Parser σ) (n : Note) : (p.noting n).journal = p.journal ++ [n] := Array.toList_push

omit [TokenSource σ] in
theorem Held.of_none (h : p.tokens.ahead = none) : p.Held := by
  intro t ht
  rw [h] at ht
  cases ht

omit [TokenSource σ] in
/-- A note of something else than a token does not come in between. -/
theorem Held.noting (hp : p.Held) {n : Note} (hn : n.token? = none) : (p.noting n).Held := by
  intro t ht
  have hscanned : (p.noting n).scanned = p.scanned := by
    rw [scanned, journal_noting, List.filterMap_append, List.filterMap_cons_none hn, List.filterMap_nil,
      List.append_nil, scanned]
  rw [hscanned]
  exact hp t ht

theorem Noted.refl (p : Parser σ) : Noted P p p.journal (drain p.tokens.source) := by
  refine .intro [] ?_ (List.forall_mem_nil _) rfl
  rw [List.append_nil]

theorem Noted.trans {journal : List Note} {left : List Token × Ending}
    (h : Noted P p q.journal (drain q.tokens.source)) (h' : Noted P q journal left) :
    Noted P p journal left := by
  obtain ⟨notes, hjournal, hnotes, hdrain⟩ := h
  obtain ⟨notes', rfl, hnotes', hdrain'⟩ := h'
  refine .intro (notes ++ notes') ?_ (List.forall_mem_append.mpr ⟨hnotes, hnotes'⟩) ?_
  · rw [hjournal, List.append_assoc]
  · rw [hdrain, hdrain', List.filterMap_append, List.append_assoc]

/-! ## Runs -/

/-- How a run from `p` ends: with all tokens noted that were taken. If it fails at a token that is the one
noted last; if it fails at the end, nothing is left; and if the source fails, nothing is left before that. -/
inductive Journaled (P : Note → Prop) (p : Parser σ) : EStateM.Result Failure (Parser σ) α → Prop where
  | ok {a : α} {q : Parser σ} :
    Noted P p q.journal (drain q.tokens.source) → q.Held → Journaled P p (.ok a q)
  | found {cause : GrammarCause} {t : Token} {l : Location} {q : Parser σ} {left : List Token × Ending} :
    Noted P p q.journal left → q.scanned.getLast? = some t → Journaled P p (.error (.grammar cause (some t) l) q)
  | ended {cause : GrammarCause} {l finish : Location} {q : Parser σ} :
    Noted P p q.journal ([], .done finish) → Journaled P p (.error (.grammar cause none l) q)
  | broken {e : Failure} {q : Parser σ} :
    Noted P p q.journal ([], .failed e) → Journaled P p (.error e q)
  | misused {m : Misuse} {q : Parser σ} : Journaled P p (.error (.misuse m) q)

/-- Every run of the step ends so. -/
def Journals (P : Note → Prop) (x : Parse σ α) : Prop := ∀ p, Held p → Journaled P p (x p)

theorem Journaled.after {r : EStateM.Result Failure (Parser σ) α}
    (h : Noted P p q.journal (drain q.tokens.source)) (h' : Journaled P q r) : Journaled P p r := by
  cases h' with
  | ok hnoted hheld => exact .ok (h.trans hnoted) hheld
  | found hnoted hlast => exact .found (h.trans hnoted) hlast
  | ended hnoted => exact .ended (h.trans hnoted)
  | broken hnoted => exact .broken (h.trans hnoted)
  | misused => exact .misused

/-- A run that fails at the end. -/
theorem Journaled.of_end {cause : GrammarCause} {l finish : Location}
    (hend : drain q.tokens.source = ([], .done finish)) :
    Journaled P q (.error (.grammar cause none l) q : EStateM.Result Failure (Parser σ) α) := by
  have hnoted : Noted P q q.journal (drain q.tokens.source) := .refl q
  rw [hend] at hnoted
  exact .ended hnoted

/-- What may come of asking for the next token: the one noted last, or none at the end. -/
inductive Asked (P : Note → Prop) (p : Parser σ) :
    EStateM.Result Failure (Parser σ) (Option Token) → Prop where
  | token {t : Token} {q : Parser σ} :
    Noted P p q.journal (drain q.tokens.source) → q.Held → q.scanned.getLast? = some t →
    Asked P p (.ok (some t) q)
  | ended {finish : Location} {q : Parser σ} :
    Noted P p q.journal (drain q.tokens.source) → q.Held → drain q.tokens.source = ([], .done finish) →
    Asked P p (.ok none q)
  | broken {e : Failure} {q : Parser σ} :
    Noted P p q.journal ([], .failed e) → Asked P p (.error e q)

namespace Journals

protected theorem pure (a : α) : Journals (σ := σ) P (pure a) := by
  intro p hp
  exact .ok (.refl p) hp

protected theorem bind {x : Parse σ α} {f : α → Parse σ β} (hx : Journals P x)
    (hf : ∀ a, Journals P (f a)) : Journals P (x >>= f) := by
  intro p hp
  have hout := hx p hp
  rw [bind_apply]
  generalize x p = r at hout
  cases hout with
  | ok hnoted hheld => exact (hf _ _ hheld).after hnoted
  | found hnoted hlast => exact .found hnoted hlast
  | ended hnoted => exact .ended hnoted
  | broken hnoted => exact .broken hnoted
  | misused => exact .misused

/-- A token was asked for, and what follows is told whether it was found. -/
theorem asked_bind {x : Parse σ (Option Token)} {f : Option Token → Parse σ β}
    (hx : ∀ p, Held p → Asked P p (x p))
    (hsome : ∀ t q, Held q → q.scanned.getLast? = some t → Journaled P q (f (some t) q))
    (hnone : ∀ q finish, Held q → drain q.tokens.source = ([], .done finish) → Journaled P q (f none q)) :
    Journals P (x >>= f) := by
  intro p hp
  have hout := hx p hp
  rw [bind_apply]
  generalize x p = r at hout
  cases hout with
  | token hnoted hheld hlast => exact (hsome _ _ hheld hlast).after hnoted
  | ended hnoted hheld hend => exact (hnone _ _ hheld hend).after hnoted
  | broken hnoted => exact .broken hnoted

/-- Asking for a token and nothing else. -/
theorem of_asked {x : Parse σ (Option Token)} (hx : ∀ p, Held p → Asked P p (x p)) : Journals P x := by
  rw [← bind_pure x]
  exact asked_bind hx (fun t q hq _ => .ok (.refl q) hq) fun q _ hq _ => .ok (.refl q) hq

/-- Failing where the token stands that was found, or at the end. -/
theorem fail_bind {x : Parse σ (Option Token)} {cause : GrammarCause}
    (hx : ∀ p, Held p → Asked P p (x p)) :
    Journals P (x >>= fun found => (fail cause found : Parse σ α)) := by
  exact asked_bind hx (fun t q _ hlast => .found (.refl q) hlast) fun q finish _ hend => .of_end hend

end Journals

/-! ## Single steps -/

section Lawful

variable [LawfulTokenSource σ]

namespace Asked

variable {s s' : σ} {j : Array Note} {t : Token}

/-- A token that is scanned is noted last. -/
theorem of_token (hP : ∀ t, P (.scanned t)) (hscan : scan s = .ok (some t) s')
    (hp : p.tokens = ⟨s, none, j⟩) (hsource : q.tokens.source = s')
    (hjournal : q.tokens.journal = j.push (.scanned t)) (hahead : ∀ u, q.tokens.ahead = some u → u = t) :
    Asked P p (.ok (some t) q) := by
  have hq : q.journal = p.journal ++ [.scanned t] := by
    rw [journal, hjournal, Array.toList_push, journal, hp]
  have hlast : q.scanned.getLast? = some t := by
    rw [scanned, hq, List.filterMap_append]
    exact List.getLast?_concat
  refine .token (.intro [.scanned t] hq ?_ ?_) (fun u hu => ?_) hlast
  · exact List.forall_mem_singleton.mpr (hP t)
  · rw [hp, hsource, drain_some hscan]
    rfl
  · rw [hahead u hu]
    exact hlast

/-- At the end nothing is noted. -/
theorem of_end (hscan : scan s = .ok none s') (hp : p.tokens = ⟨s, none, j⟩) (hq : q.tokens = ⟨s', none, j⟩) :
    Asked P p (.ok none q) := by
  have hend : drain q.tokens.source = ([], .done (TokenSource.location s')) := by
    rw [hq]
    exact drain_none (LawfulTokenSource.scan_none hscan).2
  refine .ended (.intro [] ?_ (List.forall_mem_nil _) ?_) ?_ hend
  · rw [journal, journal, hp, hq, List.append_nil]
  · rw [hend, hp, drain_none hscan]
    rfl
  · exact .of_none (by rw [hq])

omit [LawfulTokenSource σ] in
/-- Where the source fails nothing is noted. -/
theorem of_failure {e : Failure} (hscan : scan s = .error e s') (hp : p.tokens = ⟨s, none, j⟩)
    (hq : q.tokens = ⟨s', none, j⟩) : Asked P p (.error e q) := by
  refine .broken (.intro [] ?_ (List.forall_mem_nil _) ?_)
  · rw [journal, journal, hp, hq, List.append_nil]
  · rw [hp, drain_error hscan]
    rfl

/-- Looking at the next token notes it if it was not looked at before. -/
protected theorem peek (hP : ∀ t, P (.scanned t)) (p : Parser σ) (hp : Held p) : Asked P p (peek p) := by
  obtain ⟨⟨s, ahead, j⟩, last, depth⟩ := p
  cases ahead with
  | some t =>
    rw [Parser.peek, onTokens, Lookahead.peek_of_ahead rfl]
    exact .token (.refl _) hp (hp t rfl)
  | none =>
    rw [Parser.peek, onTokens, Lookahead.peek_of_none]
    cases hscan : scan s with
    | error e s' => exact .of_failure hscan rfl rfl
    | ok found s' =>
      cases found with
      | none => exact .of_end hscan rfl rfl
      | some t =>
        refine .of_token hP hscan rfl rfl rfl ?_
        rintro u ⟨⟩
        rfl

/-- Taking the next token notes it if it was not looked at before. -/
protected theorem advance (hP : ∀ t, P (.scanned t)) (p : Parser σ) (hp : Held p) :
    Asked P p (advance p) := by
  obtain ⟨⟨s, ahead, j⟩, last, depth⟩ := p
  cases ahead with
  | some t =>
    rw [advance_of_ahead rfl]
    exact .token (.refl _) (.of_none rfl) (hp t rfl)
  | none =>
    rw [Parser.advance, bind_apply, onTokens, Lookahead.next_of_none]
    cases hscan : scan s with
    | error e s' => exact .of_failure hscan rfl rfl
    | ok found s' =>
      cases found with
      | none => exact .of_end hscan rfl rfl
      | some t =>
        refine .of_token hP hscan rfl rfl rfl ?_
        rintro u ⟨⟩

end Asked

namespace Journals

variable (hP : ∀ t, P (.scanned t))

include hP

protected theorem reject (cause : GrammarCause) : Journals P (reject cause : Parse σ α) :=
  fail_bind (.peek hP)

/-- A token that is no variable is taken before it is blamed. -/
protected theorem variableName : Journals P (variableName (σ := σ)) := by
  refine asked_bind (.advance hP) (fun t q hq hlast => ?_) fun q finish _ hend => ?_
  · dsimp only
    by_cases hkind : t.kind = .identifier
    · rw [if_pos hkind]
      exact .ok (.refl q) hq
    · rw [if_neg hkind]
      exact .found (.refl q) hlast
  · exact .of_end hend

theorem noteless : Noteless (Itself fun ⦃α⦄ (x : Parse σ α) => Journals P x) where
  pure a := ⟨rfl, .pure a⟩
  bind := Itself.bind Journals.bind
  ask h := Itself.ask h fun hf _ p hp => hf p p hp
  peek := ⟨rfl, .of_asked (.peek hP)⟩
  advance := ⟨rfl, .of_asked (.advance hP)⟩
  reject _ := ⟨rfl, .reject hP _⟩
  variableName := ⟨rfl, .variableName hP⟩
  misuse _ := ⟨rfl, fun _ _ => .misused⟩

protected theorem nested {x : Parse σ α} (hx : Journals P x) : Journals P (nested o x) := by
  intro p hp
  by_cases hlimit : o.maxDepth < (p.depth : Int) + 1
  · rw [nested_of_lt hlimit]
    exact Journals.reject hP _ p hp
  · have hdeeper : Noted P p p.deeper.journal (drain p.deeper.tokens.source) := .refl p
    have hout : Journaled P p (x p.deeper) := (hx p.deeper hp).after hdeeper
    rw [nested_of_le (by omega)]
    generalize x p.deeper = r at hout ⊢
    cases hout with
    | ok hnoted hheld => exact .ok hnoted hheld
    | found hnoted hlast => exact .found hnoted hlast
    | ended hnoted => exact .ended hnoted
    | broken hnoted => exact .broken hnoted
    | misused => exact .misused

/-- Expressions note tokens and nothing else. -/
protected theorem expression : Journals P (expression (σ := σ) o) := by
  have hR : Noteless (Itself fun ⦃α⦄ (x : Parse σ α) => Journals P x) := noteless hP
  intro p hp
  refine (hR.levels (fun _ _ hx => hx.imp (.nested hP)) ?_ (p.levels o)).1.2 p hp
  rw [exhausted_eq]
  exact ⟨rfl, .reject hP _⟩

omit [LawfulTokenSource σ] hP in
protected theorem note {n : Note} (hn : P n) (htoken : n.token? = none) :
    Journals (σ := σ) P (onTokens (Lookahead.note n)) := by
  intro p hp
  refine Journaled.ok (q := p.noting n) (.intro [n] (journal_noting p n) ?_ ?_) (hp.noting htoken)
  · exact List.forall_mem_singleton.mpr hn
  · rw [List.filterMap_cons_none htoken]
    rfl

protected theorem statement (hparsed : ∀ kind, P (.parsed kind)) : Journals P (statement (σ := σ) o) := by
  have hR : Noteless (Itself fun ⦃α⦄ (x : Parse σ α) => Journals P x) := noteless hP
  refine .bind hR.atEnd.2 fun done => ?_
  cases done with
  | true => exact .pure none
  | false =>
    refine .bind (.expression hP) fun first => .bind (.note (hparsed _) rfl) fun _ => ?_
    exact .bind hR.skipSeparator.2 fun _ => .pure (some first)

/-- Reading statements notes tokens and statements. -/
protected theorem statements (hparsed : ∀ kind, P (.parsed kind)) (n : Nat) :
    Journals P (statements (σ := σ) o n) := by
  induction n with
  | zero => exact .pure []
  | succ n ih =>
    rw [statements_succ]
    refine .bind (.statement hP hparsed) fun found => ?_
    cases found with
    | none => exact .pure []
    | some first => exact .bind ih fun es => .pure (first :: es)

end Journals

end Lawful

end Parser
end LambdaReader
