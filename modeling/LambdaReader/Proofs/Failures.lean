import LambdaReader.Proofs.Recorded
import LambdaReader.Proofs.Reads.Adequacy

/-!
# `Proofs.Failures` — why reading fails

Reading fails for a lexical cause or for one by the grammar, and never by misuse: a scanned numeral is a
number, a token that a part is taken of is there, and so is the span of every node. That a failure is a
fault of its family says besides that the code it is reported with is known there.

The scanner says why a scan fails; that the parser adds nothing but failures by the grammar is what
`Simulation.read` says of a source beside itself.

## Main result
- `Source.parse_fails`: what a source is read as, or why it is not.
-/

namespace LambdaReader

open TokenSource

/-! ## Faults -/

/-- The failure is one of scanning; strings have to be closed in strict reading only. -/
def Failure.IsLexical (strict : Bool) (e : Failure) : Prop :=
  ∃ cause l, e = .lexical cause l ∧ (cause = .openString → strict = true)

/-- A report of scanning, with a code that there is for it. -/
def Fault.IsLexical (strict : Bool) (f : Fault) : Prop :=
  f.family.name = "LexerError" ∧
    (f.code.map ErrorCode.text = some "L001" ∨ f.code.map ErrorCode.text = some "L002" ∧ strict = true)

/-- A report of parsing, with a code that there is for it. -/
def Fault.IsGrammatical (f : Fault) : Prop :=
  f.family.name = "ParseError" ∧
    f.code.map ErrorCode.text ∈ [some "P001", some "P002", some "P003", some "P004"]

theorem Failure.IsLexical.fault {strict : Bool} {e : Failure} (h : e.IsLexical strict) :
    ∃ f, e.fault? = .ok f ∧ f.IsLexical strict := by
  obtain ⟨cause, l, rfl, hstrict⟩ := h
  refine ⟨_, Failure.fault?_lexical cause l, rfl, ?_⟩
  cases cause with
  | strayCharacter | lonePoint => exact .inl rfl
  | openString => exact .inr ⟨rfl, hstrict rfl⟩

theorem Failure.fault_grammar (cause : GrammarCause) (found : Option Token) (l : Location) :
    ∃ f, (Failure.grammar cause found l).fault? = .ok f ∧ f.IsGrammatical := by
  refine ⟨_, Failure.fault?_grammar cause found l, rfl, ?_⟩
  cases cause <;> simp [GrammarCause.code, ErrorCode.text]

/-! ## Scanning -/

namespace Scanner

variable {s s' : Scanner} {found : Option Token}

/-- A scan does not change how strings are read. -/
theorem strict_of_readNext (h : readNext s = .ok found s') : s'.strict = s.strict := by
  cases found with
  | some t =>
    obtain ⟨run, _, _, _, rfl⟩ := readNext_some h
    rfl
  | none =>
    obtain ⟨rfl, _⟩ := readNext_none h
    rfl

/-- All that a scanner can fail with is lexical. -/
theorem isLexical_of_drain (s : Scanner) : ∀ e, (drain s).2 = .failed e → e.IsLexical s.strict := by
  refine drain_induction (P := fun s d => ∀ e, d.2 = .failed e → e.IsLexical s.strict) ?_ ?_ ?_ s
  · intro s s' t hscan ih e he
    rw [← strict_of_readNext hscan]
    exact ih e he
  · intro s s' _ e he; cases he
  · intro s s' f hscan e he
    cases he
    exact readNext_error hscan

end Scanner

/-! ## Parsing -/

/-- A scanner beside itself. -/
def Simulation.itself (strict : Bool) : Simulation Scanner Scanner where
  sources r s := r = s ∧ r.strict = strict
  place := id
  token := Token.IsLexeme
  ends _ := True
  broken := Failure.IsLexical strict
  waived _ := False
  location_eq := by
    rintro r _ ⟨rfl, _⟩
    rfl
  bound_le := by
    rintro r _ ⟨rfl, _⟩
    exact Nat.le_refl _
  scan_token := by
    rintro r r' _ t ⟨rfl, hstrict⟩ hscan
    have ht : t.IsLexeme := Scanner.isLexeme_of_takes (Scanner.readNext_some hscan)
    exact ⟨ht, r', hscan, rfl, (Scanner.strict_of_readNext hscan).trans hstrict⟩
  scan_end := by
    rintro r r' _ ⟨rfl, hstrict⟩ hscan
    exact ⟨trivial, r', hscan, rfl, (Scanner.strict_of_readNext hscan).trans hstrict⟩
  scan_error := by
    rintro r r' _ e ⟨rfl, rfl⟩ hscan
    rw [Failure.relocate_id]
    exact .inr ⟨Scanner.readNext_error hscan, r', hscan⟩

/-- What a source is read as is a program, and what it is scanned into is a list of tokens; otherwise it is
at fault, with a code of scanning or of parsing. Nothing is ever misused on the way. -/
theorem Source.parse_fails (s : Source) (o : ParseOptions) :
    (match s.parse o with
      | .ok n => n.kind = .program
      | .error e => ∃ f, e.fault? = .ok f ∧ (f.IsLexical s.strictStrings ∨ f.IsGrammatical)) ∧
    (match s.tokens with
      | .ok _ => True
      | .error e => ∃ f, e.fault? = .ok f ∧ f.IsLexical s.strictStrings) := by
  have hsources : (Simulation.itself s.strictStrings).sources s.scanner s.scanner := ⟨rfl, rfl⟩
  constructor
  · cases hparse : s.parse o with
    | ok n =>
      obtain ⟨l, hdone⟩ := s.drain_of_parse hparse
      obtain ⟨body, s', _, rfl⟩ := (TokenSource.read_eq_ok_iff hdone n).mp hparse
      rfl
    | error e =>
      rcases Simulation.read hsources o with ⟨n, hleft, _⟩ | ⟨e', hleft, hwaived | ⟨hstops, _⟩⟩
      · cases hparse.symm.trans hleft
      · exact hwaived.elim
      · obtain rfl := Except.error.inj (hparse.symm.trans hleft)
        cases hstops with
        | broken hlexical =>
          obtain ⟨f, hf, hfault⟩ := hlexical.fault
          exact ⟨f, hf, .inl hfault⟩
        | misused ht hkind hnone => exact absurd hnone (ht.number?_ne_none hkind)
        | found | ended =>
          obtain ⟨f, hf, hfault⟩ := Failure.fault_grammar _ _ _
          exact ⟨f, hf, .inr hfault⟩
  · rw [Source.tokens_eq]
    cases hending : (drain s.scanner).2 with
    | done l => trivial
    | failed e => exact (s.scanner.isLexical_of_drain e hending).fault

end LambdaReader
