import LambdaReader.Proofs.Simulation

/-!
# `Proofs.Recorded` — scanning on demand and scanning beforehand

A source is read on demand: its scanner is asked for a token when the parser looks at it. Reading the
record of its tokens instead gives the same program with the same spans, or the same failure. So if the
scan is stopped by a failure, it shows in the result just if the parser gets as far as asking for the
token that is not there; `Replay.AsksBeyond` says that it does.

## Main results
- `Source.parse_eq_parseRecorded`: reading on demand is reading the record;
- `Source.parse_of_tokens`: both by the outcome of the scan.
-/

namespace LambdaReader

open TokenSource

/-! ## A scanner and the record of its tokens -/

/-- The record of a source gives what the source gives, and stays a record of it. -/
theorem TokenSource.scan_ofSource {σ : Type} [TokenSource σ] [LawfulTokenSource σ] (s : σ) :
    scan (Replay.ofSource s) = match scan s with
      | .ok found s' => .ok found (Replay.ofSource s')
      | .error e _ => .error e (Replay.ofSource s) := by
  cases hscan : scan s with
  | error e s' =>
    rw [Replay.ofSource, drain_error hscan]
    rfl
  | ok found s' =>
    cases found with
    | some t =>
      show scan (Replay.ofSource s) = .ok (some t) (Replay.ofSource s')
      rw [Replay.ofSource, drain_some hscan, Replay.ofSource, (LawfulTokenSource.scan_some hscan).2]
      rfl
    | none =>
      -- Nothing comes behind the end, so both records are empty.
      have hend := drain_none (LawfulTokenSource.scan_none hscan).2
      show scan (Replay.ofSource s) = .ok none (Replay.ofSource s')
      rw [Replay.ofSource, drain_none hscan, Replay.ofSource, hend]
      rfl

/-- A scanner and the record of everything it has to give. -/
def Simulation.recorded : Simulation Replay Scanner where
  sources r s := r = Replay.ofSource s
  place := id
  token := Token.IsLexeme
  ends _ := True
  broken _ := True
  waived _ := False
  location_eq := by
    rintro _ s rfl
    rfl
  bound_le := by
    rintro _ s rfl
    exact length_drain_le s
  scan_token := by
    rintro _ r' s t rfl hr
    rw [scan_ofSource] at hr
    cases hscan : scan s with
    | error e s' => rw [hscan] at hr; cases hr
    | ok found s' =>
      rw [hscan] at hr
      cases hr
      have ht : t.IsLexeme := Scanner.isLexeme_of_takes (Scanner.readNext_some hscan)
      exact ⟨ht, s', rfl, rfl⟩
  scan_end := by
    rintro _ r' s rfl hr
    rw [scan_ofSource] at hr
    cases hscan : scan s with
    | error e s' => rw [hscan] at hr; cases hr
    | ok found s' =>
      rw [hscan] at hr
      cases hr
      exact ⟨trivial, s', rfl, rfl⟩
  scan_error := by
    rintro _ r' s e rfl hr
    rw [scan_ofSource] at hr
    cases hscan : scan s with
    | error e' s' =>
      rw [hscan] at hr
      cases hr
      exact .inr ⟨trivial, s', by rw [Failure.relocate_id]⟩
    | ok found s' => rw [hscan] at hr; cases hr

/-- Reading on demand is reading the record. -/
theorem Source.parse_eq_parseRecorded (s : Source) (o : ParseOptions) :
    s.parse o = s.parseRecorded o := by
  have hread := Simulation.recorded.read (rfl : Simulation.recorded.sources _ s.scanner) o
  rw [Source.parse, Source.read, parseRecorded, Replay.parse]
  rcases hread with ⟨a, hleft, hright, _⟩ | ⟨e, hleft, hwaived | ⟨_, hright⟩⟩
  · rw [hleft, hright]
    exact congrArg _ (Node.relocate_id a)
  · exact hwaived.elim
  · rw [hleft, hright]
    exact congrArg _ (Failure.relocate_id e)

/-! ## A record that is cut off -/

namespace Replay

/-- The parser asks for a token behind the recorded ones: it fails with whatever failure stands there. -/
def AsksBeyond (o : ParseOptions) (ts : List Token) (start : Location) : Prop :=
  ∀ f, parse o ⟨ts, .failed f, start⟩ = .error f

/-- Records of the same lexemes, one of which is cut off by a failure `f`. -/
def cut (ts : List Token) (f : Failure) : Simulation Replay Replay where
  sources r s := r.tokens = s.tokens ∧ r.location = s.location ∧ r.ending = .failed f ∧
    ∀ t ∈ r.tokens, t ∈ ts ∧ t.IsLexeme
  place := id
  token t := t ∈ ts ∧ t.IsLexeme
  ends _ := False
  broken _ := False
  waived e := e = f
  location_eq h := h.2.1.symm
  bound_le h := Nat.le_of_eq (congrArg List.length h.1)
  scan_token := by
    rintro ⟨_ | ⟨t, us⟩, _, l⟩ r' ⟨_, ending, _⟩ u ⟨rfl, rfl, rfl, hus⟩ hr
    · cases hr
    · cases hr
      have ht : t ∈ ts ∧ t.IsLexeme := hus t List.mem_cons_self
      refine ⟨ht, _, rfl, rfl, rfl, rfl, ?_⟩
      intro u hu
      exact hus u (List.mem_cons_of_mem t hu)
  scan_end := by
    rintro ⟨_ | ⟨t, us⟩, _, l⟩ r' ⟨_, ending, _⟩ ⟨rfl, rfl, rfl, hus⟩ hr <;> cases hr
  scan_error := by
    rintro ⟨_ | ⟨t, us⟩, _, l⟩ r' ⟨_, ending, _⟩ e ⟨rfl, rfl, rfl, hus⟩ hr
    · -- behind the last token the left record has its failure, which is waived
      cases hr
      exact .inl rfl
    · cases hr

/-- A parser that does not ask for a token behind the recorded ones fails by the grammar behind one of
them, and does so whatever comes after them. -/
theorem parse_of_not_asksBeyond {o : ParseOptions} {ts : List Token} {start : Location}
    (hts : ∀ t ∈ ts, t.IsLexeme) (h : ¬AsksBeyond o ts start) :
    ∃ cause t, t ∈ ts ∧
      ∀ ending, parse o ⟨ts, ending, start⟩ = .error (.grammar cause (some t) t.stop) := by
  obtain ⟨f, hf⟩ := not_forall.mp h
  -- What stands behind the tokens is exchanged against the failure `f`, which does not show.
  have hread (ending : Ending) := (cut ts f).read (r := ⟨ts, .failed f, start⟩)
    (s := ⟨ts, ending, start⟩) ⟨rfl, rfl, rfl, fun t ht => ⟨ht, hts t ht⟩⟩ o
  have hstops : ∃ e, parse o ⟨ts, .failed f, start⟩ = .error e ∧ (cut ts f).Stops e := by
    rcases hread (.failed f) with ⟨a, _, _, l, hl⟩ | ⟨e, hleft, rfl | ⟨he, _⟩⟩
    · exact hl.elim
    · exact absurd hleft hf
    · exact ⟨e, hleft, he⟩
  obtain ⟨e, hleft, he⟩ := hstops
  -- The record that `f` cuts off has no end and no other failure, so the parser stops at a token.
  cases he with
  | broken he => exact he.elim
  | ended hl => exact hl.elim
  | misused ht hkind hnone => exact absurd hnone (ht.2.number?_ne_none hkind)
  | @found cause t ht =>
    refine ⟨cause, t, ht.1, fun ending => ?_⟩
    rcases hread ending with ⟨a, hleft', _⟩ | ⟨e, hleft', he⟩
    · cases hleft.symm.trans hleft'
    · cases hleft.symm.trans hleft'
      rcases he with rfl | ⟨_, hright⟩
      · exact absurd hleft hf
      · exact hright

/-- A closing mark where an expression should start is refused, whatever comes after it. -/
example (ending : Ending) :
    let t : Token := .plain .punctuation ")" ⟨"x", 1, 2, 2⟩
    parse {} ⟨[t], ending, .start "x"⟩ = .error (.grammar .unexpected (some t) t.stop) := by
  rfl

end Replay

/-- A source that is read as a program has been scanned to its end. -/
theorem Source.drain_of_parse (s : Source) {o : ParseOptions} {n : Node} (h : s.parse o = .ok n) :
    ∃ l, (drain s.scanner).2 = .done l := by
  cases hending : (drain s.scanner).2 with
  | done l => exact ⟨l, rfl⟩
  | failed e =>
    have hrecorded : s.parse o = Replay.parse o ⟨_, _, _⟩ := s.parse_eq_parseRecorded o
    rw [hending, h] at hrecorded
    -- Either the failure of the scan would show, or one by the grammar.
    by_cases hasks : Replay.AsksBeyond o (drain s.scanner).1 s.scanner.location
    · cases hrecorded.trans (hasks e)
    · obtain ⟨cause, t, _, hparse⟩ :=
        Replay.parse_of_not_asksBeyond (Scanner.isLexeme_of_mem_drain s.scanner) hasks
      cases hrecorded.trans (hparse _)

/-! ## What a source is read as -/

/-- What a source is read as, by the outcome of its scan. If the scan succeeds, its tokens are parsed, up
to the location where the text ends. If it fails, the failure shows if the parser of the tokens before it
asks for one more; otherwise that parser has failed at one of them. -/
theorem Source.parse_of_tokens (s : Source) (o : ParseOptions) :
    match s.tokens with
    | .ok ts => s.parse o =
        Replay.parse o ⟨ts, .done ((Location.start s.file).advance s.text.toList), .start s.file⟩
    | .error e =>
      let ts := (drain s.scanner).1
      (∃ cause l, e = .lexical cause l) ∧
      (Replay.AsksBeyond o ts (.start s.file) → s.parse o = .error e) ∧
      (¬Replay.AsksBeyond o ts (.start s.file) → ∃ cause t, t ∈ ts ∧
        s.parse o = .error (.grammar cause (some t) t.stop) ∧
        ∀ ending, Replay.parse o ⟨ts, ending, .start s.file⟩ = s.parse o) := by
  rw [Source.tokens_eq]
  have hrecorded : s.parse o = Replay.parse o ⟨_, _, _⟩ := Source.parse_eq_parseRecorded s o
  cases hending : (drain s.scanner).2 with
  | done l =>
    rw [hending, Scanner.drain_done s.scanner l hending] at hrecorded
    exact hrecorded
  | failed e =>
    rw [hending] at hrecorded
    have hlexical := Scanner.drain_failed s.scanner e hending
    refine ⟨hlexical, fun hasks => hrecorded.trans (hasks e), ?_⟩
    intro hasks
    obtain ⟨cause, t, ht, hparse⟩ :=
      Replay.parse_of_not_asksBeyond (Scanner.isLexeme_of_mem_drain s.scanner) hasks
    have hresult := hrecorded.trans (hparse _)
    exact ⟨cause, t, ht, hresult, fun ending => (hparse ending).trans hresult.symm⟩

end LambdaReader
