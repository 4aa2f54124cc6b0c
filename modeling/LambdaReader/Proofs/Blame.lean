import LambdaReader.Proofs.Cutting
import LambdaReader.Proofs.Foresight
import LambdaReader.Proofs.Locality

/-!
# `Proofs.Blame` — where an error by the grammar stands, and what it depends on

An error by the grammar stands just behind the token that it names, or at the end of the text if it names
none. What comes behind that token has not been read, so it can be anything, as long as the token is
scanned there all the same: two texts that start alike are scanned alike up to that token
(`Scanner.drain_shared`), and a parser that fails there fails on both (`Replay.parse_of_shared`).

## Main result
- `Source.blame_of_parse`: the token and the place of an error, and the sources that have the same one.
-/

namespace LambdaReader

open TokenSource

namespace Source

variable {s s' : Source} {o : ParseOptions} {e : Failure} {f : Fault}

/-- Sources with the same tokens up to the one that is at fault fail alike. -/
theorem parse_of_shared {ts us us' : List Token} {t : Token} (hfile : s'.file = s.file)
    (hts : (drain s.scanner).1 = ts ++ us) (hts' : (drain s'.scanner).1 = ts ++ us') (ht : t ∉ us)
    (h : s.parse o = .error e) (hfound : e.found? = some t) : s'.parse o = .error e := by
  have hending : (drain s.scanner).2.Tokenless := by
    intro e he
    obtain ⟨cause, l, rfl⟩ := s.scanner.drain_failed e he
    rfl
  rw [parse_eq_parseRecorded, parseRecorded, Replay.ofSource, hts] at h
  rw [parse_eq_parseRecorded, parseRecorded, Replay.ofSource, hts']
  have hlocation : location s'.scanner = location s.scanner := congrArg Location.start hfile
  rw [hlocation]
  exact Replay.parse_of_shared hending h hfound ht

/-- An error by the grammar that names a token stands just behind the lexeme of that token, and every text
that starts alike up to there and is scanned into that token has the same error, whatever comes behind.
An error that names none stands at the end of the text, where the parser has asked for another token. -/
theorem blame_of_parse (h : s.parse o = .error e) (hf : e.fault? = .ok f)
    (hfamily : f.family = .grammar) :
    (∀ t, f.token = some t → t ∈ (drain s.scanner).1 ∧ ∃ front back,
      s.text.toList = front ++ (t.lexeme.toList ++ back) ∧ t.location = .behind s.file front ∧
      f.location = .behind s.file (front ++ t.lexeme.toList) ∧
      ∀ (s' : Source) (back' : List Char), s'.file = s.file → s'.strictStrings = s.strictStrings →
        s'.text.toList = front ++ (t.lexeme.toList ++ back') → t ∈ (drain s'.scanner).1 →
        s'.parse o = .error e) ∧
    (f.token = none → f.location = .behind s.file s.text.toList ∧
      ∃ ts, s.tokens = .ok ts ∧ Replay.AsksBeyond o ts (.start s.file)) := by
  have hrecorded := h
  rw [parse_eq_parseRecorded] at hrecorded
  have hlexemes := Scanner.isLexeme_of_mem_drain s.scanner
  rcases Replay.stops_of_parse hlexemes hrecorded with hbroken | ⟨cause, t, ht, rfl⟩ | ⟨cause, l, hend, rfl⟩
  · -- A failure of the scan is no error by the grammar.
    obtain ⟨cause, l, rfl⟩ := s.scanner.drain_failed e hbroken
    rw [Failure.fault?_lexical] at hf
    cases hf
    cases hfamily
  · rw [Failure.fault?_grammar] at hf
    cases hf
    refine ⟨?_, fun hnone => absurd hnone (Option.some_ne_none t)⟩
    rintro _ ⟨⟩
    obtain ⟨front, back, htext, hlocation⟩ := s.scanner.place_of_mem_drain t ht
    have hstop : t.stop = (Location.start s.file).advance (front ++ t.lexeme.toList) := by
      rw [Token.stop, hlocation, Location.advance_append]
      rfl
    refine ⟨ht, front, back, htext, hlocation, hstop, fun s' back' hfile hstrict htext' ht' => ?_⟩
    -- Both texts go on behind the same one, which the scanners have read before they differ.
    have hscanner : s.scanner =
        .facing (.start s.file) s.strictStrings (front ++ t.lexeme.toList ++ back) := by
      rw [List.append_assoc, ← htext]
      rfl
    have hscanner' : s'.scanner =
        .facing (.start s.file) s.strictStrings (front ++ t.lexeme.toList ++ back') := by
      rw [List.append_assoc, ← htext', ← hfile, ← hstrict]
      rfl
    rw [hscanner] at ht
    rw [hscanner'] at ht'
    obtain ⟨ts, us, us', hts, hts', hnot⟩ := Scanner.drain_shared hstop ht ht'
    rw [← hscanner] at hts
    rw [← hscanner'] at hts'
    exact parse_of_shared hfile hts hts' hnot h rfl
  · rw [Failure.fault?_grammar] at hf
    cases hf
    refine ⟨?_, fun _ => ⟨s.scanner.drain_done l hend, (drain s.scanner).1, ?_, ?_⟩⟩
    · rintro _ ⟨⟩
    · rw [tokens_eq, hend]
    · by_contra hasks
      obtain ⟨cause', t, _, hparse⟩ := Replay.parse_of_not_asksBeyond hlexemes hasks
      cases hrecorded.symm.trans (hparse _)

/-- What stands behind a bracket that is never opened makes no difference, even if it cannot be scanned. -/
theorem blame_of_parse_bracket :
    let s : Source := ⟨"a ) b", "x", false⟩
    let s' : Source := ⟨"a )..", "x", false⟩
    ∃ e f, s.parse {} = .error e ∧ e.fault? = .ok f ∧ f.token.map Token.lexeme = some ")" ∧
      f.location = ⟨"x", 1, 3, 3⟩ ∧ s'.tokens.isOk = false ∧ s'.parse {} = .error e := by
  intro s s'
  let t : Token := .plain .punctuation ")" ⟨"x", 1, 2, 2⟩
  let e : Failure := .grammar (.expected .punctuation ";") (some t) ⟨"x", 1, 3, 3⟩
  have h : s.parse {} = .error e := parse_of_failure? (by decide +kernel)
  have hf := Failure.fault?_grammar (.expected .punctuation ";") (some t) ⟨"x", 1, 3, 3⟩
  obtain ⟨_, front, back, htext, hlocation, hplace, hshared⟩ := (blame_of_parse h hf rfl).1 t rfl
  have htext₀ : s.text.toList = ['a', ' '] ++ (t.lexeme.toList ++ [' ', 'b']) := by decide +kernel
  have htext' : s'.text.toList = ['a', ' '] ++ (t.lexeme.toList ++ ['.', '.']) := by decide +kernel
  have hoffset : (2 : Int) = front.length :=
    (congrArg Location.offset hlocation).trans (Location.behind_offset _ front)
  have hlength : ['a', ' '].length = front.length := Int.ofNat_inj.mp hoffset
  obtain ⟨rfl, _⟩ := List.append_inj (htext₀.symm.trans htext) hlength
  refine ⟨e, _, h, hf, rfl, rfl, by decide +kernel, ?_⟩
  exact hshared s' ['.', '.'] rfl rfl htext' (by decide +kernel)

end Source
end LambdaReader
