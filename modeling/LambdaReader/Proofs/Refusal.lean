import LambdaReader.Proofs.Requests
import LambdaReader.Proofs.Spelling

/-!
# `Proofs.Refusal` — what a scan that fails leaves behind

A scan moves over some of the text whatever its outcome is (`Along`). Where it fails, it depends on the
cause how far it has moved: a stray character is still ahead, an open string is behind as a whole, and so
is a lone point. The first two leave a scanner that gives no token any more. Behind a lone point there may
be tokens, and the scan goes on with them.

## Main results
- `Scanner.readNext_refused`: the cause, the place and the state after a scan that fails;
- `Source.stopped_after_failure`: what is given to requests after one that has failed.
-/

namespace LambdaReader

open Lexicon Lexeme TokenSource Step

/-- No token stands here for that cause; `passed` is what the scan has moved over, and `rest` what it has
not. -/
inductive Refuses (strict : Bool) : LexicalCause → List Char → List Char → Prop where
  | stray {c : Char} {cs : List Char} : Stuck (.strayCharacter c) (c :: cs) →
      Refuses strict (.strayCharacter c) [] (c :: cs)
  | point {cs : List Char} : Stuck .lonePoint (point :: cs) → Refuses strict .lonePoint [point] cs
  /-- A string has no quote at its end. -/
  | opened {cs tail : List Char} : strict = true → Unquoted cs → tail = [] ∨ tail = [escapeMark] →
      Refuses strict .openString (stringQuote :: (cs ++ tail)) []

namespace Scanner

variable {s s' s'' : Scanner} {e : Failure}

/-! ## Scans move along the text -/

/-- The scanner has moved over some of the text. -/
def Along (s s' : Scanner) : Prop := ∃ run, run <+: s.cursor.rest ∧ s' = s.after run

theorem after_nil (s : Scanner) : s.after [] = s := rfl

theorem after_append (s : Scanner) (run run' : List Char) :
    s.after (run ++ run') = (s.after run).after run' := by
  rw [after, after, after, Cursor.consume, Cursor.consume, Cursor.consume, Location.advance_append,
    List.length_append, List.drop_drop]

theorem Along.refl (s : Scanner) : s.Along s := ⟨[], List.nil_prefix, rfl⟩

theorem Along.trans (h : s.Along s') (h' : s'.Along s'') : s.Along s'' := by
  obtain ⟨run, ⟨rest, hrest⟩, rfl⟩ := h
  obtain ⟨run', hprefix, rfl⟩ := h'
  rw [after_rest, ← hrest, List.drop_left] at hprefix
  refine ⟨run ++ run', ?_, (after_append s run run').symm⟩
  rw [← hrest]
  exact (List.prefix_append_right_inj run).mpr hprefix

theorem along_trivia (s : Scanner) : s.Along (s.after (triviaRun false s.cursor.rest)) :=
  ⟨_, triviaRun_isPrefix _ _, rfl⟩

theorem Along.of_scan {found : Option Token} (h : readNext s = .ok found s') : s.Along s' := by
  cases found with
  | none =>
    obtain ⟨rfl, _⟩ := readNext_none h
    exact along_trivia s
  | some t =>
    obtain ⟨run, hrun, _, _, rfl⟩ := readNext_some h
    exact (along_trivia s).trans ⟨run, hrun, rfl⟩

/-! ## Scans that fail -/

/-- A run of digits and points that is no numeral is a point without a digit behind it. -/
theorem stuck_of_numeralRun {c : Char} {cs : List Char} (h : numeralRun (c :: cs) = [point]) :
    c = point ∧ Stuck .lonePoint (c :: cs) := by
  have hc : c = point := by
    obtain ⟨rest, hrest⟩ := numeralRun_isPrefix (c :: cs)
    rw [h] at hrest
    injection hrest with hc _
    exact hc.symm
  subst hc
  refine ⟨rfl, .point fun d hd => ?_⟩
  obtain ⟨ds, rfl⟩ := List.head?_eq_some_iff.mp hd
  have hpoint : isDigit point = false := by decide
  rw [numeralRun, List.dropWhile_cons_of_neg (by simp [hpoint]),
    List.takeWhile_cons_of_neg (by simp [hpoint])] at h
  dsimp only at h
  rw [if_pos rfl, List.nil_append] at h
  injection h with _ hdigits
  refine Bool.eq_false_iff.mpr fun hdigit => ?_
  rw [List.takeWhile_cons_of_pos hdigit] at hdigits
  cases hdigits

/-- Behind the quote of an open string there is no other one that is not escaped. -/
theorem exists_unquoted_of_open {cs : List Char}
    (h : (Literal.ofBody (· = stringQuote) cs).closed = false) :
    ∃ body tail, cs = body ++ tail ∧ Unquoted body ∧ (tail = [] ∨ tail = [escapeMark]) := by
  obtain ⟨body, tail, rfl, hbody, ⟨rest, rfl⟩ | htail⟩ := exists_unquoted cs
  · rw [hbody.ofBody_quote] at h
    cases h
  · exact ⟨body, tail, rfl, hbody, htail⟩

/-- Where a token is refused, the first character of the text tells why. -/
theorem readToken_refused {c : Char} {cs : List Char} (hs : s.cursor.rest = c :: cs)
    (hblank : isBlank c = false) (hmark : c ≠ commentMark) (h : readToken c s = .error e s') :
    ∃ cause passed rest, c :: cs = passed ++ rest ∧ e = .lexical cause s.location ∧
      s' = s.after passed ∧ Refuses s.strict cause passed rest := by
  unfold readToken at h
  by_cases hquote : c = stringQuote
  · rw [if_pos hquote] at h
    subst hquote
    simp only [readString, readLiteral, bind_apply, get_apply] at h
    rw [hs] at h
    split at h
    · cases h
    · next hread =>
      split at hread
      · next hopen =>
        cases hread
        cases h
        simp only [Literal.ofFront, Literal.mark, Bool.and_eq_true, Bool.not_eq_true'] at hopen ⊢
        obtain ⟨body, tail, rfl, hbody, htail⟩ := exists_unquoted_of_open hopen.1
        have hall := Literal.raw_ofBody_of_open hopen.1
        refine ⟨_, stringQuote :: (body ++ tail), [], (List.append_nil _).symm, rfl, ?_,
          .opened hopen.2 hbody htail⟩
        rw [hall]
        rfl
      · cases hread
  rw [if_neg hquote] at h
  by_cases hnumber : isDigit c = true ∨ c = point
  · rw [if_pos hnumber] at h
    simp only [readNumber, bind_apply, get_apply, take_apply] at h
    rw [hs] at h
    by_cases hpoint : numeralRun (c :: cs) = [point]
    · rw [if_pos hpoint, hpoint] at h
      cases h
      obtain ⟨rfl, hstuck⟩ := stuck_of_numeralRun hpoint
      exact ⟨_, [point], cs, rfl, rfl, rfl, .point hstuck⟩
    · -- every other numeral denotes a number
      rw [if_neg hpoint] at h
      obtain ⟨d, hd⟩ := ofNumeral?_isSome ((numeralRun_spec cs hnumber).resolve_left hpoint)
      rw [hd] at h
      cases h
  rw [if_neg hnumber] at h
  by_cases hword : isIdentifierStart c = true
  · rw [if_pos hword] at h
    cases h
  rw [if_neg hword] at h
  by_cases hpunctuation : isPunctuation c = true
  · rw [if_pos hpunctuation] at h
    cases h
  rw [if_neg hpunctuation] at h
  by_cases hop : isOperatorChar c = true
  · rw [if_pos hop] at h
    cases h
  rw [if_neg hop] at h
  cases h
  refine ⟨_, [], c :: cs, rfl, rfl, rfl, .stray (.stray hblank hmark ?_)⟩
  intro kind run tail hclass
  have hopens := hclass.opens
  cases kind with
  | number => exact hnumber hopens
  | string => exact hquote hopens
  | keyword | identifier => exact hword hopens
  | punctuation => exact hpunctuation hopens
  | operator => exact hop hopens

/-- A scan that fails has moved over a gap, and over what it refuses unless that is a stray character. -/
theorem readNext_refused (h : readNext s = .error e s') :
    ∃ gap passed rest cause, s.cursor.rest = gap ++ (passed ++ rest) ∧ Gap gap ∧
      e = .lexical cause (s.location.advance gap) ∧ s' = s.after (gap ++ passed) ∧
      Refuses s.strict cause passed rest := by
  rw [readNext_apply] at h
  rcases exists_gap s.cursor.rest with htrivia | ⟨gap, c, cs, hrest, hgap, hblank, hmark⟩
  · rw [htrivia.triviaRun_eq, after_rest, List.drop_length] at h
    cases h
  · have hskip : triviaRun false s.cursor.rest = gap := by
      rw [hrest, triviaRun_gap hgap, triviaRun]
      simp [hblank, hmark]
    have hahead : (s.after gap).cursor.rest = c :: cs := by
      rw [after_rest, hrest, List.drop_left]
    rw [hskip, hahead] at h
    dsimp only at h
    cases hread : readToken c (s.after gap) with
    | ok t s'' => rw [hread] at h; cases h
    | error e' s'' =>
      rw [hread] at h
      cases h
      obtain ⟨cause, passed, rest, htext, rfl, rfl, hrefuses⟩ :=
        readToken_refused hahead hblank hmark hread
      exact ⟨gap, passed, rest, cause, by rw [hrest, htext], hgap, rfl, (after_append s gap passed).symm,
        hrefuses⟩

theorem Along.of_failure (h : readNext s = .error e s') : s.Along s' := by
  obtain ⟨gap, passed, rest, _, hrest, _, _, rfl, _⟩ := readNext_refused h
  exact ⟨gap ++ passed, ⟨rest, by rw [hrest, List.append_assoc]⟩, rfl⟩

/-- A scan that stops at a stray character stops there again. -/
theorem readNext_stray {c : Char} {cs : List Char} (hs : s.cursor.rest = c :: cs)
    (h : Stuck (.strayCharacter c) (c :: cs)) :
    readNext s = .error (.lexical (.strayCharacter c) s.location) s := by
  cases h with
  | stray hblank hmark hnone =>
    have hskip : triviaRun false s.cursor.rest = [] := by
      rw [hs, triviaRun]
      simp [hblank, hmark]
    rw [readNext_apply, hskip, after_nil, hs]
    dsimp only
    rw [readToken_stray (not_opens hnone)]

/-! ## What comes behind a failure -/

/-- A token comes, be it behind points that stand alone. -/
inductive Resumes : Scanner → Prop where
  | token {s s' : Scanner} {t : Token} : readNext s = .ok (some t) s' → Resumes s
  | point {s s' : Scanner} {l : Location} : readNext s = .error (.lexical .lonePoint l) s' →
      Resumes s' → Resumes s

theorem not_resumes_of_none (h : readNext s = .ok none s') : ¬s.Resumes := by
  intro hresumes
  cases hresumes with
  | token hscan => cases h.symm.trans hscan
  | point hscan _ => cases h.symm.trans hscan

/-- Nothing but a lone point lets tokens follow what is refused. -/
theorem not_resumes_of_refuses {gap passed rest : List Char} {cause : LexicalCause}
    (hrest : s.cursor.rest = gap ++ (passed ++ rest)) (h : Refuses s.strict cause passed rest)
    (hcause : cause ≠ .lonePoint) : ¬(s.after (gap ++ passed)).Resumes := by
  have hahead : (s.after (gap ++ passed)).cursor.rest = rest := by
    rw [after_rest, hrest, ← List.append_assoc, List.drop_left]
  cases h with
  | stray hstuck =>
    intro hresumes
    have hstop := readNext_stray hahead hstuck
    cases hresumes with
    | token hscan => cases hstop.symm.trans hscan
    | point hscan _ => cases hstop.symm.trans hscan
  | point => exact absurd rfl hcause
  | opened => exact not_resumes_of_none (readNext_of_nil hahead)

end Scanner

/-! ## Requests after a failure -/

/-- The tokens in an answer. -/
def Answer.given : Answer → List Token
  | .token found => found.toList
  | .flag _ => []
  | .tokens ts => ts

namespace Lookahead

/-- The answers to requests made one after the other, failures among them. -/
def replies {σ : Type} [TokenSource σ] : List Request → Lookahead σ → List (Except Failure Answer)
  | [], _ => []
  | r :: rs, l =>
    match ask r l with
    | .ok a l' => .ok a :: replies rs l'
    | .error e l' => .error e :: replies rs l'

/-- The lookahead after requests made one after the other, whatever their outcome is. -/
def after {σ : Type} [TokenSource σ] : List Request → Lookahead σ → Lookahead σ
  | [], l => l
  | r :: rs, l =>
    match ask r l with
    | .ok _ l' => after rs l'
    | .error _ l' => after rs l'

/-- What an outcome says of the scans that were made: a failure is that of the last one, and nothing is
held back then. -/
inductive Scanned (l : Lookahead Scanner) {α : Type} :
    EStateM.Result Failure (Lookahead Scanner) α → Prop where
  | ok {a : α} {l' : Lookahead Scanner} : l.source.Along l'.source → Scanned l (.ok a l')
  | error {e : Failure} {s : Scanner} {l' : Lookahead Scanner} : l.source.Along s →
      Scanner.readNext s = .error e l'.source → l'.ahead = none → Scanned l (.error e l')

variable {l : Lookahead Scanner}

theorem Scanned.bind {α β : Type} {m : EStateM Failure (Lookahead Scanner) α} (f : α → β)
    (h : Scanned l (m l)) : Scanned l ((do return f (← m)) l) := by
  rw [bind_apply]
  generalize m l = r at h
  cases h with
  | ok halong => exact .ok halong
  | error halong hscan hnone => exact .error halong hscan hnone

theorem scanned_peek (l : Lookahead Scanner) : Scanned l (peek l) := by
  obtain ⟨s, ahead, j⟩ := l
  cases ahead with
  | some t => rw [peek_of_ahead rfl]; exact .ok (.refl s)
  | none =>
    rw [peek_of_none]
    cases hscan : scan s with
    | error e s' => exact .error (.refl s) hscan rfl
    | ok found s' =>
      have halong : s.Along s' := .of_scan hscan
      cases found <;> exact .ok halong

theorem scanned_next (l : Lookahead Scanner) : Scanned l (next l) := by
  have hpeek := scanned_peek l
  rw [next_eq_peek]
  generalize peek l = r at hpeek
  cases hpeek with
  | ok halong => exact .ok halong
  | error halong hscan hnone => exact .error halong hscan hnone

theorem scanned_take (n : Nat) (l : Lookahead Scanner) : Scanned l (take n l) := by
  induction n generalizing l with
  | zero => exact .ok (.refl _)
  | succ n ih =>
    have hpeek := scanned_peek l
    rw [take_succ]
    generalize peek l = r at hpeek
    cases hpeek with
    | error halong hscan hnone => exact .error halong hscan hnone
    | @ok found l' halong =>
      cases found with
      | none => exact .ok halong
      | some t =>
        have hrest := ih l'.forget
        dsimp only
        generalize take n l'.forget = r at hrest
        cases hrest with
        | ok halong' => exact .ok (halong.trans halong')
        | error halong' hscan hnone => exact .error (halong.trans halong') hscan hnone

theorem scanned_ask (r : Request) (l : Lookahead Scanner) : Scanned l (ask r l) := by
  cases r with
  | peek => exact (scanned_peek l).bind _
  | next => exact (scanned_next l).bind _
  | atEnd => exact ((scanned_peek l).bind _).bind _
  | take n => exact (scanned_take n l).bind _
  | toList => exact (scanned_take _ l).bind _

/-- Requests leave the scanner further on in the text. -/
theorem along_after (rs : List Request) (l : Lookahead Scanner) : l.source.Along (after rs l).source := by
  induction rs generalizing l with
  | nil => exact .refl _
  | cons r rs ih =>
    have hr := scanned_ask r l
    rw [after]
    generalize ask r l = outcome at hr
    cases hr with
    | ok halong => exact halong.trans (ih _)
    | error halong hscan _ => exact (halong.trans (.of_failure hscan)).trans (ih _)

/-- Nothing is held back, and no token comes. -/
structure Silent (l : Lookahead Scanner) : Prop where
  ahead : l.ahead = none
  source : ¬l.source.Resumes

/-- The outcome is that value or a failure, and no token comes behind it. -/
inductive Ends {α : Type} (a : α) : EStateM.Result Failure (Lookahead Scanner) α → Prop where
  | ok {l : Lookahead Scanner} : l.Silent → Ends a (.ok a l)
  | error {e : Failure} {l : Lookahead Scanner} : l.Silent → Ends a (.error e l)

theorem Ends.bind {α β : Type} {a : α} {m : EStateM Failure (Lookahead Scanner) α} (f : α → β)
    (h : Ends a (m l)) : Ends (f a) ((do return f (← m)) l) := by
  rw [bind_apply]
  generalize m l = r at h
  cases h with
  | ok hl' => exact .ok hl'
  | error hl' => exact .error hl'

theorem Silent.peek (h : l.Silent) : Ends none (peek l) := by
  obtain ⟨s, ahead, j⟩ := l
  obtain rfl : ahead = none := h.ahead
  rw [peek_of_none]
  cases hscan : scan s with
  | error e s' =>
    refine .error ⟨rfl, fun hresumes => ?_⟩
    obtain ⟨gap, passed, rest, cause, hrest, _, rfl, rfl, hrefuses⟩ := Scanner.readNext_refused hscan
    by_cases hcause : cause = .lonePoint
    · subst hcause
      exact h.source (.point hscan hresumes)
    · exact Scanner.not_resumes_of_refuses hrest hrefuses hcause hresumes
  | ok found s' =>
    cases found with
    | none =>
      have hend : Scanner.readNext s' = .ok none s' := (LawfulTokenSource.scan_none hscan).2
      exact .ok ⟨rfl, Scanner.not_resumes_of_none hend⟩
    | some t => exact absurd (.token hscan) h.source

theorem Silent.next (h : l.Silent) : Ends none (next l) := by
  have hpeek := h.peek
  rw [next_eq_peek]
  generalize Lookahead.peek l = r at hpeek
  cases hpeek with
  | ok hl' =>
    dsimp only
    rw [forget_eq_self hl'.ahead]
    exact .ok hl'
  | error hl' => exact .error hl'

theorem Silent.take (n : Nat) (h : l.Silent) : Ends [] (take n l) := by
  cases n with
  | zero => exact .ok h
  | succ n =>
    have hpeek := h.peek
    rw [take_succ]
    generalize Lookahead.peek l = r at hpeek
    cases hpeek with
    | ok hl' => exact .ok hl'
    | error hl' => exact .error hl'

theorem Silent.ask (r : Request) (h : l.Silent) : ∃ a : Answer, a.given = [] ∧ Ends a (ask r l) := by
  cases r with
  | peek => exact ⟨_, rfl, h.peek.bind Answer.token⟩
  | next => exact ⟨_, rfl, h.next.bind Answer.token⟩
  | atEnd => exact ⟨_, rfl, (h.peek.bind Option.isNone).bind Answer.flag⟩
  | take n => exact ⟨_, rfl, (h.take n).bind Answer.tokens⟩
  | toList => exact ⟨_, rfl, (h.take (l.bound + 1)).bind Answer.tokens⟩

theorem Silent.given_eq_nil (rs : List Request) (h : l.Silent) {a : Answer}
    (ha : .ok a ∈ l.replies rs) : a.given = [] := by
  induction rs generalizing l with
  | nil => cases ha
  | cons r rs ih =>
    obtain ⟨b, hb, hr⟩ := h.ask r
    rw [replies] at ha
    generalize Lookahead.ask r l = outcome at ha hr
    cases hr with
    | ok hl' =>
      rcases List.mem_cons.mp ha with hab | hrest
      · rw [Except.ok.inj hab, hb]
      · exact ih hl' hrest
    | error hl' => exact ih hl' (by simpa using ha)

/-- A token that comes is seen by looking often enough. -/
theorem exists_given {s : Scanner} (h : s.Resumes) (j : Array Note) :
    ∃ rs a, .ok a ∈ replies rs ⟨s, none, j⟩ ∧ a.given ≠ [] := by
  induction h with
  | @token s s' t hscan =>
    have hpeek : peek ⟨s, none, j⟩ = .ok (some t) ⟨s', some t, j.push (.scanned t)⟩ := by
      rw [peek_of_none, show scan s = _ from hscan]
    refine ⟨[.peek], .token (some t), ?_, List.cons_ne_nil _ _⟩
    rw [replies, ask, bind_of_ok hpeek]
    exact List.mem_cons_self
  | @point s s' p hscan _ ih =>
    obtain ⟨rs, a, ha, hgiven⟩ := ih
    refine ⟨.peek :: rs, a, ?_, hgiven⟩
    rw [replies, ask, bind_apply, peek_of_none, show scan s = _ from hscan]
    exact List.mem_cons_of_mem _ ha

end Lookahead

/-- Whatever was asked before, a request fails for a lexical cause at the place where no token stands. No
later request is answered with a token, unless a lone point was the cause and a token comes behind it. -/
theorem Source.stopped_after_failure (s : Source) (rs : List Request) (r : Request) {e : Failure}
    {l : Lookahead Scanner}
    (h : ((Lookahead.ofSource s.scanner).after rs).ask r = .error e l) :
    ∃ cause front passed back, s.text.toList = front ++ (passed ++ back) ∧
      e = .lexical cause (.behind s.file front) ∧ Refuses s.strictStrings cause passed back ∧
      l.source = s.scanner.after (front ++ passed) ∧
      ((∀ rs' a, .ok a ∈ l.replies rs' → a.given = []) ↔ (cause = .lonePoint → ¬l.source.Resumes)) := by
  have halong := Lookahead.along_after rs (Lookahead.ofSource s.scanner)
  have hscanned := Lookahead.scanned_ask r ((Lookahead.ofSource s.scanner).after rs)
  rw [h] at hscanned
  cases hscanned with
  | error halong' hscan hnone =>
    obtain ⟨run, ⟨rest, htext⟩, rfl⟩ := halong.trans halong'
    obtain ⟨gap, passed, back, cause, hrest, _, rfl, hsource, hrefuses⟩ := Scanner.readNext_refused hscan
    have hback : rest = gap ++ (passed ++ back) := by
      rw [← hrest, Scanner.after_rest, ← htext, List.drop_left]
    refine ⟨cause, run ++ gap, passed, back, ?_, ?_, hrefuses, ?_, fun hgiven hcause hresumes => ?_,
      fun hcause rs' a ha => ?_⟩
    · rw [List.append_assoc, ← hback]
      exact htext.symm
    · rw [Location.behind, Location.advance_append]
      rfl
    · rw [hsource, ← Scanner.after_append, List.append_assoc]
      rfl
    · obtain ⟨rs', a, ha, hne⟩ := Lookahead.exists_given hresumes l.journal
      rw [← hnone] at ha
      exact hne (hgiven rs' a ha)
    · refine Lookahead.Silent.given_eq_nil rs' ⟨hnone, ?_⟩ ha
      by_cases hpoint : cause = .lonePoint
      · exact hcause hpoint
      · rw [hsource]
        exact Scanner.not_resumes_of_refuses hrest hrefuses hpoint

/-- After the failure at `$` nothing is given any more. -/
theorem Source.stopped_after_failure_stray :
    let l := (Lookahead.ofSource (Source.scanner ⟨"a $ b", "x", true⟩)).after [.take 1, .next]
    ∃ l', l.ask .peek = .error (.lexical (.strayCharacter '$') ⟨"x", 1, 2, 2⟩) l' ∧
      ∀ rs' a, .ok a ∈ l'.replies rs' → a.given = [] := by
  intro l
  have h : ∃ l', l.ask .peek = .error (.lexical (.strayCharacter '$') ⟨"x", 1, 2, 2⟩) l' := ⟨_, rfl⟩
  obtain ⟨l', hl'⟩ := h
  obtain ⟨cause, front, passed, back, _, hcause, _, _, hgiven⟩ :=
    Source.stopped_after_failure ⟨"a $ b", "x", true⟩ [.take 1, .next] .peek hl'
  refine ⟨l', hl', hgiven.mpr fun hpoint => ?_⟩
  rw [hpoint] at hcause
  cases hcause

/-- Looking again behind the point in `. a` gives the name. -/
theorem Source.given_behind_point :
    ∃ l l' t, (Lookahead.ofSource (Source.scanner ⟨". a", "x", false⟩)).ask .peek =
        .error (.lexical .lonePoint ⟨"x", 1, 0, 0⟩) l ∧
      l.ask .peek = .ok (.token (some t)) l' ∧ t.lexeme = "a" ∧ t.location = ⟨"x", 1, 2, 2⟩ :=
  ⟨_, _, _, rfl, rfl, rfl, rfl⟩

end LambdaReader
