import Mathlib.Control.Monad.Basic
import LambdaReader.Proofs.Stream

/-!
# `Proofs.Cutting` — how a text is cut into tokens

A text is blanks, comments and lexemes by turns, each lexeme the longest one of its class that stands
there. `Cut` says so without a scanner: the classes are sets of words, `Longest` compares a word with all
others of its class, and `Stuck` is a place where no class has a word.

Every text can be cut up to its end or up to a place where it is stuck, and the scanner gives the tokens of
any cut. So it gives those of the only one there is, and fails where that one is stuck.

## Main result
- `Source.tokens_cut`: the tokens of a text, or its lexical fault, by the ways to cut it.
-/

namespace LambdaReader

open Lexicon

namespace Lexeme

/-! ## Classes -/

/-- No quote stands among the characters but behind an escape mark. -/
inductive Unquoted : List Char → Prop where
  | nil : Unquoted []
  | plain {c : Char} {cs : List Char} : c ≠ escapeMark → c ≠ stringQuote → Unquoted cs →
      Unquoted (c :: cs)
  | escaped {c : Char} {cs : List Char} : Unquoted cs → Unquoted (escapeMark :: c :: cs)

/-- From a quote to the first one that is not escaped, or else to the end of the text. -/
inductive Quoted : List Char → List Char → Prop where
  | closed {cs rest : List Char} : Unquoted cs → Quoted (stringQuote :: (cs ++ [stringQuote])) rest
  | opened {cs : List Char} : Unquoted cs → Quoted (stringQuote :: cs) []
  /-- The text ends behind an escape mark. -/
  | dangling {cs : List Char} : Unquoted cs → Quoted (stringQuote :: (cs ++ [escapeMark])) []

/-- The characters are a word of the class of that kind where `rest` stands behind them. -/
def InClass : TokenKind → List Char → List Char → Prop
  | .number, run, _ => isNumeral run = true
  | .string, run, rest => Quoted run rest
  | .keyword, run, _ | .identifier, run, _ => isWord run = true
  | .punctuation, run, _ => ∃ c, run = [c] ∧ isPunctuation c = true
  | .operator, run, _ => isSymbol run = true

/-- No longer word of the class stands at the same place. -/
structure Longest (kind : TokenKind) (run rest : List Char) : Prop where
  inClass : InClass kind run rest
  length_le : ∀ ⦃run' rest' : List Char⦄, run' ++ rest' = run ++ rest → InClass kind run' rest' →
    run'.length ≤ run.length

/-- Blanks and comments, the last of which may go on to the end of the text. -/
inductive Trivia : List Char → Prop where
  | gap {cs : List Char} : Gap cs → Trivia cs
  | comment {cs line : List Char} : Gap cs → (∀ c ∈ line, c ≠ '\n') →
      Trivia (cs ++ commentMark :: line)

/-- No token can be read here: a point stands without a digit behind it, or a character that is no part
of a gap and starts no word of any class. -/
inductive Stuck : LexicalCause → List Char → Prop where
  | point {rest : List Char} : (∀ c ∈ rest.head?, isDigit c = false) →
      Stuck .lonePoint (point :: rest)
  | stray {c : Char} {rest : List Char} : isBlank c = false → c ≠ commentMark →
      (∀ kind cs tail, ¬InClass kind (c :: cs) tail) → Stuck (.strayCharacter c) (c :: rest)

end Lexeme

open Lexeme TokenSource

/-- The place behind a text at the start of a file. -/
def Location.behind (file : String) (before : List Char) : Location := (Location.start file).advance before

@[simp] theorem Location.behind_offset (file : String) (before : List Char) :
    (Location.behind file before).offset = before.length := by
  simp [behind, start]

/-- Behind `before`, what stands there is cut into gaps and tokens by turns; `before'` and `rest'` are
the text that is cut off and the text that is left. -/
inductive Cut (file : String) : List Char → List Char → List Token → List Char → List Char → Prop where
  | nil {before rest : List Char} : Cut file before rest [] before rest
  | token {before gap rest before' rest' : List Char} {t : Token} {ts : List Token} :
    Gap gap → t.location = .behind file (before ++ gap) →
    Longest t.kind t.lexeme.toList rest → (t.kind = .keyword ↔ isKeyword t.lexeme = true) →
    t.IsLexeme → Cut file (before ++ gap ++ t.lexeme.toList) rest ts before' rest' →
    Cut file before (gap ++ (t.lexeme.toList ++ rest)) (t :: ts) before' rest'

namespace Lexeme

/-! ## Words of a class -/

variable {kind : TokenKind} {c : Char} {cs run rest : List Char}

/-- The characters that the words of a class can start with. -/
def Opens (c : Char) : TokenKind → Prop
  | .number => isDigit c = true ∨ c = point
  | .string => c = stringQuote
  | .keyword | .identifier => isIdentifierStart c = true
  | .punctuation => isPunctuation c = true
  | .operator => isOperatorChar c = true

theorem InClass.exists_cons (h : InClass kind run rest) : ∃ c cs, run = c :: cs ∧ Opens c kind := by
  cases kind with
  | number =>
    have hnum : isNumeral run = true := h
    cases run with
    | nil => exact absurd hnum (by decide)
    | cons c cs =>
      simp only [isNumeral, List.all_cons, Bool.and_eq_true, Bool.or_eq_true, beq_iff_eq] at hnum
      exact ⟨c, cs, rfl, hnum.1.1.1⟩
  | string =>
    have hquoted : Quoted run rest := h
    cases hquoted with
    | closed | opened | dangling => exact ⟨_, _, rfl, rfl⟩
  | keyword | identifier =>
    have hword : isWord run = true := h
    cases run with
    | nil => exact absurd hword (by decide)
    | cons c cs => exact ⟨c, cs, rfl, (Bool.and_eq_true_iff.mp hword).1⟩
  | punctuation =>
    obtain ⟨c, rfl, hc⟩ := h
    exact ⟨c, [], rfl, hc⟩
  | operator =>
    have hsymbol : isSymbol run = true := h
    cases run with
    | nil => exact absurd hsymbol (by decide)
    | cons c cs =>
      simp only [isSymbol, List.all_cons, Bool.and_eq_true] at hsymbol
      exact ⟨c, cs, rfl, hsymbol.2.1⟩

theorem InClass.opens (h : InClass kind (c :: cs) rest) : Opens c kind := by
  obtain ⟨c', cs', hcons, hopens⟩ := h.exists_cons
  injection hcons with hc _
  exact hc ▸ hopens

/-- A text goes on without a bare quote up to one, up to its end, or up to an escape mark there. -/
theorem exists_unquoted (cs : List Char) :
    ∃ body tail, cs = body ++ tail ∧ Unquoted body ∧
      ((∃ rest, tail = stringQuote :: rest) ∨ tail = [] ∨ tail = [escapeMark]) := by
  fun_induction Literal.ofBody (· = stringQuote) cs with
  | case1 => exact ⟨[], [], rfl, .nil, .inr (.inl rfl)⟩
  | case2 => exact ⟨[], [_], rfl, .nil, .inr (.inr rfl)⟩
  | case3 e rest ih =>
    obtain ⟨body, tail, rfl, hbody, htail⟩ := ih
    exact ⟨_, tail, rfl, .escaped hbody, htail⟩
  | case4 c rest _ hclose =>
    obtain rfl := of_decide_eq_true hclose
    exact ⟨[], _, rfl, .nil, .inl ⟨rest, rfl⟩⟩
  | case5 c rest hescape hclose ih =>
    obtain ⟨body, tail, rfl, hbody, htail⟩ := ih
    exact ⟨_, tail, rfl, .plain hescape (by simpa using hclose) hbody, htail⟩

/-- Where a character can start a word of a class, there is one, unless the character is a point that no
digit follows. -/
theorem Opens.exists_inClass (h : Opens c kind) (hpoint : c = point → ∃ d ∈ rest.head?, isDigit d = true) :
    ∃ run tail, run ++ tail = c :: rest ∧ InClass kind run tail := by
  cases kind with
  | number =>
    by_cases hc : c = point
    · obtain ⟨d, hd, hdigit⟩ := hpoint hc
      obtain ⟨rest, rfl⟩ := List.head?_eq_some_iff.mp hd
      refine ⟨[c, d], rest, rfl, ?_⟩
      rw [hc]
      exact @isNumeral_pointed [] [d] nofun (by simpa using hdigit) (by simp)
    · have hdigit : isDigit c = true := h.resolve_right hc
      exact ⟨[c], rest, rfl, isNumeral_digits (by simpa using hdigit) (by simp)⟩
  | string =>
    obtain rfl : c = stringQuote := h
    obtain ⟨body, tail, rfl, hbody, htail⟩ := exists_unquoted rest
    obtain ⟨rest, rfl⟩ | rfl | rfl := htail
    · exact ⟨stringQuote :: (body ++ [stringQuote]), rest, by simp, .closed hbody⟩
    · exact ⟨stringQuote :: body, [], by simp, .opened hbody⟩
    · exact ⟨stringQuote :: (body ++ [escapeMark]), [], by simp, .dangling hbody⟩
  | keyword | identifier =>
    have hstart : isIdentifierStart c = true := h
    exact ⟨[c], rest, rfl, by simp [InClass, isWord, hstart]⟩
  | punctuation => exact ⟨[c], rest, rfl, c, rfl, h⟩
  | operator =>
    have hop : isOperatorChar c = true := h
    exact ⟨[c], rest, rfl, by simp [InClass, isSymbol, hop]⟩

/-- A character that starts no word of any class opens none. -/
theorem not_opens (h : ∀ kind cs tail, ¬InClass kind (c :: cs) tail) (kind : TokenKind) :
    ¬Opens c kind := by
  intro hkind
  -- Before a digit even a point starts a word.
  obtain ⟨run, tail, htext, hclass⟩ :=
    @Opens.exists_inClass kind c ['0'] hkind fun _ => ⟨'0', rfl, by decide⟩
  obtain ⟨d, ds, rfl, _⟩ := hclass.exists_cons
  injection htext with hd _
  subst hd
  exact h _ _ _ hclass

/-- Where a class has a word, it has a longest one. -/
theorem InClass.exists_longest (h : InClass kind run rest) :
    ∃ run' rest', run' ++ rest' = run ++ rest ∧ Longest kind run' rest' := by
  induction hn : rest.length using Nat.strongRecOn generalizing run rest with
  | ind n ih =>
    by_cases hlongest : ∀ ⦃run' rest' : List Char⦄, run' ++ rest' = run ++ rest →
        InClass kind run' rest' → run'.length ≤ run.length
    · exact ⟨run, rest, rfl, h, hlongest⟩
    · -- A longer word leaves less of the text.
      simp only [Classical.not_forall, Nat.not_le] at hlongest
      obtain ⟨run₁, rest₁, htext, hclass, hlt⟩ := hlongest
      have hlength := congrArg List.length htext
      rw [List.length_append, List.length_append] at hlength
      obtain ⟨run', rest', htext', hlongest⟩ := ih rest₁.length (by omega) hclass rfl
      exact ⟨run', rest', htext'.trans htext, hlongest⟩

/-- A longest word is not a word any more with the next character. -/
theorem Longest.not_inClass (h : Longest kind run (c :: rest)) : ¬InClass kind (run ++ [c]) rest := by
  intro hclass
  have hle := h.length_le (by simp) hclass
  rw [List.length_append, List.length_singleton] at hle
  omega

theorem isNumeral_concat (h : isNumeral run = true) (hc : isDigit c = true ∨ c = point ∧ point ∉ run) :
    isNumeral (run ++ [c]) = true := by
  simp only [isNumeral, Bool.and_eq_true, decide_eq_true_eq] at h ⊢
  obtain ⟨⟨hall, hcount⟩, hany⟩ := h
  refine ⟨⟨?_, ?_⟩, ?_⟩
  · rcases hc with hc | ⟨rfl, _⟩
    · simp [hall, hc]
    · simp [hall]
  · rw [List.count_append]
    rcases hc with hc | ⟨rfl, hfree⟩
    · have hne : c ≠ point := by
        rintro rfl
        exact absurd hc (by decide)
      have hnone : [c].count point = 0 := List.count_eq_zero.mpr (by simpa using hne.symm)
      rw [hnone]
      exact hcount
    · have hone : run.count point + [point].count point = 1 := by
        rw [List.count_eq_zero.mpr hfree, List.count_singleton_self]
      exact Nat.le_of_eq hone
  · rw [List.any_append, hany, Bool.true_or]

/-- Nothing goes on with a longest word. -/
theorem Longest.stops (h : Longest kind run rest) (hk : kind ≠ .string) : Stops kind run rest := by
  have hnext {c : Char} (hc : c ∈ rest.head?) : ¬InClass kind (run ++ [c]) (rest.drop 1) := by
    obtain ⟨rest, rfl⟩ := List.head?_eq_some_iff.mp hc
    exact h.not_inClass
  have hrun := h.inClass
  cases kind with
  | string => exact absurd rfl hk
  | punctuation => exact trivial
  | number =>
    intro c hc
    have hno := hnext hc
    refine ⟨Bool.eq_false_iff.mpr fun hdigit => hno (isNumeral_concat hrun (.inl hdigit)), ?_⟩
    intro hpoint
    exact Classical.byContradiction fun hfree => hno (isNumeral_concat hrun (.inr ⟨hpoint, hfree⟩))
  | keyword | identifier =>
    intro c hc
    refine Bool.eq_false_iff.mpr fun hchar => hnext hc ?_
    obtain ⟨d, ds, rfl, hd⟩ := hrun.exists_cons
    have hword : isWord (d :: ds) = true := hrun
    simp only [isWord, Bool.and_eq_true] at hword
    simp [InClass, isWord, hword.1, hword.2, hchar]
  | operator =>
    intro c hc
    refine Bool.eq_false_iff.mpr fun hop => hnext hc ?_
    obtain ⟨d, ds, rfl, hd⟩ := hrun.exists_cons
    have hsymbol : isSymbol (d :: ds) = true := hrun
    simp only [isSymbol, Bool.and_eq_true] at hsymbol
    simpa [InClass, isSymbol, hop] using hsymbol.2

/-! ### What the words stand for -/

/-- A lexeme stands for one value. -/
theorem Denotes.value_eq {v v' : Value} (h : Denotes kind run v) (h' : Denotes kind run v') : v = v' := by
  cases h with
  | number _ hd =>
    cases h' with
    | number _ hd' => rw [Option.some.inj (hd.symm.trans hd')]
  | string hl =>
    cases h' with
    | string hl' => rw [(Literal.mk.inj (hl.symm.trans hl')).2.1]
  | keyword => cases h'; rfl
  | identifier => cases h'; rfl
  | punctuation => cases h'; rfl
  | operator => cases h'; rfl

theorem Unquoted.ofBody (h : Unquoted cs) (tail : List Char) :
    (Literal.ofBody (· = stringQuote) (cs ++ tail)).raw =
      cs ++ (Literal.ofBody (· = stringQuote) tail).raw := by
  induction h with
  | nil => rfl
  | plain hescape hquote _ ih =>
    rw [List.cons_append, ofBody_plain hescape (by simpa using hquote), Literal.push, ih]
    rfl
  | escaped _ ih =>
    rw [List.cons_append, List.cons_append, ofBody_escape, Literal.mark, Literal.push, ih]
    rfl

/-- A word of the class of strings is what is read behind its quote, also when nothing stands behind it. -/
theorem Quoted.ofBody (h : Quoted (c :: cs) rest) :
    c = stringQuote ∧ ∃ value closed,
      Literal.ofBody (· = stringQuote) (cs ++ rest) = ⟨cs, value, closed⟩ ∧
      Literal.ofBody (· = stringQuote) cs = ⟨cs, value, closed⟩ := by
  have hraw : c = stringQuote ∧ (Literal.ofBody (· = stringQuote) (cs ++ rest)).raw = cs := by
    cases h with
    | closed hbody =>
      refine ⟨rfl, ?_⟩
      rw [List.append_assoc, hbody.ofBody, List.singleton_append, ofBody_close (by decide) (by decide)]
    | opened hbody =>
      refine ⟨rfl, ?_⟩
      rw [hbody.ofBody, Literal.ofBody.eq_def, List.append_nil]
    | dangling hbody =>
      refine ⟨rfl, ?_⟩
      rw [List.append_nil, hbody.ofBody, Literal.ofBody.eq_def]
      rfl
  obtain ⟨hc, hraw⟩ := hraw
  have hagain := ofBody_raw (· = stringQuote) (cs ++ rest)
  rw [hraw] at hagain
  generalize Literal.ofBody (· = stringQuote) (cs ++ rest) = found at hraw hagain ⊢
  obtain ⟨raw, value, closed⟩ := found
  obtain rfl : raw = cs := hraw
  exact ⟨hc, value, closed, rfl, hagain⟩

/-- A keyword is written as a word. -/
theorem isWord_of_isKeyword {x : String} (h : isKeyword x = true) : isWord x.toList = true := by
  have hall : keywords.all (fun x => isWord x.toList) = true := by decide
  exact List.all_eq_true.mp hall x (by simpa [isKeyword] using h)

/-- What is spelled as a word is a keyword or an identifier. -/
theorem Denotes.kind_of_isWord {v : Value} (h : Denotes kind run v) (hword : isWord run = true) :
    kind = .keyword ∨ kind = .identifier := by
  have hstart : ∀ c ∈ run.head?, isIdentifierStart c = true := by
    intro c hc
    obtain ⟨cs, rfl⟩ := List.head?_eq_some_iff.mp hc
    exact (Bool.and_eq_true_iff.mp hword).1
  cases h with
  | keyword => exact .inl rfl
  | identifier => exact .inr rfl
  | number hnum _ =>
    have hclass : InClass .number run [] := hnum
    obtain ⟨c, cs, rfl, hopens⟩ := hclass.exists_cons
    have hc := hstart c rfl
    rcases hopens with hdigit | rfl
    · rw [isDigit_of_isIdentifierStart hc] at hdigit
      cases hdigit
    · exact absurd rfl (isIdentifierStart_ne_quote hc).2
  | string => exact absurd rfl (isIdentifierStart_ne_quote (hstart _ rfl)).1
  | punctuation hc =>
    have hno := (isPunctuation_excludes hc).2.2.2
    rw [hstart _ rfl] at hno
    cases hno
  | operator hsymbol =>
    have hclass : InClass .operator run [] := hsymbol
    obtain ⟨c, cs, rfl, hop⟩ := hclass.exists_cons
    have hno := (isOperatorChar_excludes hop).2.2.2.1
    rw [hstart _ rfl] at hno
    cases hno

/-- A longest word is the lexeme of some token. -/
theorem Longest.exists_token (h : Longest kind run rest) (l : Location) :
    ∃ t : Token, t.lexeme.toList = run ∧ t.location = l ∧ t.IsLexeme ∧ Longest t.kind run rest := by
  have token {kind' : TokenKind} {v : Value} (hd : Denotes kind' run v) (h' : Longest kind' run rest) :
      ∃ t : Token, t.lexeme.toList = run ∧ t.location = l ∧ t.IsLexeme ∧ Longest t.kind run rest := by
    refine ⟨⟨kind', String.ofList run, v, l⟩, String.toList_ofList, rfl, ?_, h'⟩
    rw [Token.IsLexeme, String.toList_ofList]
    exact hd
  have hrun := h.inClass
  cases kind with
  | number =>
    obtain ⟨d, hd⟩ := ofNumeral?_isSome hrun
    exact token (.number hrun hd) h
  | string =>
    obtain ⟨c, cs, rfl, _⟩ := hrun.exists_cons
    have hquoted : Quoted (c :: cs) rest := hrun
    obtain ⟨rfl, value, closed, _, hbody⟩ := hquoted.ofBody
    exact token (.string hbody) h
  | keyword | identifier =>
    -- The table of keywords decides between the two kinds.
    cases hkey : isKeyword (String.ofList run) with
    | true => exact token (.keyword hrun hkey) ⟨h.inClass, h.length_le⟩
    | false => exact token (.identifier hrun hkey) ⟨h.inClass, h.length_le⟩
  | punctuation =>
    obtain ⟨c, rfl, hc⟩ := hrun
    exact token (.punctuation hc) h
  | operator => exact token (.operator hrun) h

/-! ## Every text can be cut -/

theorem Trivia.blank (hc : isBlank c = true) (h : Trivia cs) : Trivia (c :: cs) := by
  cases h with
  | gap hgap => exact .gap (.blank hc hgap)
  | comment hgap hline => exact .comment (.blank hc hgap) hline

/-- Trivia may have comments in front that end with their lines. -/
theorem Trivia.line {line : List Char} (hline : ∀ c ∈ line, c ≠ '\n') (h : Trivia cs) :
    Trivia (commentMark :: (line ++ '\n' :: cs)) := by
  cases h with
  | gap hgap => exact .gap (.comment hline hgap)
  | @comment cs last hgap hlast =>
    have hcomment : Trivia (commentMark :: (line ++ '\n' :: cs) ++ commentMark :: last) :=
      .comment (.comment hline hgap) hlast
    simpa using hcomment

/-- Trivia is skipped to its end. -/
theorem Trivia.triviaRun_eq (h : Trivia cs) : triviaRun false cs = cs := by
  cases h with
  | gap hgap => simpa [triviaRun] using triviaRun_gap hgap []
  | @comment cs line hgap hline =>
    have hrun : triviaRun true line = line := by
      induction line with
      | nil => rfl
      | cons c line ih =>
        obtain ⟨hc, hline⟩ := List.forall_mem_cons.mp hline
        simp [triviaRun, hc, ih hline]
    rw [triviaRun_gap hgap, triviaRun]
    simp [hrun, show isBlank commentMark = false by decide]

/-- A text is a line up to its end, or else up to the end of the line. -/
theorem exists_line (cs : List Char) :
    (∀ c ∈ cs, c ≠ '\n') ∨ ∃ line rest, cs = line ++ '\n' :: rest ∧ ∀ c ∈ line, c ≠ '\n' := by
  induction cs with
  | nil => exact .inl nofun
  | cons c cs ih =>
    by_cases hc : c = '\n'
    · subst hc
      exact .inr ⟨[], cs, rfl, nofun⟩
    · rcases ih with hcs | ⟨line, rest, rfl, hline⟩
      · exact .inl (List.forall_mem_cons.mpr ⟨hc, hcs⟩)
      · exact .inr ⟨c :: line, rest, rfl, List.forall_mem_cons.mpr ⟨hc, hline⟩⟩

/-- A text is trivia, or something else stands behind a gap. -/
theorem exists_gap (cs : List Char) :
    Trivia cs ∨ ∃ gap c rest, cs = gap ++ c :: rest ∧ Gap gap ∧ isBlank c = false ∧ c ≠ commentMark := by
  induction hn : cs.length using Nat.strongRecOn generalizing cs with
  | ind n ih =>
    cases cs with
    | nil => exact .inl (.gap .nil)
    | cons c rest =>
      rw [List.length_cons] at hn
      by_cases hblank : isBlank c = true
      · rcases ih rest.length (by omega) rest rfl with htrivia | ⟨gap, d, tail, rfl, hgap, hd⟩
        · exact .inl (htrivia.blank hblank)
        · exact .inr ⟨c :: gap, d, tail, rfl, .blank hblank hgap, hd⟩
      by_cases hmark : c = commentMark
      · subst hmark
        rcases exists_line rest with hline | ⟨line, rest, rfl, hline⟩
        · exact .inl (.comment .nil hline)
        rw [List.length_append, List.length_cons] at hn
        rcases ih rest.length (by omega) rest rfl with htrivia | ⟨gap, d, tail, rfl, hgap, hd⟩
        · exact .inl (htrivia.line hline)
        · exact .inr ⟨commentMark :: (line ++ '\n' :: gap), d, tail, by simp, .comment hline hgap, hd⟩
      · exact .inr ⟨[], c, rest, rfl, .nil, by simpa using hblank, hmark⟩

/-- Where the text is not stuck, some class has a longest word. -/
theorem exists_longest_of_not_stuck (hblank : isBlank c = false) (hmark : c ≠ commentMark)
    (h : ¬∃ cause, Stuck cause (c :: rest)) :
    ∃ kind run tail, run ++ tail = c :: rest ∧ Longest kind run tail := by
  have hopens : ∃ kind, Opens c kind := by
    refine Classical.byContradiction fun hnone => h ⟨_, .stray hblank hmark ?_⟩
    intro kind cs tail hclass
    exact hnone ⟨kind, hclass.opens⟩
  have hpoint : c = point → ∃ d ∈ rest.head?, isDigit d = true := by
    rintro rfl
    refine Classical.byContradiction fun hnone => h ⟨_, .point ?_⟩
    intro d hd
    exact Bool.eq_false_iff.mpr fun hdigit => hnone ⟨d, hd, hdigit⟩
  obtain ⟨kind, hkind⟩ := hopens
  obtain ⟨run, tail, htext, hclass⟩ := hkind.exists_inClass hpoint
  obtain ⟨run', tail', htext', hlongest⟩ := hclass.exists_longest
  exact ⟨kind, run', tail', htext'.trans htext, hlongest⟩

end Lexeme

/-- The keywords among the lexemes are the words of the table. -/
theorem Token.IsLexeme.keyword_iff {t : Token} (h : t.IsLexeme) :
    t.kind = .keyword ↔ isKeyword t.lexeme = true := by
  obtain ⟨kind, lexeme, value, location⟩ := t
  obtain ⟨cs, rfl⟩ : ∃ cs, lexeme = String.ofList cs := ⟨_, String.ofList_toList.symm⟩
  rw [Token.IsLexeme, String.toList_ofList] at h
  show kind = .keyword ↔ isKeyword (String.ofList cs) = true
  constructor
  · rintro rfl
    cases h with
    | keyword _ hkey => exact hkey
  · intro hkey
    have hword := isWord_of_isKeyword hkey
    rw [String.toList_ofList] at hword
    rcases h.kind_of_isWord hword with rfl | rfl
    · rfl
    · cases h with
      | identifier _ hno => exact absurd hkey (by simp [hno])

namespace Cut

variable {file : String} {before cs : List Char}

/-- Every text is cut into gaps and tokens up to its end or up to where it is stuck. -/
theorem exists_cut (file : String) (before cs : List Char) :
    ∃ ts before' rest, Cut file before cs ts before' rest ∧
      (Trivia rest ∨ ∃ gap tail cause, rest = gap ++ tail ∧ Gap gap ∧ Stuck cause tail) := by
  induction hn : cs.length using Nat.strongRecOn generalizing before cs with
  | ind n ih =>
    rcases exists_gap cs with htrivia | ⟨gap, c, rest, rfl, hgap, hblank, hmark⟩
    · exact ⟨[], before, cs, .nil, .inl htrivia⟩
    by_cases hstuck : ∃ cause, Stuck cause (c :: rest)
    · obtain ⟨cause, hstuck⟩ := hstuck
      exact ⟨[], before, _, .nil, .inr ⟨gap, c :: rest, cause, rfl, hgap, hstuck⟩⟩
    · obtain ⟨kind, run, tail, htext, hlongest⟩ := exists_longest_of_not_stuck hblank hmark hstuck
      obtain ⟨t, rfl, hlocation, hlexeme, hclass⟩ :=
        hlongest.exists_token (.behind file (before ++ gap))
      have hpos : 0 < t.lexeme.toList.length := List.length_pos_iff.mpr hlexeme.ne_nil
      rw [← htext] at hn ⊢
      rw [List.length_append, List.length_append] at hn
      obtain ⟨ts, before', rest', hcut, hend⟩ :=
        ih tail.length (by omega) (before ++ gap ++ t.lexeme.toList) tail rfl
      exact ⟨t :: ts, before', rest', .token hgap hlocation hclass hlexeme.keyword_iff hlexeme hcut, hend⟩

end Cut

/-! ## The scanner gives the tokens of a cut -/

namespace Scanner

open Step

variable {s : Scanner} {file : String} {before gap rest : List Char} {t : Token}

/-- The scanner behind a text, with strings that need not be closed. -/
def behind (file : String) (before rest : List Char) : Scanner := ⟨⟨.behind file before, rest⟩, false⟩

@[simp] theorem after_behind (run : List Char) :
    (behind file before (run ++ rest)).after run = behind file (before ++ run) rest := by
  rw [behind, after, Cursor.consume_append, behind, Location.behind, Location.behind,
    Location.advance_append]

/-- A string is read up to where it ends, be it closed there or not. -/
theorem readString_quoted {cs : List Char} (h : Quoted (stringQuote :: cs) rest) :
    ∃ v, Denotes .string (stringQuote :: cs) v ∧
      readString (behind file before (stringQuote :: cs ++ rest)) =
        .ok ⟨.string, String.ofList (stringQuote :: cs), v, .behind file before⟩
          (behind file (before ++ stringQuote :: cs) rest) := by
  obtain ⟨_, value, closed, hfound, hbody⟩ := h.ofBody
  refine ⟨_, .string hbody, ?_⟩
  rw [← after_behind]
  simp only [readString, readLiteral, bind_apply, get_apply]
  rw [show (behind file before (stringQuote :: cs ++ rest)).cursor.rest = stringQuote :: (cs ++ rest) from rfl,
    Literal.ofFront, hfound, show (behind file before (stringQuote :: cs ++ rest)).strict = false from rfl,
    Bool.and_false]
  rfl

/-- Behind a gap the next character decides what is read. -/
theorem readNext_gap {c : Char} {cs : List Char} (hgap : Gap gap) (hblank : isBlank c = false)
    (hmark : c ≠ commentMark) :
    readNext (behind file before (gap ++ c :: cs)) =
      match readToken c (behind file (before ++ gap) (c :: cs)) with
      | .ok t s' => .ok (some t) s'
      | .error e s' => .error e s' := by
  have htrivia : triviaRun false (gap ++ c :: cs) = gap := by
    rw [triviaRun_gap hgap, triviaRun]
    simp [hblank, hmark]
  rw [readNext_apply, show (behind file before (gap ++ c :: cs)).cursor.rest = gap ++ c :: cs from rfl,
    htrivia, after_behind]
  rfl

/-- Behind a gap the longest word is read, with nothing before or behind it. -/
theorem readNext_longest (hgap : Gap gap) (hlongest : Longest t.kind t.lexeme.toList rest)
    (ht : t.IsLexeme) (hlocation : t.location = .behind file (before ++ gap)) :
    readNext (behind file before (gap ++ (t.lexeme.toList ++ rest))) =
      .ok (some t) (behind file (before ++ gap ++ t.lexeme.toList) rest) := by
  obtain ⟨kind, lexeme, value, location⟩ := t
  obtain ⟨run, rfl⟩ : ∃ run, lexeme = String.ofList run := ⟨_, String.ofList_toList.symm⟩
  obtain rfl : location = .behind file (before ++ gap) := hlocation
  rw [Token.IsLexeme, String.toList_ofList] at ht
  simp only [String.toList_ofList] at hlongest ⊢
  by_cases hk : kind = .string
  · -- A string at the end of the text may be open, and then it stops for want of text.
    subst hk
    obtain ⟨c, cs, rfl, rfl⟩ := hlongest.inClass.exists_cons
    obtain ⟨v, hv, hread⟩ := @readString_quoted file (before ++ gap) rest cs hlongest.inClass
    rw [List.cons_append, readNext_gap hgap (by decide) (by decide), readToken, if_pos rfl]
    rw [List.cons_append] at hread
    obtain rfl : v = value := hv.value_eq ht
    rw [hread]
  · rw [readNext_lexeme hgap ht (hlongest.stops hk) rfl, after_behind, after_behind]
    rfl

theorem readNext_trivia (h : Trivia rest) : ∃ s', readNext (behind file before rest) = .ok none s' := by
  refine ⟨(behind file before rest).after rest, ?_⟩
  rw [readNext_apply, show (behind file before rest).cursor.rest = rest from rfl, h.triviaRun_eq, after_rest,
    show (behind file before rest).cursor.rest = rest from rfl, List.drop_length]

/-- A character that opens no class is refused and stays ahead. -/
theorem readToken_stray {c : Char} (h : ∀ kind, ¬Opens c kind) (s : Scanner) :
    readToken c s = .error (.lexical (.strayCharacter c) s.location) s := by
  have hquote : ¬c = stringQuote := h .string
  have hnumber : ¬(isDigit c = true ∨ c = point) := h .number
  have hword : ¬isIdentifierStart c = true := h .identifier
  have hmark : ¬isPunctuation c = true := h .punctuation
  have hop : ¬isOperatorChar c = true := h .operator
  rw [readToken, if_neg hquote, if_neg hnumber, if_neg hword, if_neg hmark, if_neg hop]
  rfl

/-- Where the text is stuck, the scan fails there. -/
theorem readNext_stuck {cause : LexicalCause} (hgap : Gap gap) (h : Stuck cause rest) :
    ∃ s', readNext (behind file before (gap ++ rest)) =
      .error (.lexical cause (.behind file (before ++ gap))) s' := by
  cases h with
  | @point rest hdigit =>
    have hrun : numeralRun (point :: rest) = [point] := by
      have hnone : rest.takeWhile isDigit = [] := by
        cases rest with
        | nil => rfl
        | cons c rest => simp [hdigit c rfl]
      simp [numeralRun, hnone, show isDigit point = false by decide]
    refine ⟨(behind file (before ++ gap) (point :: rest)).after [point], ?_⟩
    rw [readNext_gap hgap (by decide) (by decide), readToken, if_neg (by decide), if_pos (.inr rfl)]
    simp only [readNumber, bind_apply, get_apply, take_apply]
    rw [show (behind file (before ++ gap) (point :: rest)).cursor.rest = point :: rest from rfl, hrun]
    rfl
  | @stray c rest hblank hmark hnone =>
    refine ⟨behind file (before ++ gap) (c :: rest), ?_⟩
    rw [readNext_gap hgap hblank hmark, readToken_stray (not_opens hnone)]
    rfl

/-- Along a cut the scanner gives the tokens of the cut. -/
theorem drain_of_cut {ts : List Token} {before' rest' : List Char}
    (h : Cut file before rest ts before' rest') :
    drain (behind file before rest) =
      (ts ++ (drain (behind file before' rest')).1, (drain (behind file before' rest')).2) := by
  induction h with
  | nil => rfl
  | token hgap hlocation hlongest _ ht _ ih =>
    rw [drain_some (readNext_longest hgap hlongest ht hlocation), ih]
    rfl

end Scanner

namespace Cut

variable {file : String} {before cs before' rest : List Char} {ts : List Token}

/-- What is cut off and what is left make up the text. -/
theorem append_eq (h : Cut file before cs ts before' rest) : before ++ cs = before' ++ rest := by
  induction h with
  | nil => rfl
  | token _ _ _ _ _ _ ih => rw [← ih]; simp

/-- The offset of a token counts the characters before its lexeme. -/
theorem offset_eq (h : Cut file before cs ts before' rest) : ∀ t ∈ ts, ∃ front back,
    before ++ cs = front ++ (t.lexeme.toList ++ back) ∧ t.location.offset = front.length := by
  induction h with
  | nil => intro t ht; cases ht
  | @token before gap rest before' rest' t ts _ hlocation _ _ _ _ ih =>
    refine List.forall_mem_cons.mpr ⟨⟨before ++ gap, rest, ?_, ?_⟩, ?_⟩
    · rw [List.append_assoc]
    · rw [hlocation, Location.behind_offset]
    · intro u hu
      obtain ⟨front, back, htext, hoffset⟩ := ih u hu
      refine ⟨front, back, ?_, hoffset⟩
      rw [← htext]
      simp

end Cut

namespace Source

variable {text file : String} {ts : List Token} {before gap rest : List Char}

theorem tokens_of_cut (h : Cut file [] text.toList ts before rest) (hrest : Trivia rest) :
    (⟨text, file, false⟩ : Source).tokens = .ok ts := by
  obtain ⟨s', hscan⟩ := Scanner.readNext_trivia hrest
  have hdrain : drain (Source.scanner ⟨text, file, false⟩) = (ts, .done (location s')) := by
    refine (Scanner.drain_of_cut h).trans ?_
    rw [drain_none hscan, List.append_nil]
  rw [Source.tokens_eq, hdrain]

theorem tokens_of_stuck {cause : LexicalCause} (h : Cut file [] text.toList ts before (gap ++ rest))
    (hgap : Gap gap) (hstuck : Stuck cause rest) :
    (⟨text, file, false⟩ : Source).tokens = .error (.lexical cause (.behind file (before ++ gap))) := by
  obtain ⟨s', hscan⟩ := Scanner.readNext_stuck hgap hstuck
  have hdrain : drain (Source.scanner ⟨text, file, false⟩) =
      (ts, .failed (.lexical cause (.behind file (before ++ gap)))) := by
    refine (Scanner.drain_of_cut h).trans ?_
    rw [drain_error hscan, List.append_nil]
  rw [Source.tokens_eq, hdrain]

/-- A text is scanned into the tokens that it can be cut into up to its end. If it can be cut up to where
it is stuck instead, that place is reported. -/
theorem tokens_cut (text file : String) :
    let s : Source := ⟨text, file, false⟩
    (∀ ts, s.tokens = .ok ts ↔
      ∃ before rest, Cut file [] text.toList ts before rest ∧ Trivia rest) ∧
    (∀ e, s.tokens = .error e ↔
      ∃ ts before gap rest cause, Cut file [] text.toList ts before (gap ++ rest) ∧ Gap gap ∧
        Stuck cause rest ∧ e = .lexical cause (.behind file (before ++ gap))) ∧
    (∀ ts, s.tokens = .ok ts → ∀ t ∈ ts, ∃ front back,
      text.toList = front ++ (t.lexeme.toList ++ back) ∧ t.location.offset = front.length) ∧
    (∀ e, s.tokens = .error e → ∃ f front rest, e.fault? = .ok f ∧ f.family.name = "LexerError" ∧
      f.code.map ErrorCode.text = some "L001" ∧ text.toList = front ++ rest ∧
      (∃ cause, Stuck cause rest) ∧ f.location.offset = front.length) := by
  intro s
  obtain ⟨ts, before, rest, hcut, hend⟩ := Cut.exists_cut file [] text.toList
  -- One of the two endings is there, and it decides what the tokens are.
  have hok : ∀ us, s.tokens = .ok us ↔
      ∃ before rest, Cut file [] text.toList us before rest ∧ Trivia rest := by
    intro us
    refine ⟨fun hus => ?_, fun ⟨_, _, hcut', htrivia⟩ => tokens_of_cut hcut' htrivia⟩
    rcases hend with htrivia | ⟨gap, tail, cause, rfl, hgap, hstuck⟩
    · obtain rfl := Except.ok.inj ((tokens_of_cut hcut htrivia).symm.trans hus)
      exact ⟨before, rest, hcut, htrivia⟩
    · cases (tokens_of_stuck hcut hgap hstuck).symm.trans hus
  have herror : ∀ e, s.tokens = .error e ↔
      ∃ ts before gap rest cause, Cut file [] text.toList ts before (gap ++ rest) ∧ Gap gap ∧
        Stuck cause rest ∧ e = .lexical cause (.behind file (before ++ gap)) := by
    intro e
    constructor
    · intro he
      rcases hend with htrivia | ⟨gap, tail, cause, rfl, hgap, hstuck⟩
      · cases (tokens_of_cut hcut htrivia).symm.trans he
      · have hcause := Except.error.inj ((tokens_of_stuck hcut hgap hstuck).symm.trans he)
        exact ⟨ts, before, gap, tail, cause, hcut, hgap, hstuck, hcause.symm⟩
    · rintro ⟨_, _, _, _, _, hcut', hgap, hstuck, rfl⟩
      exact tokens_of_stuck hcut' hgap hstuck
  refine ⟨hok, herror, ?_, ?_⟩
  · intro us hus
    obtain ⟨_, _, hcut', _⟩ := (hok us).mp hus
    exact hcut'.offset_eq
  · intro e he
    obtain ⟨_, before, gap, rest, cause, hcut', _, hstuck, rfl⟩ := (herror e).mp he
    refine ⟨_, before ++ gap, rest, Failure.fault?_lexical cause _, rfl, ?_, ?_, ⟨cause, hstuck⟩, ?_⟩
    · cases hstuck <;> rfl
    · rw [List.append_assoc]
      exact hcut'.append_eq
    · exact Location.behind_offset file _

/-- The cut of `1.2.3 a-1<b#` and the place where `1. . # 3` is stuck. -/
theorem tokens_cut_points :
    (∃ ts before rest, Cut "x" [] "1.2.3 a-1<b#".toList ts before rest ∧ Trivia rest ∧
      ts.map Token.lexeme = ["1.2", ".3", "a-1<b"]) ∧
    ∃ ts before gap rest cause, Cut "x" [] "1. . # 3".toList ts before (gap ++ rest) ∧ Gap gap ∧
      Stuck cause rest ∧ (Location.behind "x" (before ++ gap)).offset = 3 := by
  have hok : ((⟨"1.2.3 a-1<b#", "x", false⟩ : Source).tokens.toOption.map (·.map Token.lexeme)) =
      some ["1.2", ".3", "a-1<b"] := by
    decide +kernel
  have herror : (⟨"1. . # 3", "x", false⟩ : Source).tokens =
      .error (.lexical .lonePoint ⟨"x", 1, 3, 3⟩) := by
    decide +kernel
  constructor
  · cases htokens : (⟨"1.2.3 a-1<b#", "x", false⟩ : Source).tokens with
    | error e => rw [htokens] at hok; cases hok
    | ok ts =>
      rw [htokens] at hok
      obtain ⟨before, rest, hcut, htrivia⟩ := ((tokens_cut _ _).1 ts).mp htokens
      exact ⟨ts, before, rest, hcut, htrivia, Option.some.inj hok⟩
  · obtain ⟨ts, before, gap, rest, cause, hcut, hgap, hstuck, hcause⟩ :=
      ((tokens_cut _ _).2.1 _).mp herror
    refine ⟨ts, before, gap, rest, cause, hcut, hgap, hstuck, ?_⟩
    rw [← (Failure.lexical.inj hcause).2]

end Source
end LambdaReader
