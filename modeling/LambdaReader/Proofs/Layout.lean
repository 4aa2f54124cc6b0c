import LambdaReader.Proofs.Equality
import LambdaReader.Proofs.Recorded
import LambdaReader.Proofs.Cutting
import LambdaReader.Proofs.Grammar.Language

/-!
# `Proofs.Layout` — layout does not change what a text means

Blanks, comments and the name of the file show in a token by its location only. Two sources of tokens
with the same kinds and lexemes are read alike: as trees that are equal, or with faults that say the same,
at the token with the same index.

The locations of the one source are no function of those of the other, since a token may start where the
one before it stops, or behind a blank. So both are compared with a third record, in which each token
stands in a file of its own: from there every location can be told where it was, in either source.

## Main result
- `Source.parse_layout`: two sources that differ in layout only.
-/

namespace LambdaReader

open TokenSource

namespace Token

/-- What a token is, wherever it stands. -/
def spelling (t : Token) : TokenKind × String := (t.kind, t.lexeme)

/-- The token at a location. -/
def movedTo (t : Token) (l : Location) : Token := { t with location := l }

variable {t t' : Token}

theorem relocate_movedTo (f : Location → Location) (l : Location) (h : f l = t.location) :
    (t.movedTo l).relocate f = t := by
  rw [relocate, movedTo, h]

/-- A lexeme stands for one value, so its spelling is all of the token but its location. -/
theorem IsLexeme.movedTo_eq (h : t.IsLexeme) (h' : t'.IsLexeme) (hspelling : t.spelling = t'.spelling)
    (l : Location) : t.movedTo l = t'.movedTo l := by
  obtain ⟨kind, lexeme, value, location⟩ := t
  obtain ⟨kind', lexeme', value', location'⟩ := t'
  obtain ⟨rfl, rfl⟩ := Prod.mk.inj hspelling
  obtain rfl : value = value' := Lexeme.Denotes.value_eq h h'
  rfl

end Token

/-! ## Tokens in cells -/

namespace Location

/-- The start of a file that has this index for a name. -/
def cell (i : Nat) : Location := .start (String.ofList (List.replicate i '.'))

/-- The index of the file where a cell is. -/
def index (l : Location) : Nat := l.file.toList.length

@[simp] theorem index_cell (i : Nat) : (cell i).index = i := by
  simp [index, cell, start]

@[simp] theorem index_advance (l : Location) (cs : List Char) : (l.advance cs).index = l.index := by
  rw [index, advance_file, index]

end Location

namespace Token

/-- The tokens with each in a cell of its own, the first in the cell `i`. -/
def scatter (i : Nat) : List Token → List Token
  | [] => []
  | t :: ts => t.movedTo (.cell i) :: scatter (i + 1) ts

theorem length_scatter (i : Nat) (ts : List Token) : (scatter i ts).length = ts.length := by
  induction ts generalizing i with
  | nil => rfl
  | cons t ts ih => rw [scatter, List.length_cons, List.length_cons, ih]

/-- Tokens of the same spelling cannot be told apart in their cells. -/
theorem scatter_eq {ts ts' : List Token} (hts : ∀ t ∈ ts, t.IsLexeme) (hts' : ∀ t ∈ ts', t.IsLexeme)
    (h : ts.map spelling = ts'.map spelling) (i : Nat) : scatter i ts = scatter i ts' := by
  induction ts generalizing ts' i with
  | nil =>
    cases ts' with
    | nil => rfl
    | cons => cases h
  | cons t ts ih =>
    cases ts' with
    | nil => cases h
    | cons t' ts' =>
      obtain ⟨ht, hts⟩ := List.forall_mem_cons.mp hts
      obtain ⟨ht', hts'⟩ := List.forall_mem_cons.mp hts'
      obtain ⟨hfirst, hrest⟩ := List.cons.inj h
      rw [scatter, scatter, ht.movedTo_eq ht' hfirst, ih hts hts' hrest]

end Token

namespace Replay

/-- The record of the tokens in cells, with the start and the end in the cell behind them. -/
def scattered (ts : List Token) : Replay :=
  ⟨Token.scatter 0 ts, .done ((Location.cell ts.length).step '.'), .cell ts.length⟩

/-- Where it was before the tokens were put in cells. -/
def gather (ts : List Token) (start finish : Location) (l : Location) : Location :=
  match ts[l.index]? with
  | some t => if l.offset = 0 then t.location else t.stop
  | none => if l.offset = 0 then start else finish

section Gather

variable {ts : List Token} {i : Nat} {t : Token} (start finish : Location)

theorem gather_cell (h : ts[i]? = some t) : gather ts start finish (.cell i) = t.location := by
  rw [gather, Location.index_cell, h]
  rfl

/-- A token moves on by a character at least, so its stop is not at the start of the cell. -/
theorem gather_stop (h : ts[i]? = some t) (ht : t.IsLexeme) :
    gather ts start finish (t.movedTo (.cell i)).stop = t.stop := by
  have hpos : 0 < t.lexeme.toList.length := List.length_pos_iff.mpr ht.ne_nil
  have hoffset : (t.movedTo (.cell i)).stop.offset ≠ 0 := by
    rw [Token.stop, Location.advance_offset]
    show (0 : Int) + t.lexeme.toList.length ≠ 0
    omega
  rw [gather, Token.stop, Location.index_advance, show (t.movedTo (.cell i)).location = .cell i from rfl,
    Location.index_cell, h]
  exact if_neg hoffset

theorem gather_start : gather ts start finish (.cell ts.length) = start := by
  rw [gather, Location.index_cell, List.getElem?_eq_none (Nat.le_refl _)]
  rfl

theorem gather_finish : gather ts start finish ((Location.cell ts.length).step '.') = finish := by
  have hindex : ((Location.cell ts.length).step '.').index = ts.length := Location.index_cell _
  rw [gather, hindex, List.getElem?_eq_none (Nat.le_refl _)]
  rfl

end Gather

/-- Tokens in cells and the same tokens where they were. -/
def gathering {ts : List Token} (hts : ∀ t ∈ ts, t.IsLexeme) (start finish : Location) :
    Simulation Replay Replay where
  sources r s := ∃ i, r.tokens = Token.scatter i (ts.drop i) ∧ s.tokens = ts.drop i ∧
    r.ending = .done ((Location.cell ts.length).step '.') ∧ s.ending = .done finish ∧
    s.location = gather ts start finish r.location
  place := gather ts start finish
  token t := t.IsLexeme ∧ ∃ i, ∃ u : Token, ts[i]? = some u ∧ t = u.movedTo (.cell i)
  ends _ := True
  broken _ := False
  waived _ := False
  location_eq := by
    rintro r s ⟨_, _, _, _, _, hlocation⟩
    exact hlocation
  bound_le := by
    rintro ⟨_, _, _⟩ ⟨_, _, _⟩ ⟨i, rfl, rfl, _⟩
    exact Nat.le_of_eq (Token.length_scatter i _)
  scan_token := by
    rintro ⟨_, _, l⟩ r' ⟨_, _, m⟩ v ⟨i, rfl, rfl, rfl, rfl, hlocation⟩ hr
    cases hdrop : ts.drop i with
    | nil => rw [hdrop] at hr; cases hr
    | cons t us =>
      rw [hdrop] at hr
      cases hr
      -- The token in the cell `i` is the one with this index, and the cells behind it follow.
      have ht : ts[i]? = some t := by rw [← List.head?_drop, hdrop]; rfl
      have hus : ts.drop (i + 1) = us := by rw [← List.tail_drop, hdrop]; rfl
      have hlexeme : t.IsLexeme := hts t (List.mem_of_getElem? ht)
      refine ⟨⟨hlexeme, i, t, ht, rfl⟩, ⟨us, .done finish, t.stop⟩, ?_, i + 1, ?_, hus.symm, rfl, rfl, ?_⟩
      · rw [Token.relocate_movedTo _ _ (gather_cell start finish ht)]
        rfl
      · rw [hus]
      · exact (gather_stop start finish ht hlexeme).symm
  scan_end := by
    rintro ⟨_, _, l⟩ r' ⟨_, _, m⟩ ⟨i, rfl, rfl, rfl, rfl, hlocation⟩ hr
    cases hdrop : ts.drop i with
    | cons t us => rw [hdrop] at hr; cases hr
    | nil =>
      rw [hdrop] at hr
      cases hr
      refine ⟨trivial, ⟨[], .done finish, finish⟩, rfl, i, ?_, hdrop.symm, rfl, rfl, ?_⟩
      · rw [hdrop]
      · exact (gather_finish start finish).symm
  scan_error := by
    rintro ⟨_, _, l⟩ r' ⟨_, _, m⟩ e ⟨i, rfl, rfl, rfl, rfl, hlocation⟩ hr
    cases hdrop : ts.drop i with
    | cons t us => rw [hdrop] at hr; cases hr
    | nil => rw [hdrop] at hr; cases hr

/-- Tokens in cells are parsed as they are elsewhere: as the same tree up to locations, or with the same
failure, at the token with the same index or at the end. -/
theorem parse_scattered {ts : List Token} (hts : ∀ t ∈ ts, t.IsLexeme) (start finish : Location)
    (o : ParseOptions) :
    (∃ n, parse o (scattered ts) = .ok n ∧
      parse o ⟨ts, .done finish, start⟩ = .ok (n.relocate (gather ts start finish))) ∨
    (∃ cause l l', parse o (scattered ts) = .error (.grammar cause none l) ∧
      parse o ⟨ts, .done finish, start⟩ = .error (.grammar cause none l')) ∨
    ∃ cause i t l l', ts[i]? = some t ∧
      parse o (scattered ts) = .error (.grammar cause (some (t.movedTo (.cell i))) l) ∧
      parse o ⟨ts, .done finish, start⟩ = .error (.grammar cause (some t) l') := by
  have hsources : (gathering hts start finish).sources (scattered ts) ⟨ts, .done finish, start⟩ :=
    ⟨0, rfl, rfl, rfl, rfl, (gather_start start finish).symm⟩
  rcases (gathering hts start finish).read hsources o with ⟨n, hleft, hright, _⟩ | ⟨e, hleft, hwaived | ⟨he, hright⟩⟩
  · exact .inl ⟨n, hleft, hright⟩
  · exact hwaived.elim
  · cases he with
    | broken h => exact h.elim
    | misused ht hkind hnone => exact absurd hnone (ht.1.number?_ne_none hkind)
    | ended => exact .inr (.inl ⟨_, _, _, hleft, hright⟩)
    | found h =>
      obtain ⟨_, i, t, ht, rfl⟩ := h
      have hfound : (t.movedTo (.cell i)).relocate (gather ts start finish) = t :=
        Token.relocate_movedTo _ _ (gather_cell start finish ht)
      have hright' : parse o ⟨ts, .done finish, start⟩ =
          .error (.grammar _ (some ((t.movedTo (.cell i)).relocate (gather ts start finish))) _) := hright
      rw [hfound] at hright'
      exact .inr (.inr ⟨_, i, t, _, _, ht, hleft, hright'⟩)

end Replay

/-! ## Sources -/

/-- Faults of parsing that say the same, each of its own tokens: at fault is the token with the same index,
or no token. -/
structure Fault.Corresponds (ts ts' : List Token) (f f' : Fault) : Prop where
  family : f.family.name = "ParseError" ∧ f'.family.name = "ParseError"
  code : f.code = f'.code
  message : f.message = f'.message
  help : f.help = f'.help
  suggestions : f.suggestions = f'.suggestions
  token : f.token = none ∧ f'.token = none ∨
    ∃ (i : Nat) (t t' : Token), ts[i]? = some t ∧ ts'[i]? = some t' ∧ f.token = some t ∧
      f'.token = some t'

theorem GrammarCause.message_eq {t t' : Token} (h : t.spelling = t'.spelling) (cause : GrammarCause) :
    cause.message (some t) = cause.message (some t') := by
  have hkind : t.kind = t'.kind := congrArg Prod.fst h
  have hlexeme : t.lexeme = t'.lexeme := congrArg Prod.snd h
  have hdescribe : t.describe = t'.describe := by
    unfold Token.describe
    rw [hkind, hlexeme]
  cases cause with
  | unexpected => exact congrArg ("Unexpected token: " ++ ·) hdescribe
  | expected | notAVariable | tooDeep => rfl

/-- No tokens, or tokens with one index that are spelled alike. -/
def Token.Parallel (ts ts' : List Token) (found found' : Option Token) : Prop :=
  found = none ∧ found' = none ∨ ∃ (i : Nat) (t t' : Token), ts[i]? = some t ∧ ts'[i]? = some t' ∧
    found = some t ∧ found' = some t' ∧ t.spelling = t'.spelling

/-- What a failure of the grammar is reported as depends on the spelling of the token at fault only. -/
theorem Failure.corresponds {ts ts' : List Token} {found found' : Option Token}
    (h : Token.Parallel ts ts' found found') (cause : GrammarCause) (l l' : Location) :
    ∃ f f', (Failure.grammar cause found l).fault? = .ok f ∧
      (Failure.grammar cause found' l').fault? = .ok f' ∧ f.Corresponds ts ts' f' := by
  refine ⟨_, _, fault?_grammar cause found l, fault?_grammar cause found' l', ?_⟩
  obtain ⟨rfl, rfl⟩ | ⟨i, t, t', ht, ht', rfl, rfl, hspelling⟩ := h
  · exact ⟨⟨rfl, rfl⟩, rfl, rfl, rfl, rfl, .inl ⟨rfl, rfl⟩⟩
  · exact ⟨⟨rfl, rfl⟩, rfl, cause.message_eq hspelling, rfl, rfl, .inr ⟨i, t, t', ht, ht', rfl, rfl⟩⟩

theorem Token.movedTo_cell_inj {i j : Nat} {t t' : Token} (h : t.movedTo (.cell i) = t'.movedTo (.cell j)) :
    i = j ∧ t.spelling = t'.spelling := by
  obtain ⟨hkind, hlexeme, _, hcell⟩ := Token.mk.inj h
  refine ⟨?_, Prod.ext hkind hlexeme⟩
  rw [← Location.index_cell i, hcell, Location.index_cell]

/-- What tokens are parsed as in cells, and what they are parsed as elsewhere. -/
inductive Replay.Gathers (ts : List Token) : Except Failure Node → Except Failure Node → Prop where
  | ok {n : Node} (f : Location → Location) : Gathers ts (.ok n) (.ok (n.relocate f))
  | ended {cause : GrammarCause} {l l' : Location} :
    Gathers ts (.error (.grammar cause none l)) (.error (.grammar cause none l'))
  | found {cause : GrammarCause} {i : Nat} {t : Token} {l l' : Location} : ts[i]? = some t →
    Gathers ts (.error (.grammar cause (some (t.movedTo (.cell i))) l)) (.error (.grammar cause (some t) l'))

theorem Replay.gathers {ts : List Token} (hts : ∀ t ∈ ts, t.IsLexeme) (start finish : Location)
    (o : ParseOptions) : Gathers ts (parse o (scattered ts)) (parse o ⟨ts, .done finish, start⟩) := by
  rcases parse_scattered hts start finish o with
    ⟨n, hcells, hplaced⟩ | ⟨cause, l, l', hcells, hplaced⟩ | ⟨cause, i, t, l, l', ht, hcells, hplaced⟩
  · rw [hcells, hplaced]
    exact .ok _
  · rw [hcells, hplaced]
    exact .ended
  · rw [hcells, hplaced]
    exact .found ht

/-- Trees that differ in spans only, or failures for the same cause at parallel tokens. -/
inductive Likewise (ts ts' : List Token) : Except Failure Node → Except Failure Node → Prop where
  | ok {n n' : Node} : n.bare = n'.bare → Likewise ts ts' (.ok n) (.ok n')
  | error {cause : GrammarCause} {found found' : Option Token} (l l' : Location) :
    Token.Parallel ts ts' found found' →
    Likewise ts ts' (.error (.grammar cause found l)) (.error (.grammar cause found' l'))

/-- Records of the same tokens but for their locations are parsed likewise. -/
theorem Replay.parse_elsewhere {ts ts' : List Token} (hts : ∀ t ∈ ts, t.IsLexeme)
    (hts' : ∀ t ∈ ts', t.IsLexeme) (hsame : ts.map Token.spelling = ts'.map Token.spelling)
    (start finish start' finish' : Location) (o : ParseOptions) :
    Likewise ts ts' (parse o ⟨ts, .done finish, start⟩) (parse o ⟨ts', .done finish', start'⟩) := by
  have hcells : scattered ts = scattered ts' := by
    have hlength : ts.length = ts'.length := by simpa using congrArg List.length hsame
    rw [scattered, scattered, Token.scatter_eq hts hts' hsame, hlength]
  have hleft := gathers hts start finish o
  have hright := gathers hts' start' finish' o
  rw [hcells] at hleft
  generalize parse o (scattered ts') = cells at hleft hright
  generalize parse o ⟨ts, .done finish, start⟩ = left at hleft
  generalize parse o ⟨ts', .done finish', start'⟩ = right at hright
  cases hleft with
  | ok f =>
    cases hright with
    | ok f' => exact .ok (by rw [Node.bare_relocate, Node.bare_relocate])
  | ended =>
    cases hright with
    | ended => exact .error _ _ (.inl ⟨rfl, rfl⟩)
  | @found cause i t l m ht =>
    generalize hfound : t.movedTo (.cell i) = u at hright
    cases hright with
    | found ht' =>
      obtain ⟨rfl, hspelling⟩ := Token.movedTo_cell_inj hfound
      exact .error _ _ (.inr ⟨i, _, _, ht, ht', rfl, rfl, hspelling⟩)

/-- A source that can be scanned is read as the record of its tokens. -/
theorem Source.parse_eq_replay {s : Source} {ts : List Token} (hts : s.tokens = .ok ts) (o : ParseOptions) :
    (∀ t ∈ ts, t.IsLexeme) ∧ ∃ l, s.parse o = Replay.parse o ⟨ts, .done l, .start s.file⟩ := by
  obtain ⟨rfl, l, hdone⟩ := Source.drain_of_tokens hts
  refine ⟨Scanner.isLexeme_of_mem_drain _, l, ?_⟩
  rw [← hdone]
  exact s.parse_eq_parseRecorded o

/-- A source is parsed like a record of tokens that are spelled like its own. -/
theorem Source.parse_likewise {s : Source} {ts us : List Token} (hts : s.tokens = .ok ts)
    (hus : ∀ t ∈ us, t.IsLexeme) (hsame : ts.map Token.spelling = us.map Token.spelling)
    (start finish : Location) (o : ParseOptions) :
    Likewise ts us (s.parse o) (Replay.parse o ⟨us, .done finish, start⟩) := by
  obtain ⟨hlexemes, l, hparse⟩ := Source.parse_eq_replay hts o
  rw [hparse]
  exact Replay.parse_elsewhere hlexemes hus hsame _ l start finish o

/-- Sources of the same tokens but for their locations are read alike: as equal trees, or with faults that
say the same, at the same token. -/
theorem Source.parse_layout {s s' : Source} {ts ts' : List Token} (hts : s.tokens = .ok ts)
    (hts' : s'.tokens = .ok ts') (hsame : ts.map Token.spelling = ts'.map Token.spelling)
    (o : ParseOptions) :
    (∃ n n', s.parse o = .ok n ∧ s'.parse o = .ok n' ∧ (n == n') = true) ∨
    ∃ e e' f f', s.parse o = .error e ∧ s'.parse o = .error e' ∧ e.fault? = .ok f ∧ e'.fault? = .ok f' ∧
      f.Corresponds ts ts' f' := by
  obtain ⟨hlexemes, finish, hparse⟩ := Source.parse_eq_replay hts o
  obtain ⟨hlexemes', finish', hparse'⟩ := Source.parse_eq_replay hts' o
  -- Both sources are parsed as one and the same record of tokens in cells.
  have hcells : Replay.scattered ts = Replay.scattered ts' := by
    have hlength : ts.length = ts'.length := by simpa using congrArg List.length hsame
    rw [Replay.scattered, Replay.scattered, Token.scatter_eq hlexemes hlexemes' hsame, hlength]
  have hleft := Replay.parse_scattered hlexemes (.start s.file) finish o
  have hright := Replay.parse_scattered hlexemes' (.start s'.file) finish' o
  rw [← hparse, hcells] at hleft
  rw [← hparse'] at hright
  rcases hleft with ⟨n, hn, hs⟩ | ⟨cause, l, m, he, hs⟩ | ⟨cause, i, t, l, m, ht, he, hs⟩
  · rcases hright with ⟨n', hn', hs'⟩ | ⟨_, _, _, he', _⟩ | ⟨_, _, _, _, _, _, he', _⟩
    · obtain rfl : n = n' := Except.ok.inj (hn.symm.trans hn')
      refine .inl ⟨_, _, hs, hs', (Source.isProgram_of_parse hs).beq_of_bare ?_⟩
      rw [Node.bare_relocate, Node.bare_relocate]
    · cases hn.symm.trans he'
    · cases hn.symm.trans he'
  · rcases hright with ⟨_, hn', _⟩ | ⟨cause', _, _, he', hs'⟩ | ⟨_, _, _, _, _, _, he', _⟩
    · cases he.symm.trans hn'
    · obtain ⟨rfl, _⟩ := Failure.grammar.inj (Except.error.inj (he.symm.trans he'))
      obtain ⟨f, f', hf, hf', hff'⟩ : ∃ f f' : Fault, _ ∧ _ ∧ f.Corresponds ts ts' f' :=
        Failure.corresponds (.inl ⟨rfl, rfl⟩) cause _ _
      exact .inr ⟨_, _, f, f', hs, hs', hf, hf', hff'⟩
    · cases he.symm.trans he'
  · rcases hright with ⟨_, hn', _⟩ | ⟨_, _, _, he', _⟩ | ⟨cause', j, t', _, _, ht', he', hs'⟩
    · cases he.symm.trans hn'
    · cases he.symm.trans he'
    · obtain ⟨rfl, hfound, _⟩ := Failure.grammar.inj (Except.error.inj (he.symm.trans he'))
      obtain ⟨rfl, hspelling⟩ := Token.movedTo_cell_inj (Option.some.inj hfound)
      obtain ⟨f, f', hf, hf', hff'⟩ :=
        Failure.corresponds (.inr ⟨i, t, t', ht, ht', rfl, rfl, hspelling⟩) cause _ _
      exact .inr ⟨_, _, f, f', hs, hs', hf, hf', hff'⟩

/-- A comment, blanks and another file before a mark that is not expected. -/
theorem Source.parse_layout_comment :
    let s : Source := ⟨"a+)", "x", false⟩
    let s' : Source := ⟨"a # name\n + )", "y", false⟩
    ∃ ts ts', s.tokens = .ok ts ∧ s'.tokens = .ok ts' ∧ ts.map Token.spelling = ts'.map Token.spelling ∧
      ((∃ n n', s.parse {} = .ok n ∧ s'.parse {} = .ok n' ∧ (n == n') = true) ∨
      ∃ e e' f f', s.parse {} = .error e ∧ s'.parse {} = .error e' ∧ e.fault? = .ok f ∧ e'.fault? = .ok f' ∧
        f.Corresponds ts ts' f') := by
  intro s s'
  have hts : s.tokens = .ok [.plain .identifier "a" ⟨"x", 1, 0, 0⟩, .plain .operator "+" ⟨"x", 1, 1, 1⟩,
      .plain .punctuation ")" ⟨"x", 1, 2, 2⟩] := by
    decide +kernel
  have hts' : s'.tokens = .ok [.plain .identifier "a" ⟨"y", 1, 0, 0⟩, .plain .operator "+" ⟨"y", 2, 1, 10⟩,
      .plain .punctuation ")" ⟨"y", 2, 3, 12⟩] := by
    decide +kernel
  exact ⟨_, _, hts, hts', rfl, Source.parse_layout hts hts' rfl {}⟩

end LambdaReader
