import LambdaReader.Proofs.Locality
import LambdaReader.Proofs.Layout

/-!
# `Proofs.Excerpt` — tokens that are written down again

A token that the scanner has given can be written down anywhere, as long as nothing goes on with it there
(`Token.Fits`): behind any gap, at any place, and with less behind it than before. So the text from the
start of one token to the end of another has the tokens between them, and tokens can be left out of a
text.

Strings need care. In strict reading every string is closed; otherwise the last one may be open, and it
fits before the end of a text only.

## Main results
- `Source.tokens_excerpt`: the tokens of a part of a text;
- `Source.exists_of_sublist`: some of the tokens of a text, written down again.
-/

namespace LambdaReader

open Lexicon Lexeme TokenSource Step

/-! ## Where a token can stand -/

/-- Before this text the token is scanned as it is. -/
structure Token.Fits (strict : Bool) (t : Token) (rest : List Char) : Prop where
  isLexeme : t.IsLexeme
  stops : Stops t.kind t.lexeme.toList rest ∨ t.kind = .string ∧ strict = false ∧ rest = []

namespace Lexeme

theorem Stops.of_prefix {kind : TokenKind} {run rest rest' : List Char} (h : Stops kind run rest)
    (hbefore : rest' <+: rest) : Stops kind run rest' := by
  have hhead : ∀ c ∈ rest'.head?, c ∈ rest.head? := by
    obtain ⟨more, rfl⟩ := hbefore
    intro c hc
    obtain ⟨tail, rfl⟩ := List.head?_eq_some_iff.mp hc
    rfl
  cases kind with
  | string => exact h
  | punctuation => exact trivial
  | number | keyword | identifier | operator => exact fun c hc => h c (hhead c hc)

theorem stops_takeWhile {isIn : Char → Bool} (cs : List Char) :
    ∀ c ∈ (cs.drop (cs.takeWhile isIn).length).head?, isIn c = false := by
  have hdrop : cs.drop (cs.takeWhile isIn).length = cs.dropWhile isIn := by
    have hleft := @List.drop_left _ (cs.takeWhile isIn) (cs.dropWhile isIn)
    rwa [List.takeWhile_append_dropWhile] at hleft
  intro c hc
  rw [hdrop] at hc
  have hhead := List.head?_dropWhile_not isIn cs
  rw [Option.mem_def.mp hc] at hhead
  exact hhead

/-- Behind a numeral stands no digit, and no point but behind another one. -/
theorem stops_numeralRun (cs : List Char) :
    Stops .number (numeralRun cs) (cs.drop (numeralRun cs).length) := by
  have hsplit : cs.takeWhile isDigit ++ cs.dropWhile isDigit = cs := List.takeWhile_append_dropWhile
  generalize hds : cs.takeWhile isDigit = ds at hsplit
  have hstop := @stops_takeWhile isDigit cs
  rw [hds, ← hsplit, List.drop_left] at hstop
  unfold numeralRun
  rw [hds]
  cases hrest : cs.dropWhile isDigit with
  | nil =>
    rw [hrest, List.append_nil] at hsplit
    rw [hsplit, List.drop_length]
    exact nofun
  | cons c rest =>
    rw [hrest] at hsplit hstop
    rw [← hsplit]
    by_cases hpoint : c = point
    · have hdrop : (ds ++ c :: rest).drop (ds ++ c :: rest.takeWhile isDigit).length =
          rest.drop (rest.takeWhile isDigit).length := by
        rw [List.length_append, List.length_cons, List.drop_append]
        simp
      simp only [if_pos hpoint, hdrop]
      intro d hd
      exact ⟨stops_takeWhile rest d hd, fun _ => by simp [hpoint]⟩
    · simp only [if_neg hpoint, List.drop_left]
      intro d hd
      obtain rfl := Option.some.inj hd
      exact ⟨hstop c rfl, fun h => absurd h hpoint⟩

end Lexeme

namespace Token

variable {strict : Bool} {t : Token} {rest rest' : List Char}

/-- With less behind it a token fits as well. -/
theorem Fits.of_prefix (h : t.Fits strict rest) (hbefore : rest' <+: rest) : t.Fits strict rest' where
  isLexeme := h.isLexeme
  stops := by
    obtain hstops | ⟨hkind, hstrict, rfl⟩ := h.stops
    · exact .inl (hstops.of_prefix hbefore)
    · exact .inr ⟨hkind, hstrict, List.prefix_nil.mp hbefore⟩

end Token

namespace Scanner

variable {strict : Bool} {l : Location} {t : Token} {s s' : Scanner} {cs : List Char}

/-! ## What is scanned fits -/

theorem readNumber_fits (h : readNumber (facing l strict cs) = .ok t s') :
    Stops t.kind t.lexeme.toList s'.cursor.rest := by
  simp only [readNumber, bind_apply, get_apply, take_apply] at h
  by_cases hpoint : numeralRun cs = [point]
  · rw [if_pos hpoint] at h
    cases h
  · rw [if_neg hpoint] at h
    cases hd : Decimal.ofNumeral? (numeralRun cs) with
    | none =>
      rw [hd] at h
      cases h
    | some d =>
      rw [hd] at h
      cases h
      rw [String.toList_ofList]
      exact stops_numeralRun cs

theorem readWord_fits (h : readWord (facing l strict cs) = .ok t s') :
    Stops t.kind t.lexeme.toList s'.cursor.rest := by
  simp only [readWord, readWhile, bind_apply, get_apply, take_apply, pure_apply] at h
  cases h
  simp only [Token.plain, String.toList_ofList]
  by_cases hkey : isKeyword (String.ofList (cs.takeWhile isIdentifierChar)) = true
  · rw [if_pos hkey]
    exact stops_takeWhile cs
  · rw [if_neg hkey]
    exact stops_takeWhile cs

/-- A string is closed, or reading is not strict and it goes on to the end. -/
theorem readString_fits (hs : cs.head? = some stringQuote)
    (h : readString (facing l strict cs) = .ok t s') :
    Stops t.kind t.lexeme.toList s'.cursor.rest ∨
      t.kind = .string ∧ strict = false ∧ s'.cursor.rest = [] := by
  obtain ⟨cs, rfl⟩ := List.head?_eq_some_iff.mp hs
  simp only [readString, readLiteral, bind_apply, get_apply] at h
  split at h
  · next found s₁ hl =>
    split at hl
    · cases hl
    · next hopen =>
      cases hl
      cases h
      have hagain : Literal.ofFront (· = stringQuote)
          (Literal.ofFront (· = stringQuote) (stringQuote :: cs)).raw =
            Literal.ofFront (· = stringQuote) (stringQuote :: cs) := by
        rw [Literal.ofFront, Literal.mark, Literal.ofFront, ofBody_raw]
        rfl
      by_cases hclosed : (Literal.ofFront (· = stringQuote) (stringQuote :: cs)).closed = true
      · refine .inl ?_
        rw [String.toList_ofList, Stops, hagain]
        exact hclosed
      · have hbody : (Literal.ofBody (· = stringQuote) cs).closed = false := Bool.eq_false_iff.mpr hclosed
        refine .inr ⟨rfl, ?_, ?_⟩
        · simpa [Literal.ofFront, Literal.mark, hbody] using hopen
        · rw [Literal.ofFront, Literal.mark, Literal.raw_ofBody_of_open hbody]
          exact List.drop_length
  · cases h

theorem readToken_fits {c : Char} (hs : cs.head? = some c)
    (h : readToken c (facing l strict cs) = .ok t s') :
    Stops t.kind t.lexeme.toList s'.cursor.rest ∨
      t.kind = .string ∧ strict = false ∧ s'.cursor.rest = [] := by
  unfold readToken at h
  split at h
  · next hc =>
    subst hc
    exact readString_fits hs h
  split at h
  · exact .inl (readNumber_fits h)
  split at h
  · exact .inl (readWord_fits h)
  split at h
  · simp only [readPunctuation_eq, bind_apply, get_apply, take_apply, pure_apply] at h
    cases h
    exact .inl trivial
  split at h
  · simp only [readOperator, readWhile, bind_apply, get_apply, take_apply, pure_apply] at h
    cases h
    rw [Token.plain, String.toList_ofList]
    exact .inl (stops_takeWhile cs)
  · cases h

/-- A token is scanned behind a gap, and it fits before what is left. -/
theorem readNext_fits (h : readNext (facing l strict cs) = .ok (some t) s') :
    ∃ gap rest, Gap gap ∧ cs = gap ++ (t.lexeme.toList ++ rest) ∧ t.location = l.advance gap ∧
      s' = facing t.stop strict rest ∧ t.Fits strict rest := by
  have hlexeme : t.IsLexeme := isLexeme_of_takes (readNext_some h)
  obtain ⟨gap, rest, hgap, rfl, hlocation, rfl⟩ := readNext_place h
  obtain ⟨c, run, hrun⟩ := List.exists_cons_of_ne_nil hlexeme.ne_nil
  have hskipped : Gap gap := by
    rcases exists_gap (gap ++ (t.lexeme.toList ++ rest)) with
      htrivia | ⟨gap', d, tail, htext, hgap', hblank, hmark⟩
    · -- Trivia would be passed over with the token.
      have hall := htrivia.triviaRun_eq.symm.trans hgap
      simp [hrun] at hall
    · rw [htext, triviaRun_gap hgap', triviaRun] at hgap
      simp only [hblank, hmark, if_false, Bool.false_eq_true, List.append_nil] at hgap
      exact hgap ▸ hgap'
  refine ⟨gap, rest, hskipped, rfl, hlocation, rfl, hlexeme, ?_⟩
  rw [hrun, List.cons_append] at h hgap
  rw [readNext_facing hgap] at h
  split at h
  · next u s hread =>
    cases h
    exact readToken_fits rfl hread
  · cases h

/-! ## What fits is scanned -/

/-- A string at the end of the text may be open if reading is not strict. -/
theorem readString_open {cs value : List Char} {closed : Bool}
    (hbody : Literal.ofBody (· = stringQuote) cs = ⟨cs, value, closed⟩) :
    readString (facing l false (stringQuote :: cs)) =
      .ok ⟨.string, String.ofList (stringQuote :: cs), .text (String.ofList value), l⟩
        ((facing l false (stringQuote :: cs)).after (stringQuote :: cs)) := by
  simp only [readString, readLiteral, bind_apply, get_apply]
  rw [Literal.ofFront, hbody, Bool.and_false]
  rfl

/-- Behind a gap a token is scanned before anything that it fits before. -/
theorem readNext_of_fits {gap rest : List Char} (hgap : Gap gap) (h : t.Fits strict rest) :
    readNext (facing l strict (gap ++ (t.lexeme.toList ++ rest))) =
      .ok (some (t.movedTo (l.advance gap)))
        (facing ((l.advance gap).advance t.lexeme.toList) strict rest) := by
  obtain ⟨kind, lexeme, value, location⟩ := t
  obtain ⟨run, rfl⟩ : ∃ run, lexeme = String.ofList run := ⟨_, String.ofList_toList.symm⟩
  obtain ⟨hd, hstops⟩ := h
  rw [Token.IsLexeme, String.toList_ofList] at hd
  simp only [String.toList_ofList] at hstops ⊢
  obtain hstops | ⟨rfl, rfl, rfl⟩ := hstops
  · rw [readNext_lexeme hgap hd hstops rfl, after_facing, after_facing]
    rfl
  · cases hd with
    | @string cs value closed hbody =>
      have htrivia : triviaRun false (gap ++ (stringQuote :: cs)) = gap := by
        rw [triviaRun_gap hgap, triviaRun]
        simp [show isBlank stringQuote = false by decide, show stringQuote ≠ commentMark by decide]
      rw [List.append_nil, readNext_facing htrivia, readToken, if_pos rfl, readString_open hbody]
      have hafter := @after_facing (l.advance gap) false (stringQuote :: cs) []
      rw [List.append_nil] at hafter
      rw [hafter]
      rfl

end Scanner

/-! ## Texts in which tokens are written -/

/-- The tokens stand in the text one behind the other, each behind a gap, and fit there. -/
inductive Strung (strict : Bool) : List Token → List Char → Prop where
  | nil : Strung strict [] []
  | cons {t : Token} {ts : List Token} {gap rest : List Char} :
    Gap gap → t.Fits strict rest → Strung strict ts rest →
    Strung strict (t :: ts) (gap ++ (t.lexeme.toList ++ rest))

/-- The tokens of such a text are these, at other places. -/
theorem Strung.drain {strict : Bool} {ts : List Token} {cs : List Char} (h : Strung strict ts cs)
    (l : Location) : ∃ us finish, TokenSource.drain (Scanner.facing l strict cs) = (us, .done finish) ∧
      us.map Token.spelling = ts.map Token.spelling := by
  induction h generalizing l with
  | nil =>
    have hscan : scan (Scanner.facing l strict []) = .ok none (Scanner.facing l strict []) :=
      Scanner.readNext_of_nil rfl
    exact ⟨[], l, drain_none hscan, rfl⟩
  | @cons t ts gap rest hgap hfits _ ih =>
    obtain ⟨us, finish, hdrain, hsame⟩ := ih ((l.advance gap).advance t.lexeme.toList)
    refine ⟨t.movedTo (l.advance gap) :: us, finish, ?_, ?_⟩
    · rw [drain_some (Scanner.readNext_of_fits hgap hfits), hdrain]
    · rw [List.map_cons, List.map_cons, hsame]
      rfl

/-- A text of nothing but such tokens has these tokens. -/
theorem Strung.tokens {s : Source} {ts : List Token} (h : Strung s.strictStrings ts s.text.toList) :
    ∃ us, s.tokens = .ok us ∧ us.map Token.spelling = ts.map Token.spelling := by
  obtain ⟨us, finish, hdrain, hsame⟩ := h.drain (.start s.file)
  refine ⟨us, ?_, hsame⟩
  have hscanner : s.scanner = Scanner.facing (.start s.file) s.strictStrings s.text.toList := rfl
  rw [Source.tokens_eq, hscanner, hdrain]

namespace Scanner

variable {strict : Bool} {l : Location} {t : Token} {before ts after : List Token} {ending : Ending}
  {cs : List Char}

/-- The first of the tokens that are still to come is scanned next. -/
theorem readNext_of_drain (h : drain (facing l strict cs) = (t :: ts, ending)) :
    ∃ gap rest, Gap gap ∧ cs = gap ++ (t.lexeme.toList ++ rest) ∧ t.location = l.advance gap ∧
      t.Fits strict rest ∧ drain (facing t.stop strict rest) = (ts, ending) := by
  obtain ⟨u, s', hscan, hdrain⟩ := exists_scan_of_mem (by rw [h]; exact List.mem_cons_self)
  rw [h] at hdrain
  injection hdrain with htokens hending
  injection htokens with htoken htokens
  subst htoken
  obtain ⟨gap, rest, hgap, htext, hlocation, rfl, hfits⟩ := readNext_fits hscan
  exact ⟨gap, rest, hgap, htext, hlocation, hfits, Prod.ext htokens.symm hending.symm⟩

/-- Where a token of a text stands, the text can be taken up again. -/
theorem exists_front_of_drain (h : drain (facing l strict cs) = (before ++ t :: ts, ending)) :
    ∃ front rest, cs = front ++ (t.lexeme.toList ++ rest) ∧ t.location = l.advance front ∧
      t.Fits strict rest ∧ drain (facing t.stop strict rest) = (ts, ending) := by
  induction before generalizing l cs with
  | nil =>
    obtain ⟨gap, rest, _, htext, hlocation, hfits, hdrain⟩ := readNext_of_drain h
    exact ⟨gap, rest, htext, hlocation, hfits, hdrain⟩
  | cons u before ih =>
    obtain ⟨gap, rest, _, rfl, hlocation, _, hdrain⟩ := readNext_of_drain h
    obtain ⟨front, rest', rfl, ht, hfits, hdrain⟩ := ih hdrain
    refine ⟨gap ++ u.lexeme.toList ++ front, rest', by simp, ?_, hfits, hdrain⟩
    rw [ht, Token.stop, hlocation, Location.advance_append, Location.advance_append]

/-- The tokens before others stand in the front of the text, up to where the last of them stops. -/
theorem exists_strung_of_drain (h : drain (facing l strict cs) = (ts ++ after, ending)) :
    ∃ front back, cs = front ++ back ∧ Strung strict ts front ∧
      l.advance front = (ts.getLast?.map Token.stop).getD l := by
  induction ts generalizing l cs with
  | nil => exact ⟨[], cs, rfl, .nil, rfl⟩
  | cons t ts ih =>
    obtain ⟨gap, rest, hgap, rfl, hlocation, hfits, hdrain⟩ := readNext_of_drain h
    obtain ⟨front, back, rfl, hstrung, hstop⟩ := ih hdrain
    refine ⟨gap ++ (t.lexeme.toList ++ front), back, by simp, ?_, ?_⟩
    · exact .cons hgap (hfits.of_prefix (List.prefix_append front back)) hstrung
    · rw [Location.advance_append, Location.advance_append, ← hlocation, ← Token.stop, hstop]
      cases ts with
      | nil => rfl
      | cons u ts =>
        rw [List.getLast?_cons_cons, List.getLast?_eq_some_getLast (List.cons_ne_nil u ts)]
        rfl

end Scanner

/-! ## A part of a text -/

/-- The part of the text from one offset up to another. -/
def Source.excerpt (s : Source) (first last : Int) : Source :=
  { s with text := String.ofList ((s.text.toList.take last.toNat).drop first.toNat) }

/-- From the start of a token to the end of another one there are the tokens between them. -/
theorem Source.tokens_excerpt {s : Source} {before ts after : List Token} {t u : Token}
    (h : s.tokens = .ok (before ++ (ts ++ after))) (ht : ts.head? = some t) (hu : ts.getLast? = some u) :
    ∃ us, (s.excerpt t.location.offset u.stop.offset).tokens = .ok us ∧
      us.map Token.spelling = ts.map Token.spelling := by
  obtain ⟨htokens, finish, hdone⟩ := Source.drain_of_tokens h
  obtain ⟨ts, rfl⟩ := List.head?_eq_some_iff.mp ht
  have hdrain : drain (Scanner.facing (.start s.file) s.strictStrings s.text.toList) =
      (before ++ t :: (ts ++ after), .done finish) := Prod.ext htokens hdone
  obtain ⟨front, rest, htext, hfirst, hfits, hdrain⟩ := Scanner.exists_front_of_drain hdrain
  obtain ⟨more, back, rfl, hstrung, hstop⟩ := Scanner.exists_strung_of_drain hdrain
  have hlast : u.stop = t.stop.advance more := by
    rw [hstop]
    cases ts with
    | nil => cases hu; rfl
    | cons v ts =>
      rw [List.getLast?_cons_cons] at hu
      rw [hu]
      rfl
  -- In front of the excerpt stands `front`, and it is the token with `more` behind it.
  have hbegin : t.location.offset.toNat = front.length := by
    rw [hfirst, ← Location.behind, Location.behind_offset, Int.toNat_natCast]
  have hend : u.stop.offset.toNat = (front ++ (t.lexeme.toList ++ more)).length := by
    rw [hlast, Token.stop, hfirst, ← Location.advance_append, ← Location.advance_append, ← Location.behind,
      Location.behind_offset, Int.toNat_natCast]
  have hexcerpt : (s.excerpt t.location.offset u.stop.offset).text.toList = t.lexeme.toList ++ more := by
    have hsplit : s.text.toList = (front ++ (t.lexeme.toList ++ more)) ++ back := by simp [htext]
    rw [Source.excerpt, String.toList_ofList, hend, hbegin, hsplit, List.take_left, List.drop_left]
  refine Strung.tokens ?_
  rw [hexcerpt]
  exact .cons .nil (hfits.of_prefix (List.prefix_append more back)) hstrung

/-! ## Tokens that are left out -/

namespace Strung

variable {strict : Bool} {t : Token} {ts us : List Token} {cs : List Char}

/-- A blank in front of a text is no part of a token. -/
theorem blank (h : Strung strict (t :: ts) cs) : Strung strict (t :: ts) (' ' :: cs) := by
  cases h with
  | cons hgap hfits hrest => exact .cons (.blank (by decide) hgap) hfits hrest

end Strung

/-- A token with another one behind it is closed, so it fits before a blank. -/
theorem Token.Fits.before_blank {strict : Bool} {t : Token} {rest : List Char} (h : t.Fits strict rest)
    (hrest : rest ≠ []) (cs : List Char) : t.Fits strict (' ' :: cs) where
  isLexeme := h.isLexeme
  stops := by
    have hstops := h.stops.resolve_right fun hopen => hrest hopen.2.2
    refine .inl (stops_of_head ?_ ?_)
    · intro c hc
      obtain rfl := Option.some.inj hc
      decide
    · intro hkind
      rw [hkind] at hstops
      exact hstops

/-- Some of the tokens of a text can be written one behind the other. -/
theorem Scanner.exists_strung_of_sublist {strict : Bool} {l : Location} {cs : List Char}
    {ts us : List Token} {ending : Ending} (h : drain (facing l strict cs) = (ts, ending))
    (hsub : us.Sublist ts) : ∃ text, Strung strict us text := by
  induction hsub generalizing l cs with
  | slnil => exact ⟨[], .nil⟩
  | cons t _ ih =>
    obtain ⟨_, _, _, _, _, _, hdrain⟩ := readNext_of_drain h
    exact ih hdrain
  | @cons_cons us ts t hsub ih =>
    obtain ⟨gap, rest, _, _, _, hfits, hdrain⟩ := readNext_of_drain h
    obtain ⟨text, htext⟩ := ih hdrain
    cases us with
    | nil =>
      have hlast := hfits.of_prefix (List.nil_prefix (l := rest))
      exact ⟨_, .cons .nil hlast .nil⟩
    | cons u us =>
      have hrest : rest ≠ [] := by
        rintro rfl
        have hnone : drain (facing t.stop strict []) = ([], _) := drain_none (readNext_of_nil rfl)
        rw [hdrain] at hnone
        cases hsub.subset List.mem_cons_self with
        | _ => cases hnone
      exact ⟨_, .cons .nil (hfits.before_blank hrest text) htext.blank⟩

/-- There is a text with some of the tokens of another one. -/
theorem Source.exists_of_sublist {s : Source} {ts us : List Token} (h : s.tokens = .ok ts)
    (hsub : us.Sublist ts) : ∃ (s' : Source) (us' : List Token), s'.file = s.file ∧
      s'.strictStrings = s.strictStrings ∧ s'.tokens = .ok us' ∧
      us'.map Token.spelling = us.map Token.spelling := by
  obtain ⟨rfl, finish, hdone⟩ := Source.drain_of_tokens h
  have hdrain : drain (Scanner.facing (.start s.file) s.strictStrings s.text.toList) =
      (_, .done finish) := Prod.ext rfl hdone
  obtain ⟨text, htext⟩ := Scanner.exists_strung_of_sublist hdrain hsub
  let s' : Source := { s with text := String.ofList text }
  have hstrung : Strung s'.strictStrings us s'.text.toList := by
    rw [show s'.text.toList = text from String.toList_ofList]
    exact htext
  obtain ⟨us', hus', hsame⟩ := hstrung.tokens
  exact ⟨s', us', rfl, rfl, hus', hsame⟩

/-! ## What the same tokens are read as -/

/-- A source is read like a record of tokens that are spelled like its own. -/
theorem Source.parse_of_spelling {s : Source} {ts us : List Token} (hus : s.tokens = .ok us)
    (hts : ∀ t ∈ ts, t.IsLexeme) (hsame : us.map Token.spelling = ts.map Token.spelling) {o : ParseOptions}
    {start finish : Location} {n : Node} (h : Replay.parse o ⟨ts, .done finish, start⟩ = .ok n) :
    ∃ m, s.parse o = .ok m ∧ m.bare = n.bare := by
  have hlikewise := Source.parse_likewise hus hts hsame start finish o
  rw [h] at hlikewise
  generalize s.parse o = result at hlikewise
  cases hlikewise with
  | ok hbare => exact ⟨_, rfl, hbare⟩

end LambdaReader
