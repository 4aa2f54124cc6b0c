import LambdaReader.Proofs.Spans

/-!
# `Proofs.Locality` — how far ahead the scanner looks

The scanner looks one character ahead at most: every stretch that ends before the end of a text is found
again if something else comes behind that text (`Local`), and so is every token that ends there
(`Scanner.readNext_local`). Two texts that start alike are then scanned alike, token by token, up to one
that ends where they still are the same.

## Main results
- `Scanner.place_of_mem_drain`: tokens stand in the text where their locations say;
- `Scanner.drain_shared`: the tokens of texts that start alike.
-/

namespace LambdaReader

open Lexicon TokenSource Step

/-! ## Stretches -/

/-- What is found at the front depends on nothing behind the character that follows it. -/
def Local (run : List Char → List Char) : Prop :=
  ∀ m tail tail', (run (m ++ tail)).length < m.length → run (m ++ tail') = run (m ++ tail)

theorem local_takeWhile (isIn : Char → Bool) : Local (List.takeWhile isIn) := by
  intro m tail tail' h
  have hshort : (m.takeWhile isIn).length ≠ m.length := by
    intro hall
    rw [List.takeWhile_append, if_pos hall, List.length_append] at h
    omega
  rw [List.takeWhile_append, List.takeWhile_append, if_neg hshort, if_neg hshort]

theorem local_take_one : Local (List.take 1) := by
  intro m tail tail' h
  cases m with
  | nil => cases h
  | cons c m => rfl

theorem local_numeralRun : Local numeralRun := by
  intro m tail tail' h
  have hsplit : m.takeWhile isDigit ++ m.dropWhile isDigit = m := List.takeWhile_append_dropWhile
  have hdigits : ∀ c ∈ m.takeWhile isDigit, isDigit c = true := List.all_eq_true.mp List.all_takeWhile
  generalize m.takeWhile isDigit = ds at hsplit hdigits
  cases hrest : m.dropWhile isDigit with
  | nil =>
    -- Digits up to the end of `m` would all be found.
    rw [hrest, List.append_nil] at hsplit
    subst hsplit
    have hprefix : ds <+: numeralRun (ds ++ tail) := by
      unfold numeralRun
      rw [List.takeWhile_append_of_pos hdigits]
      split
      · exact List.prefix_append _ _
      · split
        · rw [List.append_assoc]
          exact List.prefix_append _ _
        · exact List.prefix_append _ _
    have hle := hprefix.length_le
    omega
  | cons c m' =>
    have hc : isDigit c = false := by
      have hhead := List.head?_dropWhile_not isDigit m
      rwa [hrest] at hhead
    have hrun (t : List Char) : numeralRun (m ++ t) =
        if c = point then ds ++ c :: (m' ++ t).takeWhile isDigit else ds := by
      unfold numeralRun
      rw [← hsplit, hrest, List.append_assoc, List.cons_append, List.dropWhile_append_of_pos hdigits,
        List.takeWhile_append_of_pos hdigits]
      simp [hc]
    rw [hrun] at h ⊢
    rw [hrun]
    by_cases hpoint : c = point
    · rw [if_pos hpoint] at h ⊢
      rw [if_pos hpoint]
      have hlength := congrArg List.length hsplit
      simp only [hrest, List.length_append, List.length_cons] at h hlength
      rw [local_takeWhile isDigit m' tail tail' (by omega)]
    · rw [if_neg hpoint, if_neg hpoint]

theorem local_triviaRun (inComment : Bool) : Local (triviaRun inComment) := by
  intro m tail tail' h
  induction m generalizing inComment with
  | nil => cases h
  | cons c m ih =>
    cases inComment with
    | true =>
      simp only [List.cons_append, triviaRun, List.length_cons] at h ⊢
      rw [ih _ (Nat.lt_of_succ_lt_succ h)]
    | false =>
      simp only [List.cons_append, triviaRun] at h ⊢
      by_cases hblank : isBlank c = true
      · rw [if_pos hblank, List.length_cons, List.length_cons] at h
        rw [if_pos hblank, if_pos hblank, ih _ (Nat.lt_of_succ_lt_succ h)]
      · rw [if_neg hblank] at h ⊢
        rw [if_neg hblank]
        by_cases hmark : c = commentMark
        · rw [if_pos hmark, List.length_cons, List.length_cons] at h
          rw [if_pos hmark, if_pos hmark, ih _ (Nat.lt_of_succ_lt_succ h)]
        · rw [if_neg hmark, if_neg hmark]

/-- A literal that ends before the end of a text is closed there. -/
theorem Literal.ofFront_append (closes : Char → Bool) {m tail : List Char} (tail' : List Char)
    (h : (ofFront closes (m ++ tail)).raw.length < m.length) :
    ofFront closes (m ++ tail') = ofFront closes (m ++ tail) := by
  cases m with
  | nil => cases h
  | cons c m =>
    simp only [List.cons_append, ofFront, mark, List.length_cons] at h ⊢
    have hprefix := raw_ofBody_isPrefix closes (m ++ tail)
    have hagain := Lexeme.ofBody_raw closes (m ++ tail)
    have hclosed : (ofBody closes (m ++ tail)).closed = true := by
      by_contra hopen
      rw [raw_ofBody_of_open (Bool.eq_false_iff.mpr hopen), List.length_append] at h
      omega
    generalize ofBody closes (m ++ tail) = found at h hprefix hagain hclosed
    obtain ⟨more, rfl⟩ : found.raw <+: m :=
      List.prefix_of_prefix_length_le hprefix (List.prefix_append m tail) (by omega)
    have hwhole : ofBody closes (found.raw ++ (more ++ tail')) = found := by
      rw [Lexeme.ofBody_append _ (congrArg Literal.raw hagain) (hagain.symm ▸ hclosed), hagain]
    rw [List.append_assoc, hwhole]

/-! ## Scans -/

namespace Scanner

variable {l : Location} {m tail tail' : List Char} {strict : Bool} {t : Token} {s s' : Scanner}

/-- The scanner in front of a text. -/
abbrev facing (l : Location) (strict : Bool) (cs : List Char) : Scanner := ⟨⟨l, cs⟩, strict⟩

theorem after_facing (run rest : List Char) :
    (facing l strict (run ++ rest)).after run = facing (l.advance run) strict rest := by
  rw [after, Cursor.consume_append]

theorem readNumber_local (h : readNumber (facing l strict (m ++ tail)) = .ok t s')
    (hlt : t.lexeme.toList.length < m.length) :
    ∃ s'', readNumber (facing l strict (m ++ tail')) = .ok t s'' := by
  simp only [readNumber, bind_apply, get_apply, take_apply] at h ⊢
  by_cases hpoint : numeralRun (m ++ tail) = [point]
  · rw [if_pos hpoint] at h
    cases h
  · rw [if_neg hpoint] at h
    cases hd : Decimal.ofNumeral? (numeralRun (m ++ tail)) with
    | none =>
      rw [hd] at h
      cases h
    | some d =>
      rw [hd] at h
      cases h
      rw [String.toList_ofList] at hlt
      rw [local_numeralRun m tail tail' hlt, if_neg hpoint, hd]
      exact ⟨_, rfl⟩

theorem readWord_local (h : readWord (facing l strict (m ++ tail)) = .ok t s')
    (hlt : t.lexeme.toList.length < m.length) :
    ∃ s'', readWord (facing l strict (m ++ tail')) = .ok t s'' := by
  simp only [readWord, readWhile, bind_apply, get_apply, take_apply, pure_apply] at h ⊢
  cases h
  rw [Token.plain, String.toList_ofList] at hlt
  rw [local_takeWhile _ m tail tail' hlt]
  exact ⟨_, rfl⟩

theorem readString_local (h : readString (facing l strict (m ++ tail)) = .ok t s')
    (hlt : t.lexeme.toList.length < m.length) :
    ∃ s'', readString (facing l strict (m ++ tail')) = .ok t s'' := by
  simp only [readString, readLiteral, bind_apply, get_apply] at h ⊢
  split at h
  · next hl =>
    split at hl
    · cases hl
    · next hclosed =>
      cases hl
      cases h
      rw [String.toList_ofList] at hlt
      rw [Literal.ofFront_append _ tail' hlt, if_neg hclosed]
      exact ⟨_, rfl⟩
  · cases h

theorem readPunctuation_local (h : readPunctuation (facing l strict (m ++ tail)) = .ok t s')
    (hlt : t.lexeme.toList.length < m.length) :
    ∃ s'', readPunctuation (facing l strict (m ++ tail')) = .ok t s'' := by
  simp only [readPunctuation_eq, bind_apply, get_apply, take_apply, pure_apply] at h ⊢
  cases h
  rw [Token.plain, String.toList_ofList] at hlt
  rw [local_take_one m tail tail' hlt]
  exact ⟨_, rfl⟩

theorem readOperator_local (h : readOperator (facing l strict (m ++ tail)) = .ok t s')
    (hlt : t.lexeme.toList.length < m.length) :
    ∃ s'', readOperator (facing l strict (m ++ tail')) = .ok t s'' := by
  simp only [readOperator, readWhile, bind_apply, get_apply, take_apply, pure_apply] at h ⊢
  cases h
  rw [Token.plain, String.toList_ofList] at hlt
  rw [local_takeWhile _ m tail tail' hlt]
  exact ⟨_, rfl⟩

/-- A token that ends before the end of a text is read in front of any other text as well. -/
theorem readToken_local {c : Char} (tail' : List Char)
    (h : readToken c (facing l strict (m ++ tail)) = .ok t s') (hlt : t.lexeme.toList.length < m.length) :
    ∃ s'', readToken c (facing l strict (m ++ tail')) = .ok t s'' := by
  unfold readToken at h ⊢
  by_cases hquote : c = stringQuote
  · rw [if_pos hquote] at h ⊢
    exact readString_local h hlt
  rw [if_neg hquote] at h ⊢
  by_cases hnumber : isDigit c = true ∨ c = point
  · rw [if_pos hnumber] at h ⊢
    exact readNumber_local h hlt
  rw [if_neg hnumber] at h ⊢
  by_cases hword : isIdentifierStart c = true
  · rw [if_pos hword] at h ⊢
    exact readWord_local h hlt
  rw [if_neg hword] at h ⊢
  by_cases hmark : isPunctuation c = true
  · rw [if_pos hmark] at h ⊢
    exact readPunctuation_local h hlt
  rw [if_neg hmark] at h ⊢
  by_cases hop : isOperatorChar c = true
  · rw [if_pos hop] at h ⊢
    exact readOperator_local h hlt
  · rw [if_neg hop] at h
    cases h

/-- Behind blanks and comments the next character decides what is read. -/
theorem readNext_facing {gap cs : List Char} {c : Char}
    (hgap : triviaRun false (gap ++ c :: cs) = gap) :
    readNext (facing l strict (gap ++ c :: cs)) =
      match readToken c (facing (l.advance gap) strict (c :: cs)) with
      | .ok t s' => .ok (some t) s'
      | .error e s' => .error e s' := by
  have happly := readNext_apply (facing l strict (gap ++ c :: cs))
  rw [hgap, after_facing] at happly
  exact happly

/-- A scanned token stands behind blanks and comments, and the scanner then stands behind the token. -/
theorem readNext_place {cs : List Char} (h : readNext (facing l strict cs) = .ok (some t) s') :
    ∃ gap rest, triviaRun false cs = gap ∧ cs = gap ++ (t.lexeme.toList ++ rest) ∧
      t.location = l.advance gap ∧ s' = facing t.stop strict rest := by
  have htakes := readNext_some h
  obtain ⟨more, hmore⟩ := triviaRun_isPrefix false cs
  generalize hgap : triviaRun false cs = gap at htakes hmore
  subst hmore
  rw [after_facing] at htakes
  obtain ⟨run, ⟨rest, rfl⟩, _, ht, rfl⟩ := htakes
  have hlexeme : t.lexeme.toList = run := by rw [ht, String.toList_ofList]
  have hlocation : t.location = l.advance gap := by
    rw [ht]
    rfl
  refine ⟨gap, rest, rfl, ?_, hlocation, ?_⟩
  · rw [hlexeme]
  · rw [after_facing, Token.stop, hlexeme, hlocation]

/-- A token with anything behind it is scanned again if that goes on to another end. -/
theorem readNext_again {gap : List Char}
    (h : readNext (facing l strict (gap ++ (t.lexeme.toList ++ (m ++ tail)))) = .ok (some t) s')
    (hgap : triviaRun false (gap ++ (t.lexeme.toList ++ (m ++ tail))) = gap) (hm : m ≠ []) :
    readNext (facing l strict (gap ++ (t.lexeme.toList ++ (m ++ tail')))) =
      .ok (some t) (facing t.stop strict (m ++ tail')) := by
  obtain ⟨c, cs, hcs⟩ : ∃ c cs, t.lexeme.toList = c :: cs :=
    List.exists_cons_of_ne_nil (isLexeme_of_takes (readNext_some h)).ne_nil
  have hpos : 0 < m.length := List.length_pos_iff.mpr hm
  have hfront (rest : List Char) : t.lexeme.toList ++ (m ++ rest) = c :: (cs ++ m) ++ rest := by
    simp [hcs]
  -- The blanks before the token do not go on to the other end, and neither does the token.
  have hgap' : triviaRun false (gap ++ (t.lexeme.toList ++ (m ++ tail'))) = gap := by
    rw [hfront, ← List.append_assoc] at hgap ⊢
    have hshort : (triviaRun false (gap ++ c :: (cs ++ m) ++ tail)).length <
        (gap ++ c :: (cs ++ m)).length := by
      rw [hgap, List.length_append, List.length_cons]
      omega
    exact (local_triviaRun false _ tail tail' hshort).trans hgap
  have hagain : ∃ s'', readNext (facing l strict (gap ++ (t.lexeme.toList ++ (m ++ tail')))) =
      .ok (some t) s'' := by
    rw [hfront, List.cons_append] at h hgap hgap' ⊢
    rw [readNext_facing hgap] at h
    rw [readNext_facing hgap']
    cases htoken : readToken c (facing (l.advance gap) strict (c :: (cs ++ m ++ tail))) with
    | error e s => rw [htoken] at h; cases h
    | ok u s =>
      rw [htoken] at h
      cases h
      have hlt : t.lexeme.toList.length < (c :: (cs ++ m)).length := by
        rw [hcs, List.length_cons, List.length_cons, List.length_append]
        omega
      rw [← List.cons_append] at htoken
      obtain ⟨s'', htoken'⟩ := readToken_local tail' htoken hlt
      rw [List.cons_append] at htoken'
      rw [htoken']
      exact ⟨s'', rfl⟩
  obtain ⟨s'', hagain⟩ := hagain
  obtain ⟨_, rest, rfl, htext, _, rfl⟩ := readNext_place hagain
  rw [hgap'] at htext
  obtain rfl : m ++ tail' = rest := List.append_cancel_left (List.append_cancel_left htext)
  exact hagain

/-- A token that ends before the end of a text is scanned in front of any other text as well. -/
theorem readNext_local (tail' : List Char)
    (h : readNext (facing l strict (m ++ tail)) = .ok (some t) s')
    (hlt : s'.location.offset < (l.advance m).offset) :
    ∃ run m', m = run ++ m' ∧ run ≠ [] ∧ s' = facing (l.advance run) strict (m' ++ tail) ∧
      readNext (facing l strict (m ++ tail')) =
        .ok (some t) (facing (l.advance run) strict (m' ++ tail')) := by
  have hne : t.lexeme.toList ≠ [] := (isLexeme_of_takes (readNext_some h)).ne_nil
  obtain ⟨gap, rest, hgap, htext, hlocation, rfl⟩ := readNext_place h
  have hstop : t.stop = l.advance (gap ++ t.lexeme.toList) := by
    rw [Token.stop, hlocation, Location.advance_append]
  have hlength : (gap ++ t.lexeme.toList).length < m.length := by
    have hlt : t.stop.offset < (l.advance m).offset := hlt
    rw [hstop, Location.advance_offset, Location.advance_offset] at hlt
    omega
  rw [← List.append_assoc] at htext
  obtain ⟨m', rfl⟩ : gap ++ t.lexeme.toList <+: m :=
    List.prefix_of_prefix_length_le ⟨rest, htext.symm⟩ (List.prefix_append m tail)
      (Nat.le_of_lt hlength)
  rw [List.append_assoc] at htext
  obtain rfl : m' ++ tail = rest := List.append_cancel_left htext
  have hm' : m' ≠ [] := by
    rintro rfl
    rw [List.append_nil] at hlength
    omega
  have hfront (rest : List Char) :
      gap ++ t.lexeme.toList ++ m' ++ rest = gap ++ (t.lexeme.toList ++ (m' ++ rest)) := by
    rw [List.append_assoc, List.append_assoc]
  rw [hfront] at h hgap
  refine ⟨gap ++ t.lexeme.toList, m', rfl, List.append_ne_nil_of_right_ne_nil gap hne, ?_, ?_⟩
  · rw [hstop]
  · rw [hfront, readNext_again h hgap hm', hstop]

/-! ## Whole scans -/

/-- The tokens of a text stand in it where their locations say. -/
theorem place_of_mem_drain (s : Scanner) : ∀ t ∈ (drain s).1, ∃ front back,
    s.cursor.rest = front ++ (t.lexeme.toList ++ back) ∧ t.location = s.location.advance front := by
  refine drain_induction (P := fun s d => ∀ t ∈ d.1, ∃ front back,
    s.cursor.rest = front ++ (t.lexeme.toList ++ back) ∧ t.location = s.location.advance front)
    ?_ ?_ ?_ s
  · intro s s' t hscan ih
    obtain ⟨gap, rest, _, htext, hlocation, rfl⟩ := readNext_place hscan
    refine List.forall_mem_cons.mpr ⟨⟨gap, rest, htext, hlocation⟩, fun u hu => ?_⟩
    obtain ⟨front, back, hrest, hu⟩ := ih u hu
    have hrest : rest = front ++ (u.lexeme.toList ++ back) := hrest
    have hu : u.location = t.stop.advance front := hu
    refine ⟨gap ++ t.lexeme.toList ++ front, back, ?_, ?_⟩
    · rw [htext, hrest]
      simp only [List.append_assoc]
    · rw [hu, Token.stop, hlocation, Location.advance_append, Location.advance_append]
      rfl
  · intro s s' _
    exact List.forall_mem_nil _
  · intro s s' f _
    exact List.forall_mem_nil _

theorem exists_scan_of_mem (h : t ∈ (drain s).1) : ∃ u s', readNext s = .ok (some u) s' ∧
    drain s = (u :: (drain s').1, (drain s').2) := by
  cases hscan : readNext s with
  | error e s' =>
    rw [drain_error hscan] at h
    cases h
  | ok found s' =>
    cases found with
    | none =>
      rw [drain_none hscan] at h
      cases h
    | some u => exact ⟨u, s', rfl, drain_some hscan⟩

/-- A scan that comes to the end of a token has given that token. -/
theorem eq_of_stop_le {u : Token} (hscan : readNext s = .ok (some u) s') (h : t ∈ (drain s).1)
    (hle : t.stop.offset ≤ s'.location.offset) : t = u ∧ t ∉ (drain s').1 := by
  have hlt : t.location.offset < t.stop.offset := by
    have hpos := List.length_pos_iff.mpr (isLexeme_of_mem_drain s t h).ne_nil
    rw [Token.stop, Location.advance_offset]
    omega
  have hnot : t ∉ (drain s').1 := by
    intro ht
    have hbehind := (ascending_drain s').2 t ht
    omega
  have hdrain : drain s = (u :: (drain s').1, (drain s').2) := drain_some hscan
  rw [hdrain, List.mem_cons] at h
  exact ⟨h.resolve_right hnot, hnot⟩

/-- Texts that start alike are scanned alike up to a token that ends where they still are the same. -/
theorem drain_shared (hstop : t.stop = l.advance m) (h : t ∈ (drain (facing l strict (m ++ tail))).1)
    (h' : t ∈ (drain (facing l strict (m ++ tail'))).1) :
    ∃ ts us us', (drain (facing l strict (m ++ tail))).1 = ts ++ us ∧
      (drain (facing l strict (m ++ tail'))).1 = ts ++ us' ∧ t ∉ us := by
  induction hn : m.length using Nat.strongRecOn generalizing l m with
  | ind n ih =>
    obtain ⟨u, s, hscan, hdrain⟩ := exists_scan_of_mem h
    obtain ⟨v, s', hscan', hdrain'⟩ := exists_scan_of_mem h'
    by_cases hlt : s.location.offset < (l.advance m).offset
    · -- A token that ends before `m` does is scanned on both sides, and it is not `t`.
      obtain ⟨run, m', rfl, hrun, rfl, hagain⟩ := readNext_local tail' hscan hlt
      cases hscan'.symm.trans hagain
      have hne : t ≠ u := by
        rintro rfl
        rw [(readNext_some hscan).location, hstop] at hlt
        exact Int.lt_irrefl _ hlt
      rw [hdrain, List.mem_cons] at h
      rw [hdrain', List.mem_cons] at h'
      rw [Location.advance_append] at hstop
      have hpos : 0 < run.length := List.length_pos_iff.mpr hrun
      rw [List.length_append] at hn
      obtain ⟨ts, us, us', hus, hus', ht⟩ :=
        ih m'.length (by omega) hstop (h.resolve_left hne) (h'.resolve_left hne) rfl
      refine ⟨u :: ts, us, us', ?_, ?_, ht⟩
      · rw [hdrain, hus, List.cons_append]
      · rw [hdrain', hus', List.cons_append]
    · -- The first token on the left is `t`, and so it is on the right.
      have hnot : ¬s'.location.offset < (l.advance m).offset := by
        intro hlt'
        obtain ⟨run, m', rfl, _, rfl, hagain⟩ := readNext_local tail hscan' hlt'
        cases hscan.symm.trans hagain
        exact hlt hlt'
      obtain ⟨rfl, ht⟩ := eq_of_stop_le hscan h (by rw [hstop]; omega)
      obtain ⟨rfl, _⟩ := eq_of_stop_le hscan' h' (by rw [hstop]; omega)
      exact ⟨[t], _, _, congrArg Prod.fst hdrain, congrArg Prod.fst hdrain', ht⟩

end Scanner

end LambdaReader
