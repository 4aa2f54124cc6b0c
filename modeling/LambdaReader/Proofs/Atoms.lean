import LambdaReader.Decimal.Shortest
import LambdaReader.Proofs.Floats

/-!
# `Proofs.Atoms` — texts that tell where they end

The text of a number and a text between quotes stand inside other texts, so the question is not only
whether two of them differ but also whether what follows can be taken for a part of them. A quoted text
tells where it ends: its characters are written one by one, none as the quote alone, and a reader of
single characters finds each of them again whatever follows. The text of a number has no mark in it that
could follow.

## Main results
- `Text.encode_append_inj`: quoted texts with anything behind them are equal only if they quote one text;
- `Decimal.floatChars_inj`: two numbers that are not missing have one text only if they are one number.
-/

namespace LambdaReader

/-! ## Hexadecimal numbers -/

namespace Text

/-- The value of a hexadecimal digit. -/
def hexDigit (c : Char) : Nat := if c.isDigit then c.toNat - '0'.toNat else c.toNat - 'a'.toNat + 10

/-- The number that hexadecimal digits stand for. -/
def hexValue (cs : List Char) : Nat := cs.foldl (fun n c => 16 * n + hexDigit c) 0

theorem hexDigit_digitChar : ∀ d < 16, hexDigit (Nat.digitChar d) = d := by decide

theorem length_hexDigits (n width : Nat) : (hexDigits n width).length = width := by
  induction width generalizing n with
  | zero => rfl
  | succ width ih => simp [hexDigits, ih]

theorem hexValue_hexDigits (n width : Nat) : hexValue (hexDigits n width) = n % 16 ^ width := by
  induction width generalizing n with
  | zero => simp [hexDigits, hexValue, Nat.mod_one]
  | succ width ih =>
    have hdigit := hexDigit_digitChar (n % 16) (Nat.mod_lt n (by decide))
    simp only [hexValue] at ih ⊢
    rw [hexDigits, List.foldl_append, ih, List.foldl_cons, List.foldl_nil, hdigit, Nat.pow_succ',
      Nat.mod_mul, Nat.add_comm]

theorem hexDigits_inj {n m width : Nat} (hn : n < 16 ^ width) (hm : m < 16 ^ width)
    (h : hexDigits n width = hexDigits m width) : n = m := by
  have hvalue := congrArg hexValue h
  rwa [hexValue_hexDigits, hexValue_hexDigits, Nat.mod_eq_of_lt hn, Nat.mod_eq_of_lt hm] at hvalue

/-! ## Single characters -/

/-- The character that is written first, and what follows it. -/
def readOne : List Char → Option (Char × List Char)
  | '\\' :: 'n' :: rest => some ('\n', rest)
  | '\\' :: 'r' :: rest => some ('\r', rest)
  | '\\' :: 't' :: rest => some ('\t', rest)
  | '\\' :: 'x' :: rest => some (Char.ofNat (hexValue (rest.take 2)), rest.drop 2)
  | '\\' :: 'u' :: rest => some (Char.ofNat (hexValue (rest.take 4)), rest.drop 4)
  | '\\' :: 'U' :: rest => some (Char.ofNat (hexValue (rest.take 8)), rest.drop 8)
  | '\\' :: c :: rest => some (c, rest)
  | c :: rest => some (c, rest)
  | [] => none

theorem readOne_hexDigits {c : Char} {width : Nat} (h : c.toNat < 16 ^ width) (rest : List Char) :
    (Char.ofNat (hexValue ((hexDigits c.toNat width ++ rest).take width)),
      (hexDigits c.toNat width ++ rest).drop width) = (c, rest) := by
  have htake : (hexDigits c.toNat width ++ rest).take width = hexDigits c.toNat width :=
    List.take_left' (length_hexDigits c.toNat width)
  have hdrop : (hexDigits c.toNat width ++ rest).drop width = rest :=
    List.drop_left' (length_hexDigits c.toNat width)
  rw [htake, hdrop, hexValue_hexDigits, Nat.mod_eq_of_lt h, Char.ofNat_toNat]

theorem readOne_codeEscape (c : Char) (rest : List Char) :
    readOne (codeEscape c ++ rest) = some (c, rest) := by
  have hlarge : c.toNat < 16 ^ 8 := Nat.lt_of_lt_of_le c.val.toNat_lt (by decide)
  unfold codeEscape
  split
  · next h => exact congrArg some (readOne_hexDigits h rest)
  · split
    · next h => exact congrArg some (readOne_hexDigits h rest)
    · exact congrArg some (readOne_hexDigits hlarge rest)

variable {quote c d : Char} {cs ds u v : List Char}

theorem readOne_cons (h : c ≠ '\\') (rest : List Char) : readOne (c :: rest) = some (c, rest) := by
  unfold readOne
  split <;> simp_all

/-- A character is read as it was written, whatever follows it. -/
theorem readOne_escape (hq : quote = '\'' ∨ quote = '"') (c : Char) (rest : List Char) :
    readOne (escape quote c ++ rest) = some (c, rest) := by
  unfold escape
  split
  · next h =>
    rcases h with rfl | rfl
    · rfl
    · rcases hq with rfl | rfl <;> rfl
  · next h =>
    split
    · next h => rw [h]; rfl
    · split
      · next h => rw [h]; rfl
      · split
        · next h => rw [h]; rfl
        · split
          · exact readOne_cons (fun hc => h (.inl hc)) rest
          · exact readOne_codeEscape c rest

theorem escape_append_inj (hq : quote = '\'' ∨ quote = '"') (h : escape quote c ++ u = escape quote d ++ v) :
    c = d ∧ u = v := by
  have hread := congrArg readOne h
  rw [readOne_escape hq, readOne_escape hq] at hread
  exact Prod.mk.inj (Option.some.inj hread)

theorem exists_escape_eq_cons (quote c : Char) :
    ∃ m rest, escape quote c = m :: rest ∧ (m = '\\' ∨ m ≠ quote) := by
  unfold escape
  split
  · exact ⟨_, _, rfl, .inl rfl⟩
  · next h =>
    split
    · exact ⟨_, _, rfl, .inl rfl⟩
    · split
      · exact ⟨_, _, rfl, .inl rfl⟩
      · split
        · exact ⟨_, _, rfl, .inl rfl⟩
        · split
          · exact ⟨c, [], rfl, .inr fun hc => h (.inr hc)⟩
          · unfold codeEscape
            split
            · exact ⟨_, _, rfl, .inl rfl⟩
            · split <;> exact ⟨_, _, rfl, .inl rfl⟩

/-- No character is written with the quote in front. -/
theorem escape_append_ne (hq : quote = '\'' ∨ quote = '"') : escape quote c ++ u ≠ quote :: v := by
  have hmark : '\\' ≠ quote := by rcases hq with rfl | rfl <;> decide
  obtain ⟨m, rest, hescape, hm⟩ := exists_escape_eq_cons quote c
  rw [hescape, List.cons_append]
  intro h
  obtain ⟨rfl, -⟩ := List.cons.inj h
  rcases hm with rfl | hm
  · exact hmark rfl
  · exact hm rfl

/-! ## Quoted texts -/

theorem body_append_inj (hq : quote = '\'' ∨ quote = '"')
    (h : cs.flatMap (escape quote) ++ quote :: u = ds.flatMap (escape quote) ++ quote :: v) :
    cs = ds ∧ u = v := by
  induction cs generalizing ds with
  | nil =>
    cases ds with
    | nil => exact ⟨rfl, (List.cons.inj h).2⟩
    | cons d ds =>
      rw [List.flatMap_cons, List.append_assoc] at h
      exact absurd h.symm (escape_append_ne hq)
  | cons c cs ih =>
    rw [List.flatMap_cons, List.append_assoc] at h
    cases ds with
    | nil => exact absurd h (escape_append_ne hq)
    | cons d ds =>
      rw [List.flatMap_cons, List.append_assoc] at h
      obtain ⟨rfl, hrest⟩ := escape_append_inj hq h
      obtain ⟨rfl, hends⟩ := ih hrest
      exact ⟨rfl, hends⟩

theorem quoteOf_cases (cs : List Char) : quoteOf cs = '\'' ∨ quoteOf cs = '"' := by
  unfold quoteOf
  split
  · exact .inr rfl
  · exact .inl rfl

/-- Quoted texts with anything behind them are equal only if they quote one text. -/
theorem encode_append_inj (h : encode cs ++ u = encode ds ++ v) : cs = ds ∧ u = v := by
  simp only [encode, List.cons_append, List.append_assoc, List.nil_append, List.cons.injEq] at h
  obtain ⟨hquote, hbody⟩ := h
  rw [hquote] at hbody
  exact body_append_inj (quoteOf_cases ds) hbody

theorem quoted_append_inj {x y : String} (h : (quoted x).toList ++ u = (quoted y).toList ++ v) :
    x = y ∧ u = v := by
  simp only [quoted, String.toList_ofList] at h
  obtain ⟨hxy, huv⟩ := encode_append_inj h
  exact ⟨String.toList_inj.mp hxy, huv⟩

end Text

/-! ## Numbers -/

namespace Decimal

/-- The characters that numbers are written with. -/
def isPlain (c : Char) : Bool := c.isAlphanum || c = '.' || c = '+' || c = '-'

variable {cs : List Char} {x y : Float}

theorem isPlain_of_isDigit {c : Char} (h : c.isDigit = true) : isPlain c = true := by
  simp [isPlain, Char.isAlphanum, h]

theorem isPlain_of_ofNumeral? {d : Decimal} (h : ofNumeral? cs = some d) : ∀ c ∈ cs, isPlain c = true := by
  intro c hc
  rw [← List.takeWhile_append_dropWhile (p := Char.isDigit) (l := cs), List.mem_append] at hc
  rcases hc with hwhole | hrest
  · exact isPlain_of_isDigit (List.mem_takeWhile_imp hwhole)
  · simp only [ofNumeral?] at h
    split at h
    · next hnil =>
      rw [hnil] at hrest
      cases hrest
    · next fraction hpoint =>
      split at h
      · next hfraction =>
        rw [hpoint, List.mem_cons] at hrest
        rcases hrest with rfl | hmem
        · decide
        · exact isPlain_of_isDigit (List.all_eq_true.mp (Bool.and_eq_true_iff.mp hfraction).1 c hmem)
      · cases h
    · cases h

theorem isPlain_of_readExponent? {n : Int} (h : readExponent? cs = some n) :
    ∀ c ∈ cs, isPlain c = true := by
  have hdigits {ds : List Char} (hall : ds.all Char.isDigit = true) : ∀ c ∈ ds, isPlain c = true :=
    fun c hc => isPlain_of_isDigit (List.all_eq_true.mp hall c hc)
  unfold readExponent? at h
  split at h
  · split at h
    · next hall => exact List.forall_mem_cons.mpr ⟨by decide, hdigits hall⟩
    · cases h
  · split at h
    · next hall => exact List.forall_mem_cons.mpr ⟨by decide, hdigits hall⟩
    · cases h
  · split at h
    · next hall => exact hdigits hall
    · cases h

theorem isPlain_of_ofScientific? {d : Decimal} (h : ofScientific? cs = some d) :
    ∀ c ∈ cs, isPlain c = true := by
  obtain ⟨mantissa, hmantissa, h⟩ := Option.bind_eq_some_iff.mp h
  intro c hc
  rw [← List.takeWhile_append_dropWhile (p := (· ≠ 'e')) (l := cs), List.mem_append] at hc
  rcases hc with hfront | hback
  · exact isPlain_of_ofNumeral? hmantissa c hfront
  · split at h
    · next hnil =>
      rw [hnil] at hback
      cases hback
    · next m scale hmark =>
      obtain ⟨exponent, hexponent, -⟩ := Option.bind_eq_some_iff.mp h
      have hm : m = 'e' := by
        have hstop := List.head?_dropWhile_not (· ≠ 'e') cs
        rw [hmark] at hstop
        simpa using hstop
      rw [hmark, List.mem_cons] at hback
      rcases hback with rfl | hmem
      · rw [hm]
        decide
      · exact isPlain_of_readExponent? hexponent c hmem

theorem isPlain_of_readUnsigned? (h : readUnsigned? cs = some x) : ∀ c ∈ cs, isPlain c = true := by
  unfold readUnsigned? at h
  split at h
  · next hinf =>
    rw [hinf]
    simp [isPlain, Char.isAlphanum]
  · obtain ⟨d, hd, -⟩ := Option.map_eq_some_iff.mp h
    exact isPlain_of_ofScientific? hd

/-- What is read as a number has no marks in it. -/
theorem isPlain_of_readFloat? (h : readFloat? cs = some x) : ∀ c ∈ cs, isPlain c = true := by
  unfold readFloat? at h
  split at h
  · simp [isPlain, Char.isAlphanum]
  · obtain ⟨y, hy, -⟩ := Option.map_eq_some_iff.mp h
    exact List.forall_mem_cons.mpr ⟨by decide, isPlain_of_readUnsigned? hy⟩
  · exact isPlain_of_readUnsigned? h

theorem isPlain_of_mem_hexDigits (n width : Nat) : ∀ c ∈ Text.hexDigits n width, isPlain c = true := by
  have hdigit : ∀ d < 16, isPlain (Nat.digitChar d) = true := by decide
  induction width generalizing n with
  | zero => nofun
  | succ width ih =>
    intro c hc
    rw [Text.hexDigits, List.mem_append, List.mem_singleton] at hc
    rcases hc with hfront | rfl
    · exact ih _ c hfront
    · exact hdigit _ (Nat.mod_lt n (by decide))

/-- A number that is not missing has a text that is read as it, or else is written by its bits. -/
theorem floatChars_cases (hx : x.isNaN = false) :
    (readFloat? (floatChars x)).map Float.toBits = some x.toBits ∨
      floatChars x = '0' :: 'x' :: Text.hexDigits x.toBits.toNat 16 := by
  rw [floatChars, hx, if_neg Bool.false_ne_true]
  cases hs : shortest? x with
  | none => exact .inr rfl
  | some t => exact .inl (read_shortest? hs)

/-- The text of a number has no marks in it but points and signs. -/
theorem isPlain_of_mem_floatChars (hx : x.isNaN = false) : ∀ c ∈ floatChars x, isPlain c = true := by
  rcases floatChars_cases hx with hread | hbits
  · obtain ⟨y, hy, -⟩ := Option.map_eq_some_iff.mp hread
    exact isPlain_of_readFloat? hy
  · rw [hbits]
    refine List.forall_mem_cons.mpr ⟨by decide, List.forall_mem_cons.mpr ⟨by decide, ?_⟩⟩
    exact isPlain_of_mem_hexDigits _ _

/-- A text of bits is not read as a number. -/
theorem readFloat?_bits (cs : List Char) : readFloat? ('0' :: 'x' :: cs) = none := by
  simp [readFloat?, readUnsigned?, ofScientific?, ofNumeral?]

/-- Two numbers that are not missing have one text only if they are one number. -/
theorem floatChars_inj (hx : x.isNaN = false) (hy : y.isNaN = false) (h : floatChars x = floatChars y) :
    x = y := by
  rw [← Float.toBits_inj]
  rcases floatChars_cases hx with hreadx | hbitsx
  · rw [h] at hreadx
    rcases floatChars_cases hy with hready | hbitsy
    · exact Option.some.inj (hreadx.symm.trans hready)
    · rw [hbitsy, readFloat?_bits] at hreadx
      cases hreadx
  · rcases floatChars_cases hy with hready | hbitsy
    · rw [← h, hbitsx, readFloat?_bits] at hready
      cases hready
    · have hdigits := (List.cons.inj (List.cons.inj (hbitsx.symm.trans (h.trans hbitsy))).2).2
      have hwide : 2 ^ 64 ≤ 16 ^ 16 := by decide
      exact UInt64.toNat_inj.mp (Text.hexDigits_inj (Nat.lt_of_lt_of_le x.toBits.toNat_lt hwide)
        (Nat.lt_of_lt_of_le y.toBits.toNat_lt hwide) hdigits)

end Decimal
end LambdaReader
