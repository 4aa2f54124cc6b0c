import LambdaReader.Proofs.Height
import LambdaReader.Proofs.ReadBack

/-!
# `Proofs.Nesting` — how many operators can be on top of each other

The level of a folded operator is left again once its chain is read. Behind a mark that closes a group
the next chain starts with levels of its own, so more operators than levels can be on one path. With `d`
levels there are never more than the pairs among `d - 1`.

That many there can be. A terrace is a group around a smaller terrace with as many operators behind it
as its levels allow for.

## Main result
- `Source.folds_le`: the operators on one path of a program, bounded and attained.
-/

namespace LambdaReader

open TokenSource Piece Node

/-! ## Terraces -/

namespace Piece

/-- Names with operators before them. -/
def addends : Nat → List Piece
  | 0 => []
  | k + 1 => .blank :: .word (.symbol "+") :: .blank :: .word (.name "a") :: addends k

/-- One group in another, and behind each as many operators as there are groups in it. -/
def terrace : Nat → List Piece
  | 0 => [.word (.name "a")]
  | n + 1 => inParens (terrace n) ++ addends n

example (numerals : Numerals) :
    String.ofList (spelling numerals (terrace 4)) = "((((a)) + a) + a + a) + a + a + a" := by
  rfl

variable {numerals : Numerals} {rest : List Piece}

theorem isName_a : IsName "a" := by
  constructor <;> decide

/-- Operators with names are scanned before a blank, a mark or the end, and start like that too. -/
theorem Scanned.addends (hloose : Loose (spelling numerals rest)) (h : Scanned numerals rest) (k : Nat) :
    Loose (spelling numerals (addends k ++ rest)) ∧ Scanned numerals (Piece.addends k ++ rest) := by
  induction k with
  | zero => exact ⟨hloose, h⟩
  | succ k ih =>
    obtain ⟨hloose', h'⟩ := ih
    have hname : Scanned numerals (.word (.name "a") :: (Piece.addends k ++ rest)) :=
      .name isName_a hloose' h'
    have hsymbol : Scanned numerals (.word (.symbol "+") :: .blank :: .word (.name "a") ::
        (Piece.addends k ++ rest)) :=
      .symbol (by decide) (loose_blank _) (.blank hname)
    exact ⟨loose_blank _, .blank hsymbol⟩

theorem legible_terrace (numerals : Numerals) (n : Nat) : Legible numerals (terrace n) := by
  induction n with
  | zero =>
    intro rest hloose hrest
    exact .name isName_a hloose hrest
  | succ n ih =>
    intro rest hloose hrest
    rw [terrace, List.append_assoc]
    exact ih.inParens (Scanned.addends hloose hrest n).2

@[simp] theorem words_addends_succ (k : Nat) :
    words (addends (k + 1)) = .symbol "+" :: .name "a" :: words (addends k) := rfl

end Piece

/-! ## Reading a terrace -/

variable {o : ParseOptions} {s s' : Spot}

/-- Every fold adds an operator to the path through its left operand. -/
theorem Node.reach_lt_joined (symbol : String) (left right : Node) :
    left.reach foldWeight + 1 ≤ (joined symbol left right).reach foldWeight := by
  have hmax := Nat.le_max_left (left.reach foldWeight) (right.reach foldWeight)
  unfold joined
  split
  · rw [reach, foldWeight, isFold, Bool.toNat_true]
    omega
  · rw [reach, foldWeight, isFold, Bool.toNat_true]
    omega

/-- Before more operators and before what goes on with nothing, a right operand is complete. -/
theorem Spot.Spells.addends_stop {k : Nat} (h : s.Spells (words (addends k)) s') (hs : s'.Rests) :
    s.isAt .punctuation "(" = false ∧ ¬s.Tighter (Precedence.ofSymbol "+").strength := by
  cases k with
  | zero =>
    cases h with
    | nil => exact ⟨hs.not_call, hs.not_tighter _⟩
  | succ k =>
    rw [words_addends_succ] at h
    refine ⟨h.isAt _ _, ?_⟩
    obtain ⟨l, t, rest, rfl, ht, _⟩ := h.token
    rintro ⟨u, hu, _, hlt⟩
    obtain rfl := Option.some.inj hu
    rw [(Token.of_word ht).2] at hlt
    exact Int.lt_irrefl _ hlt

/-- A name is an atom before anything but a call. -/
theorem Spot.Spells.name {x : String} {ws : List Word} (h : s.Spells (.name x :: ws) s') :
    ∃ (m : Spot) (span : Option Span), m.Spells ws s' ∧
      (m.isAt .punctuation "(" = false → ∀ n, Reads o (.atom n) s [.reference x span] m) := by
  obtain ⟨l, t, rest, rfl, ht, hrest⟩ := h.token
  obtain ⟨hkind, rfl⟩ := Token.of_word ht
  have hleaf : t.leaf? = some (.reference t.text (some ⟨t.location, t.location⟩)) := by
    rw [Token.leaf?, hkind]
  exact ⟨_, _, hrest, fun hcall n => .atom (.leaf hleaf) (.bare hcall)⟩

/-- With one level more than operators all of them are folded. -/
theorem Spot.Spells.reads_addends {k : Nat} (left : Node) (h : s.Spells (words (addends k)) s')
    (hs : s'.Rests) : ∃ e, Reads o (.operators (k + 1) left Precedence.nothing.strength) s [e] s' ∧
      left.reach foldWeight + k ≤ e.reach foldWeight := by
  induction k generalizing s left with
  | zero =>
    cases h with
    | nil => exact ⟨left, .settled (hs.not_tighter _), Nat.le_refl _⟩
  | succ k ih =>
    rw [words_addends_succ] at h
    obtain ⟨l, t, rest, rfl, ht, hrest⟩ := h.token
    obtain ⟨hkind, htext⟩ := Token.of_word ht
    obtain ⟨m, span, hm, hatom⟩ := hrest.name (o := o)
    obtain ⟨hcall, htighter⟩ := hm.addends_stop hs
    -- The right operand ends before the next operator, which binds no tighter than this one.
    have hbound : Parser.rightBound o t.text = (Precedence.ofSymbol "+").strength := by
      have hassign : "+" ≠ assignSymbol := by decide
      rw [htext, Parser.rightBound, if_neg fun h => hassign h.1]
    have hright : Reads o (.operand (k + 1) (Parser.rightBound o t.text)) ⟨some t, rest⟩
        [.reference "a" span] m := by
      rw [hbound]
      exact .operand (hatom hcall k) (.settled htighter)
    obtain ⟨e, he, hreach⟩ := ih (joined t.text left (.reference "a" span)) hm
    have hstep := Node.reach_lt_joined t.text left (.reference "a" span)
    have htight : t.Tighter Precedence.nothing.strength := by
      refine ⟨hkind, ?_⟩
      rw [htext]
      decide
    exact ⟨e, .fold htight hright he, by omega⟩

/-- A terrace of `n` groups is read with `n + 1` levels, and has as many operators on one path as there
are pairs among its groups. -/
theorem Spot.Spells.reads_terrace {n : Nat} (h : s.Spells (words (terrace n)) s') (hs : s'.Rests) :
    ∃ e, Reads o (.expression (n + 1)) s [e] s' ∧ n.choose 2 ≤ e.reach foldWeight := by
  induction n generalizing s s' with
  | zero =>
    obtain ⟨m, span, hm, hatom⟩ := Spot.Spells.name (o := o) h
    cases hm with
    | nil =>
      exact ⟨_, .expression (hatom hs.not_call 0) (.settled (hs.not_tighter _)) (.bare hs.not_call),
        Nat.zero_le _⟩
  | succ n ih =>
    rw [terrace, words_append, words_inParens, List.cons_append, List.append_assoc] at h
    obtain ⟨s₁, hopen, h⟩ := h.passes
    obtain ⟨s₂, hinner, h⟩ := h.split
    -- The inner terrace ends at the mark that closes the group.
    obtain ⟨e, he, hreach⟩ := ih hinner (h.rests (by decide) (by decide))
    obtain ⟨s₃, hclose, h⟩ := h.passes
    obtain ⟨hcall, _⟩ := h.addends_stop hs
    have hatom : Reads o (.atom (n + 1)) s [e] s₃ := .atom (.group hopen he hclose) (.bare hcall)
    obtain ⟨whole, hwhole, hfolds⟩ := h.reads_addends (o := o) e hs
    refine ⟨whole, .expression hatom hwhole (.bare hs.not_call), ?_⟩
    rw [choose_two_succ]
    omega

/-- With `n + 1` levels some program is read with as many operators on one path as there are pairs
among `n`. -/
theorem Source.exists_folds {n : Nat} (ho : o.maxDepth = n + 1) (file : String) (strict : Bool) :
    ∃ text e path, Source.parse o ⟨text, file, strict⟩ = .ok e ∧ e.Path path ∧
      n.choose 2 ≤ path.countP isFold := by
  obtain ⟨numerals⟩ := (inferInstance : Nonempty Numerals)
  have hscans := legible_terrace numerals n [] nofun .nil
  rw [List.append_nil] at hscans
  let source : Source := ⟨String.ofList (spelling numerals (terrace n)), file, strict⟩
  obtain ⟨hwords, l, hdone⟩ := Scanner.drain_of_scans hscans source.scanner String.toList_ofList
  obtain ⟨s', hspells, hend⟩ := Spot.Spells.all none (drain source.scanner).1
  rw [hwords] at hspells
  obtain ⟨e, he, hreach⟩ := hspells.reads_terrace (o := o) (Spot.rests_of_rest_eq_nil hend)
  have hlevels : n + 1 = o.maxDepth.toNat := by omega
  rw [hlevels] at he
  have hparse := (TokenSource.read_eq_ok_iff hdone _).mpr ⟨[e], s', .last he hend, rfl⟩
  -- The deepest path goes through that expression, the only one of the program.
  let whole : Node := .program [e] (some (s'.spanFrom (location source.scanner)))
  have hroot : e.reach foldWeight ≤ whole.reach foldWeight := by
    rw [reach_eq _ whole]
    exact Nat.le_add_left_of_le (le_reachAll List.mem_cons_self)
  obtain ⟨path, hpath, hsum⟩ := Node.exists_path foldWeight whole
  rw [sum_foldWeight] at hsum
  exact ⟨_, whole, path, hparse, hpath, by omega⟩

/-! ## The bound -/

/-- No more operators are on one path of a program than there are pairs among the levels but one. -/
theorem Source.countP_isFold_le {s : Source} {e : Node} {path : List Node} (h : s.parse o = .ok e)
    (hpath : e.Path path) : path.countP isFold ≤ (o.maxDepth.toNat - 1).choose 2 := by
  have hreach := Source.reach_le weighs_foldWeight h
  have hsum := hpath.sum_le (w := foldWeight)
  rw [sum_foldWeight] at hsum
  unfold Node.ceiling at hreach
  omega

/-- With `d` levels at most `(d - 1) * (d - 2) / 2` operators are on one path of a program, and that many
are on a path of some program. -/
theorem Source.folds_le (o : ParseOptions) (hd : 1 ≤ o.maxDepth) :
    (∀ (s : Source) (e : Node) (path : List Node), s.parse o = .ok e → e.Path path →
      (path.countP isFold : Int) ≤ (o.maxDepth - 1) * (o.maxDepth - 2) / 2) ∧
    ∀ (file : String) (strict : Bool), ∃ (text : String) (e : Node) (path : List Node),
      Source.parse o ⟨text, file, strict⟩ = .ok e ∧ e.Path path ∧
      (path.countP isFold : Int) = (o.maxDepth - 1) * (o.maxDepth - 2) / 2 := by
  rw [← choose_two_toNat hd]
  have hle : ∀ (s : Source) (e : Node) (path : List Node), s.parse o = .ok e → e.Path path →
      (path.countP isFold : Int) ≤ ((o.maxDepth.toNat - 1).choose 2 : Nat) := by
    intro s e path h hpath
    exact Int.ofNat_le.mpr (Source.countP_isFold_le h hpath)
  refine ⟨hle, ?_⟩
  intro file strict
  obtain ⟨n, hn⟩ : ∃ n : Nat, o.maxDepth = n + 1 := ⟨(o.maxDepth - 1).toNat, by omega⟩
  obtain ⟨text, e, path, hparse, hpath, hge⟩ := Source.exists_folds hn file strict
  have hlevels : o.maxDepth.toNat - 1 = n := by omega
  refine ⟨text, e, path, hparse, hpath, Int.le_antisymm (hle _ e path hparse hpath) ?_⟩
  rw [hlevels]
  exact Int.ofNat_le.mpr hge

/-- A chain behind a group behind a group, each as long as five levels allow for. -/
theorem Source.exists_six_folds :
    ∃ (e : Node) (path : List Node),
      Source.parse { maxDepth := 5 } ⟨"((a+a)+a+a)+a+a+a", "<string>", false⟩ = .ok e ∧
      e.Path path ∧ path.countP isFold = 6 := by
  have hreach : (Source.parse { maxDepth := 5 } ⟨"((a+a)+a+a)+a+a+a", "<string>", false⟩).toOption.map
      (reach foldWeight) = some 6 := by
    decide +kernel
  cases hparse : Source.parse { maxDepth := 5 } ⟨"((a+a)+a+a)+a+a+a", "<string>", false⟩ with
  | error f => rw [hparse] at hreach; cases hreach
  | ok e =>
    rw [hparse] at hreach
    obtain ⟨path, hpath, hsum⟩ := Node.exists_path foldWeight e
    rw [sum_foldWeight, Option.some.inj hreach] at hsum
    exact ⟨e, path, rfl, hpath, hsum⟩

/-- The bound for five levels is met by six operators on one path. -/
theorem Source.folds_le_five :
    ∃ (e : Node) (path : List Node),
      Source.parse { maxDepth := 5 } ⟨"((a+a)+a+a)+a+a+a", "<string>", false⟩ = .ok e ∧
      e.Path path ∧ path.countP isFold = 6 ∧ (path.countP isFold : Int) ≤ (5 - 1) * (5 - 2) / 2 := by
  obtain ⟨e, path, hparse, hpath, hsix⟩ := Source.exists_six_folds
  have hle := (Source.folds_le { maxDepth := 5 } (by decide)).1 _ e path hparse hpath
  exact ⟨e, path, hparse, hpath, hsix, hle⟩

/-- There can be more operators on one path than levels. -/
theorem Source.folds_above_levels :
    ¬∀ (s : Source) (o : ParseOptions) (e : Node) (path : List Node), 1 ≤ o.maxDepth →
      s.parse o = .ok e → e.Path path → (path.countP isFold : Int) ≤ o.maxDepth := by
  intro hbound
  obtain ⟨e, path, hparse, hpath, hsix⟩ := Source.exists_six_folds
  have hle : (path.countP isFold : Int) ≤ 5 := hbound _ _ e path (by decide) hparse hpath
  omega

end LambdaReader
