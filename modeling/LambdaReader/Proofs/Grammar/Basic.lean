import LambdaReader.Proofs.Reads.Basic

/-!
# `Proofs.Grammar.Basic` — the grammar of programs

The context-free grammar of the language, as a table of productions, and what it derives. The grammar
is ambiguous: arguments may belong to an atom or to one of the expressions that end with it, operators
to any expression that ends before them, and `else` to any conditional that has none.

Derivations are leftmost: `Derives` matches a list of symbols against a list of tokens from the left,
and what is still to be matched stands on the rest of the list. Symbols that may be left out can be
inserted anywhere (`Derives.insert`).
-/

namespace LambdaReader
namespace Grammar

/-! ## Symbols -/

/-- What a token has to be. -/
inductive Mark where
  | word (kind : TokenKind) (text : String)
  | ofKind (kind : TokenKind)
  /-- An operator with a precedence. -/
  | binary

/-- The token is what the mark asks for. -/
def Mark.fits : Mark → Token → Bool
  | word kind text, t => t.kind = kind && t.hasText text
  | ofKind kind, t => t.kind = kind
  | binary, t => t.kind = .operator && (Precedence.table.lookup t.text).isSome

inductive Category where
  | program
  | expression
  | atom
  | primary
  | arguments
  | block
  | conditional
  /-- The positive branch of a conditional. -/
  | consequent
  | function

inductive Symbol where
  | mark (mark : Mark)
  | category (category : Category)
  /-- At most once. -/
  | optional (body : List Symbol)
  /-- Any number of times. -/
  | repeated (body : List Symbol)
  /-- A category whose first token is what a mark asks for. -/
  | headed (mark : Mark) (category : Category)

namespace Symbol

/-- A mark of punctuation. -/
def punctuation (text : String) : Symbol := mark (.word .punctuation text)

/-- A keyword. -/
def keyword (text : String) : Symbol := mark (.word .keyword text)

/-- A separator before a closing mark, where the options allow it. -/
def trailing (allowed : Bool) (separator : String) : List Symbol :=
  if allowed then [optional [punctuation separator]] else []

/-- The operations after an atom. -/
def operations : Symbol := repeated [mark .binary, category .atom]

/-- The arguments of a call, if there are any. -/
def suffix : Symbol := optional [category .arguments]

/-- The negative branch of a conditional, if there is one. -/
def alternative : Symbol := optional [keyword "else", category .expression]

/-- Items with separators between them, up to the closing mark. -/
def enclosed (item : Symbol) (allowed : Bool) (separator stop : String) : List Symbol :=
  item :: repeated [punctuation separator, item] :: (trailing allowed separator ++ [punctuation stop])

end Symbol

open Grammar.Symbol

/-- The productions of each category. -/
def productions (allowed : Bool) : Category → List (List Symbol)
  | .program =>
    [[], [category .expression, repeated [punctuation ";", category .expression],
      optional [punctuation ";"]]]
  | .expression => [[category .atom, operations, suffix]]
  | .atom => [[category .primary, suffix]]
  | .primary =>
    [[punctuation "(", category .expression, punctuation ")"], [category .block],
      [category .conditional], [category .function], [keyword "true"], [keyword "false"],
      [mark (.ofKind .identifier)], [mark (.ofKind .number)], [mark (.ofKind .string)],
      [mark (.ofKind .operator)]]
  | .arguments =>
    [[punctuation "(", punctuation ")"],
      punctuation "(" :: enclosed (category .expression) allowed "," ")"]
  | .block =>
    [[punctuation "\x7b", punctuation "\x7d"],
      punctuation "\x7b" :: enclosed (category .expression) allowed ";" "\x7d"]
  | .conditional => [[keyword "if", category .expression, category .consequent, alternative]]
  | .consequent =>
    [[keyword "then", category .expression],
      [headed (.word .punctuation "\x7b") .expression]]
  | .function =>
    [[keyword "lambda", punctuation "(", punctuation ")", category .expression],
      keyword "lambda" :: punctuation "(" ::
        (enclosed (mark (.ofKind .identifier)) allowed "," ")" ++ [category .expression])]

/-! ## Derivations -/

/-- The symbols derive the tokens. -/
inductive Derives (allowed : Bool) : List Symbol → List Token → Prop where
  | nil : Derives allowed [] []
  | mark {m : Mark} {t : Token} {k : List Symbol} {ts : List Token} :
    m.fits t = true → Derives allowed k ts → Derives allowed (.mark m :: k) (t :: ts)
  | category {c : Category} {body k : List Symbol} {ts : List Token} :
    body ∈ productions allowed c → Derives allowed (body ++ k) ts →
    Derives allowed (.category c :: k) ts
  | absent {body k : List Symbol} {ts : List Token} :
    Derives allowed k ts → Derives allowed (.optional body :: k) ts
  | present {body k : List Symbol} {ts : List Token} :
    Derives allowed (body ++ k) ts → Derives allowed (.optional body :: k) ts
  | ended {body k : List Symbol} {ts : List Token} :
    Derives allowed k ts → Derives allowed (.repeated body :: k) ts
  | again {body k : List Symbol} {ts : List Token} :
    Derives allowed (body ++ .repeated body :: k) ts → Derives allowed (.repeated body :: k) ts
  | headed {m : Mark} {c : Category} {t : Token} {k : List Symbol} {ts : List Token} :
    m.fits t = true → Derives allowed (.category c :: k) (t :: ts) →
    Derives allowed (.headed m c :: k) (t :: ts)

namespace Derives

variable {allowed : Bool} {k : List Symbol} {ts : List Token}

theorem eq_nil (h : Derives allowed [] ts) : ts = [] := by
  cases h with
  | nil => rfl

theorem mark_iff {m : Mark} :
    Derives allowed (.mark m :: k) ts ↔
      ∃ t us, ts = t :: us ∧ m.fits t = true ∧ Derives allowed k us := by
  constructor
  · intro h
    cases h with
    | mark hm h => exact ⟨_, _, rfl, hm, h⟩
  · rintro ⟨t, us, rfl, hm, h⟩
    exact .mark hm h

theorem category_iff {c : Category} :
    Derives allowed (.category c :: k) ts ↔
      ∃ body ∈ productions allowed c, Derives allowed (body ++ k) ts := by
  constructor
  · intro h
    cases h with
    | category hbody h => exact ⟨_, hbody, h⟩
  · rintro ⟨body, hbody, h⟩
    exact .category hbody h

theorem produce {c : Category} (body : List Symbol) (hbody : body ∈ productions allowed c)
    (h : Derives allowed (body ++ k) ts) : Derives allowed (.category c :: k) ts :=
  .category hbody h

theorem optional_iff {body : List Symbol} :
    Derives allowed (.optional body :: k) ts ↔
      Derives allowed k ts ∨ Derives allowed (body ++ k) ts := by
  constructor
  · intro h
    cases h with
    | absent h => exact .inl h
    | present h => exact .inr h
  · rintro (h | h)
    · exact .absent h
    · exact .present h

theorem repeated_iff {body : List Symbol} :
    Derives allowed (.repeated body :: k) ts ↔
      Derives allowed k ts ∨ Derives allowed (body ++ .repeated body :: k) ts := by
  constructor
  · intro h
    cases h with
    | ended h => exact .inl h
    | again h => exact .inr h
  · rintro (h | h)
    · exact .ended h
    · exact .again h

end Derives

/-- The symbol may be left out. -/
inductive Skippable : Symbol → Prop where
  | optional (body : List Symbol) : Skippable (.optional body)
  | repeated (body : List Symbol) : Skippable (.repeated body)

theorem Derives.skip {allowed : Bool} {x : Symbol} (hx : Skippable x) {k : List Symbol}
    {ts : List Token} (h : Derives allowed k ts) : Derives allowed (x :: k) ts := by
  cases hx with
  | optional => exact .absent h
  | repeated => exact .ended h

/-- A symbol that may be left out may be inserted anywhere. -/
theorem Derives.insert {allowed : Bool} {x : Symbol} (hx : Skippable x) {ts : List Token}
    (j k : List Symbol) (h : Derives allowed (j ++ k) ts) : Derives allowed (j ++ x :: k) ts := by
  generalize hjk : j ++ k = jk at h
  -- The derivation takes symbols from `j` until it comes to the place of `x`.
  induction h generalizing j with
  | nil =>
    obtain ⟨rfl, rfl⟩ := List.append_eq_nil_iff.mp hjk
    exact .skip hx .nil
  | mark hm h ih =>
    rcases List.append_eq_cons_iff.mp hjk with ⟨rfl, rfl⟩ | ⟨j, rfl, rfl⟩
    · exact .skip hx (.mark hm h)
    · exact .mark hm (ih j rfl)
  | @category c body _ _ hbody h ih =>
    rcases List.append_eq_cons_iff.mp hjk with ⟨rfl, rfl⟩ | ⟨j, rfl, rfl⟩
    · exact .skip hx (.category hbody h)
    · have := ih (body ++ j) (List.append_assoc ..)
      rw [List.append_assoc] at this
      exact .category hbody this
  | absent h ih =>
    rcases List.append_eq_cons_iff.mp hjk with ⟨rfl, rfl⟩ | ⟨j, rfl, rfl⟩
    · exact .skip hx (.absent h)
    · exact .absent (ih j rfl)
  | @present body _ _ h ih =>
    rcases List.append_eq_cons_iff.mp hjk with ⟨rfl, rfl⟩ | ⟨j, rfl, rfl⟩
    · exact .skip hx (.present h)
    · have := ih (body ++ j) (List.append_assoc ..)
      rw [List.append_assoc] at this
      exact .present this
  | ended h ih =>
    rcases List.append_eq_cons_iff.mp hjk with ⟨rfl, rfl⟩ | ⟨j, rfl, rfl⟩
    · exact .skip hx (.ended h)
    · exact .ended (ih j rfl)
  | @again body _ _ h ih =>
    rcases List.append_eq_cons_iff.mp hjk with ⟨rfl, rfl⟩ | ⟨j, rfl, rfl⟩
    · exact .skip hx (.again h)
    · have := ih (body ++ .repeated body :: j) (List.append_assoc ..)
      rw [List.append_assoc] at this
      exact .again this
  | headed hm h ih =>
    rcases List.append_eq_cons_iff.mp hjk with ⟨rfl, rfl⟩ | ⟨j, rfl, rfl⟩
    · exact .skip hx (.headed hm h)
    · exact .headed hm (ih (_ :: j) rfl)

/-! ## Binary operators -/

/-- The operators that bind tighter than nothing are those of the table. -/
theorem zero_lt_strength_iff (symbol : String) :
    0 < (Precedence.ofSymbol symbol).strength ↔ (Precedence.table.lookup symbol).isSome = true := by
  unfold Precedence.ofSymbol
  cases h : Precedence.table.lookup symbol with
  | none => decide
  | some p =>
    have hall : ∀ e ∈ Precedence.table, 0 < e.2.strength := by decide
    obtain ⟨l, r, htable, _⟩ := List.lookup_eq_some_iff.mp h
    have hp : 0 < p.strength := hall (symbol, p) (by rw [htable]; simp)
    rw [Option.getD_some, Option.isSome_some]
    exact ⟨fun _ => rfl, fun _ => hp⟩

theorem tighter_zero_iff {t : Token} : t.Tighter 0 ↔ Mark.binary.fits t = true := by
  rw [Token.Tighter, Mark.fits, zero_lt_strength_iff, Bool.and_eq_true_iff, decide_eq_true_iff]

theorem tighter_zero_of_tighter {t : Token} {bound : Int} (hbound : 0 ≤ bound) (ht : t.Tighter bound) :
    t.Tighter 0 :=
  ⟨ht.1, Int.lt_of_le_of_lt hbound ht.2⟩

/-- What binds tighter than a bound that is not negative leaves such a bound to its right operand. -/
theorem rightBound_nonneg {o : ParseOptions} {t : Token} {bound : Int} (hbound : 0 ≤ bound)
    (ht : t.Tighter bound) : 0 ≤ Parser.rightBound o t.text := by
  have hs := ht.2
  unfold Parser.rightBound
  split
  · omega
  · omega

end Grammar
end LambdaReader
