import LambdaReader.Proofs.Reads.Extend
import LambdaReader.Proofs.Excerpt

/-!
# `Proofs.Separators` — what the option of trailing separators adds

A list of arguments, of parameters or of expressions in a block may be read with a separator before its
closing mark, if an option says so. The option adds that and nothing else: what is read without it is
read with it as the same, and what is read with it is read without it as soon as these separators are
gone (`Token.untrailed`).

Both are inductions on a reading. In the second one the tokens change, so each rule has to find its own
tokens again: a separator that a rule takes before an item stays, since no item starts with a closing
mark, and what a rule asks of the next token holds of the closing mark behind a separator as well.

## Main result
- `Source.parse_trailing`: a source with the option and without it.
-/

namespace LambdaReader

open Spot TokenSource

/-! ## With the option everything is read that is read without it -/

variable {o : ParseOptions}

theorem Sequence.permit {α : Type} {item : Spot → α → Spot → Prop} {stop separator : String}
    {first : Bool} {s s' : Spot} {xs : List α} (ho : o.trailingSeparators = false)
    (h : Sequence o item stop separator first s xs s') :
    Sequence { o with trailingSeparators := true } item stop separator first s xs s' := by
  induction h with
  | close hstop => exact .close hstop
  | trailing hpermitted => rw [ho] at hpermitted; cases hpermitted
  | first hx _ ih => exact .first hx ih
  | more hsep hx _ ih => exact .more hsep hx ih

/-- The option asks for nothing: it only adds a rule. -/
theorem Reads.permit {task : Task} {s s' : Spot} {ns : List Node} (ho : o.trailingSeparators = false)
    (h : Reads o task s ns s') : Reads { o with trailingSeparators := true } task s ns s' := by
  induction h with
  | done h => exact .done h
  | last _ h ih => exact .last ih h
  | next _ hsep _ ihe ih => exact .next ihe hsep ih
  | expression _ _ _ iha iho ihs => exact .expression iha iho ihs
  | operand _ _ iha iho => exact .operand iha iho
  | settled h => exact .settled h
  | fold ht _ _ ihr iho => exact .fold ht ihr iho
  | atom _ _ ihp ihs => exact .atom ihp ihs
  | bare h => exact .bare h
  | call hopen _ ih => exact .call hopen ih
  | group hopen _ hstop ih => exact .group hopen ih hstop
  | block hopen _ ih => exact .block hopen ih
  | ifThen hif _ hthen _ helse ihc ihp => exact .ifThen hif ihc hthen ihp helse
  | ifElse hif _ hthen _ helse _ ihc ihp ihq => exact .ifElse hif ihc hthen ihp helse ihq
  | lambda hword hopen hparams _ ihb => exact .lambda hword hopen (hparams.permit ho) ihb
  | truth h => exact .truth h
  | leaf h => exact .leaf h
  | seqClose h => exact .seqClose h
  | seqTrailing hpermitted => rw [ho] at hpermitted; cases hpermitted
  | seqFirst _ _ ihe ih => exact .seqFirst ihe ih
  | seqMore hsep _ _ ihe ih => exact .seqMore hsep ihe ih

/-! ## Tokens without trailing separators -/

/-- A closing mark and the separator of the lists that it closes. -/
def ListMarks (stop separator : String) : Prop :=
  stop = ")" ∧ separator = "," ∨ stop = "\x7d" ∧ separator = ";"

namespace Token

/-- The token is a separator, and the closing mark of its list comes next. -/
def trails (t : Token) (ts : List Token) : Bool :=
  t.is .punctuation "," && ts.head?.any (·.is .punctuation ")") ||
    t.is .punctuation ";" && ts.head?.any (·.is .punctuation "\x7d")

/-- The tokens but for each comma directly before a closing parenthesis and each semicolon directly before
a closing brace. -/
def untrailed : List Token → List Token
  | [] => []
  | t :: ts => if t.trails ts then untrailed ts else t :: untrailed ts

variable {t u : Token} {ts : List Token}

theorem trails_cons {stop separator : String} (h : ListMarks stop separator)
    (ht : t.is .punctuation separator = true) (hu : u.is .punctuation stop = true) :
    t.trails (u :: ts) = true := by
  obtain ⟨rfl, rfl⟩ | ⟨rfl, rfl⟩ := h
  · simp [trails, ht, hu]
  · simp [trails, ht, hu]

theorem trails_eq_false {kind : TokenKind} {x : String} (h : t.is kind x = true)
    (hcomma : x ≠ ",") (hsemicolon : x ≠ ";") : t.trails ts = false := by
  simp [trails, is_eq h, hcomma, hsemicolon]

theorem trails_of_kind (h : t.kind ≠ .punctuation) : t.trails ts = false := by
  simp [trails, is, h]

theorem kind_of_leaf {a : Node} (h : t.leaf? = some a) : t.kind ≠ .punctuation := by
  intro hkind
  rw [leaf?, hkind] at h
  cases h

/-- Before an item a separator does not trail. -/
theorem trails_of_opens (h : ∃ u, ts.head? = some u ∧ u.Opens) : t.trails ts = false := by
  obtain ⟨u, hu, hopens⟩ := h
  have hparen : u.is .punctuation ")" = false := hopens.not_is (by decide) (by decide)
  have hbrace : u.is .punctuation "\x7d" = false := hopens.not_is (by decide) (by decide)
  simp [trails, hu, hparen, hbrace]

theorem untrailed_cons (h : t.trails ts = false) : untrailed (t :: ts) = t :: untrailed ts := by
  rw [untrailed, if_neg (Bool.eq_false_iff.mp h)]

/-- A separator that trails goes, and the closing mark behind it stays. -/
theorem untrailed_trailing {stop separator : String} (h : ListMarks stop separator)
    (ht : t.is .punctuation separator = true) (hu : u.is .punctuation stop = true) :
    untrailed (t :: u :: ts) = u :: untrailed ts := by
  rw [untrailed, if_pos (trails_cons h ht hu), untrailed_cons]
  obtain ⟨rfl, _⟩ | ⟨rfl, _⟩ := h
  · exact trails_eq_false hu (by decide) (by decide)
  · exact trails_eq_false hu (by decide) (by decide)

theorem untrailed_sublist (ts : List Token) : (untrailed ts).Sublist ts := by
  induction ts with
  | nil => exact .slnil
  | cons t ts ih =>
    by_cases h : t.trails ts = true
    · rw [untrailed, if_pos h]
      exact ih.cons t
    · rw [untrailed_cons (Bool.eq_false_iff.mpr h)]
      exact ih.cons_cons t

/-- What comes next comes next still, or else a closing mark does. -/
theorem head?_untrailed (ts : List Token) :
    (untrailed ts).head? = ts.head? ∨ ∃ u stop separator, ListMarks stop separator ∧
      u.is .punctuation stop = true ∧ (untrailed ts).head? = some u := by
  cases ts with
  | nil => exact .inl rfl
  | cons t ts =>
    by_cases h : t.trails ts = true
    · have hnext : ∃ u us stop separator, ts = u :: us ∧ ListMarks stop separator ∧
          t.is .punctuation separator = true ∧ u.is .punctuation stop = true := by
        cases ts with
        | nil => simp [trails] at h
        | cons u us =>
          simp only [trails, List.head?_cons, Option.any_some, Bool.or_eq_true,
            Bool.and_eq_true] at h
          obtain ⟨ht, hu⟩ | ⟨ht, hu⟩ := h
          · exact ⟨u, us, _, _, rfl, .inl ⟨rfl, rfl⟩, ht, hu⟩
          · exact ⟨u, us, _, _, rfl, .inr ⟨rfl, rfl⟩, ht, hu⟩
      obtain ⟨u, us, stop, separator, rfl, hmarks, ht, hu⟩ := hnext
      refine .inr ⟨u, stop, separator, hmarks, hu, ?_⟩
      rw [untrailed_trailing hmarks ht hu]
      rfl
    · rw [untrailed_cons (Bool.eq_false_iff.mpr h)]
      exact .inl rfl

end Token

/-! ## Places without trailing separators -/

namespace Spot

/-- The place before the tokens without trailing separators. -/
def untrailed (s : Spot) : Spot := ⟨s.last, Token.untrailed s.rest⟩

variable {s s' : Spot} {kind : TokenKind} {x : String}

/-- A token that is taken is taken again, unless it trails. -/
theorem Passes.untrailed (h : s.Passes kind x s')
    (hkeep : ∀ t : Token, t.is kind x = true → t.trails s'.rest = false) :
    s.untrailed.Passes kind x s'.untrailed := by
  obtain ⟨ht⟩ := h
  have hrest := Token.untrailed_cons (hkeep _ ht)
  rw [Spot.untrailed, hrest]
  exact ⟨ht⟩

/-- A token that is no separator is taken again. -/
theorem Passes.untrailed_of_ne (h : s.Passes kind x s') (hcomma : x ≠ ",") (hsemicolon : x ≠ ";") :
    s.untrailed.Passes kind x s'.untrailed :=
  h.untrailed fun _ ht => Token.trails_eq_false ht hcomma hsemicolon

theorem Passes.untrailed_of_opens (h : s.Passes kind x s')
    (hopens : ∃ u, s'.rest.head? = some u ∧ u.Opens) : s.untrailed.Passes kind x s'.untrailed :=
  h.untrailed fun _ _ => Token.trails_of_opens hopens

theorem Passes.stop_untrailed {stop separator : String} (h : s.Passes .punctuation stop s')
    (hmarks : ListMarks stop separator) : s.untrailed.Passes .punctuation stop s'.untrailed := by
  obtain ⟨rfl, _⟩ | ⟨rfl, _⟩ := hmarks
  · exact h.untrailed_of_ne (by decide) (by decide)
  · exact h.untrailed_of_ne (by decide) (by decide)

/-- The closing mark behind a separator that trails is taken at once. -/
theorem Passes.untrailed_trailing {stop separator : String} {s₁ : Spot}
    (h : s.Passes .punctuation separator s₁) (h' : s₁.Passes .punctuation stop s')
    (hmarks : ListMarks stop separator) : s.untrailed.Passes .punctuation stop s'.untrailed := by
  obtain ⟨ht⟩ := h
  obtain ⟨hu⟩ := h'
  rw [Spot.untrailed, Token.untrailed_trailing hmarks ht hu]
  exact ⟨hu⟩

theorem Names.untrailed {x : String} (h : s.Names x s') : s.untrailed.Names x s'.untrailed := by
  obtain ⟨ht⟩ := h
  rw [Spot.untrailed, Token.untrailed_cons (Token.trails_of_kind (by rw [ht]; decide))]
  exact ⟨ht⟩

theorem isAt_untrailed (h : s.isAt kind x = true) (hcomma : x ≠ ",") (hsemicolon : x ≠ ";") :
    s.untrailed.isAt kind x = true := by
  obtain ⟨last, _ | ⟨t, rest⟩⟩ := s
  · cases h
  · have ht : t.is kind x = true := h
    rw [untrailed, Token.untrailed_cons (Token.trails_eq_false ht hcomma hsemicolon)]
    exact ht

/-- What does not come next does not come next now, unless it is a closing mark. -/
theorem not_isAt_untrailed (h : s.isAt kind x = false) (hparen : x ≠ ")") (hbrace : x ≠ "\x7d") :
    s.untrailed.isAt kind x = false := by
  rw [isAt, untrailed]
  obtain hhead | ⟨u, stop, separator, ⟨rfl, _⟩ | ⟨rfl, _⟩, hu, hhead⟩ := Token.head?_untrailed s.rest
  · rw [hhead]
    exact h
  · rw [hhead]
    simp [Token.is_eq hu, hparen.symm]
  · rw [hhead]
    simp [Token.is_eq hu, hbrace.symm]

theorem not_tighter_untrailed {bound : Int} (h : ¬s.Tighter bound) : ¬s.untrailed.Tighter bound := by
  rintro ⟨t, ht, htight⟩
  obtain hhead | ⟨u, stop, separator, _, hu, hhead⟩ := Token.head?_untrailed s.rest
  · exact h ⟨t, hhead.symm.trans ht, htight⟩
  · -- A closing mark is no operator.
    obtain rfl := Option.some.inj (ht.symm.trans hhead)
    cases (Token.kind_of_is hu).symm.trans htight.1

theorem Then.untrailed (h : s.Then s') : s.untrailed.Then s'.untrailed := by
  cases h with
  | block h => exact .block (isAt_untrailed h (by decide) (by decide))
  | word h => exact .word (h.untrailed_of_ne (by decide) (by decide))

/-- The next token is no separator, so a span from it is the same. -/
theorem Passes.spanTo_untrailed {s₁ : Spot} (h : s.Passes kind x s₁) (hcomma : x ≠ ",")
    (hsemicolon : x ≠ ";") (s' : Spot) : s.spanTo s' = s.untrailed.spanTo s'.untrailed := by
  cases h with
  | @intro last t rest ht =>
    have hrest : Token.untrailed (t :: rest) = t :: Token.untrailed rest :=
      Token.untrailed_cons (Token.trails_eq_false ht hcomma hsemicolon)
    simp only [Spot.spanTo, Spot.untrailed, hrest]
    rfl

end Spot

/-! ## Without trailing separators the option is not needed -/

theorem Sequence.untrailed {stop separator : String} {first : Bool} {s s' : Spot} {xs : List String}
    (hmarks : ListMarks stop separator)
    (h : Sequence { o with trailingSeparators := true } Spot.Names stop separator first s xs s') :
    Sequence { o with trailingSeparators := false } Spot.Names stop separator first s.untrailed xs
      s'.untrailed := by
  induction h with
  | close hstop => exact .close (hstop.stop_untrailed hmarks)
  | trailing _ hsep hstop => exact .close (hsep.untrailed_trailing hstop hmarks)
  | first hx _ ih => exact .first hx.untrailed ih
  | more hsep hx _ ih =>
    refine .more (hsep.untrailed_of_opens ?_) hx.untrailed ih
    obtain ⟨ht⟩ := hx
    exact ⟨_, rfl, by simp [Token.Opens, Token.leaf?, ht]⟩

/-- The marks of a sequence belong together. -/
def Task.Marked : Task → Prop
  | sequence _ stop separator _ => ListMarks stop separator
  | _ => True

/-- What is read with the option is read without it where the separators that trail are gone, as the same
nodes with the same spans. -/
theorem Reads.untrailed {task : Task} {s s' : Spot} {ns : List Node}
    (h : Reads { o with trailingSeparators := true } task s ns s') (htask : task.Marked) :
    Reads { o with trailingSeparators := false } task s.untrailed ns s'.untrailed := by
  have args : ListMarks ")" "," := .inl ⟨rfl, rfl⟩
  have body : ListMarks "\x7d" ";" := .inr ⟨rfl, rfl⟩
  induction h with
  | @done n s h =>
    refine .done ?_
    rw [Spot.untrailed, h]
    rfl
  | @last n s s₁ e _ h ih =>
    refine .last (ih trivial) ?_
    rw [Spot.untrailed, h]
    rfl
  | @next n s s₁ s₂ s₃ e es _ hsep hes ihe ih =>
    refine .next (ihe trivial) (hsep.untrailed fun t _ => ?_) (ih trivial)
    -- Behind the separator is the end, or else the next expression.
    cases hes with
    | done h => rw [h]; simp [Token.trails]
    | last he | next he => exact Token.trails_of_opens (he.opens trivial)
  | expression _ _ _ iha iho ihs => exact .expression (iha trivial) (iho trivial) (ihs trivial)
  | operand _ _ iha iho => exact .operand (iha trivial) (iho trivial)
  | settled h => exact .settled (not_tighter_untrailed h)
  | @fold n left right e bound l t rest s₁ s₂ htight _ _ ihr iho =>
    have hkind : t.kind ≠ .punctuation := by
      rw [htight.1]
      decide
    rw [Spot.untrailed, Token.untrailed_cons (Token.trails_of_kind hkind)]
    exact .fold htight (ihr trivial) (iho trivial)
  | atom _ _ ihp ihs => exact .atom (ihp trivial) (ihs trivial)
  | bare h => exact .bare (not_isAt_untrailed h (by decide) (by decide))
  | call hopen _ ih => exact .call (hopen.untrailed_of_ne (by decide) (by decide)) (ih args)
  | group hopen _ hstop ih =>
    exact .group (hopen.untrailed_of_ne (by decide) (by decide)) (ih trivial) (hstop.stop_untrailed args)
  | @block n s s₁ s₂ items hopen _ ih =>
    rw [hopen.spanTo_untrailed (by decide) (by decide) s₂]
    exact .block (hopen.untrailed_of_ne (by decide) (by decide)) (ih body)
  | @ifThen n s s₁ s₂ s₃ s₄ c p hif _ hthen _ hnot ihc ihp =>
    rw [hif.spanTo_untrailed (by decide) (by decide) s₄]
    exact .ifThen (hif.untrailed_of_ne (by decide) (by decide)) (ihc trivial) hthen.untrailed (ihp trivial)
      (not_isAt_untrailed hnot (by decide) (by decide))
  | @ifElse n s s₁ s₂ s₃ s₄ s₅ s₆ c p q hif _ hthen _ helse _ ihc ihp ihq =>
    rw [hif.spanTo_untrailed (by decide) (by decide) s₆]
    exact .ifElse (hif.untrailed_of_ne (by decide) (by decide)) (ihc trivial) hthen.untrailed (ihp trivial)
      (helse.untrailed_of_ne (by decide) (by decide)) (ihq trivial)
  | @lambda n s s₁ s₂ s₃ s₄ params b hword hopen hparams _ ihb =>
    rw [hword.spanTo_untrailed (by decide) (by decide) s₄]
    exact .lambda (hword.untrailed_of_ne (by decide) (by decide))
      (hopen.untrailed_of_ne (by decide) (by decide))
      (hparams.untrailed args) (ihb trivial)
  | @truth n s s₁ b h =>
    have hcomma : Node.boolWord b ≠ "," := by cases b <;> decide
    have hsemicolon : Node.boolWord b ≠ ";" := by cases b <;> decide
    rw [h.spanTo_untrailed hcomma hsemicolon s₁]
    exact .truth (h.untrailed_of_ne hcomma hsemicolon)
  | @leaf n l t rest a hleaf =>
    rw [Spot.untrailed, Token.untrailed_cons (Token.trails_of_kind (Token.kind_of_leaf hleaf))]
    exact .leaf hleaf
  | seqClose hstop => exact .seqClose (hstop.stop_untrailed htask)
  | seqTrailing _ hsep hstop => exact .seqClose (hsep.untrailed_trailing hstop htask)
  | seqFirst _ _ ihe ih => exact .seqFirst (ihe trivial) (ih htask)
  | seqMore hsep he _ ihe ih =>
    exact .seqMore (hsep.untrailed_of_opens (he.opens trivial)) (ihe trivial) (ih htask)

/-! ## Sources -/

/-- What a record of the tokens without trailing separators is read as. -/
theorem Replay.parse_untrailed {ts : List Token} {finish start : Location} {n : Node}
    (h : Replay.parse { o with trailingSeparators := true } ⟨ts, .done finish, start⟩ = .ok n)
    (finish' : Location) :
    Replay.parse { o with trailingSeparators := false } ⟨Token.untrailed ts, .done finish', start⟩ =
      .ok n := by
  have hdone : (drain (⟨ts, .done finish, start⟩ : Replay)).2 = .done finish := by
    rw [Replay.drain_done]
  have hdone' : (drain (⟨Token.untrailed ts, .done finish', start⟩ : Replay)).2 = .done finish' := by
    rw [Replay.drain_done]
  obtain ⟨body, s', hbody, rfl⟩ := (TokenSource.read_eq_ok_iff hdone n).mp h
  rw [Replay.drain_done] at hbody
  refine (TokenSource.read_eq_ok_iff hdone' _).mpr ⟨body, s'.untrailed, ?_, rfl⟩
  rw [Replay.drain_done]
  exact hbody.untrailed trivial

/-- The option of trailing separators only adds them. What a source is read as without the option it is
read as with it, and what it is read as with the option its tokens are read as without it when each comma
directly before a closing parenthesis and each semicolon directly before a closing brace is left out: the
record of these tokens, and every source that has them, of which there is one. -/
theorem Source.parse_trailing (s : Source) (o : ParseOptions) (n : Node) :
    (s.parse { o with trailingSeparators := false } = .ok n →
      s.parse { o with trailingSeparators := true } = .ok n) ∧
    (s.parse { o with trailingSeparators := true } = .ok n → ∃ ts, s.tokens = .ok ts ∧
      (∀ finish, Replay.parse { o with trailingSeparators := false }
        ⟨Token.untrailed ts, .done finish, .start s.file⟩ = .ok n) ∧
      (∃ (s' : Source) (ts' : List Token), s'.file = s.file ∧ s'.strictStrings = s.strictStrings ∧
        s'.tokens = .ok ts' ∧ ts'.map Token.spelling = (Token.untrailed ts).map Token.spelling) ∧
      ∀ (s' : Source) (ts' : List Token), s'.tokens = .ok ts' →
        ts'.map Token.spelling = (Token.untrailed ts).map Token.spelling →
        ∃ m, s'.parse { o with trailingSeparators := false } = .ok m ∧ (m == n) = true) := by
  constructor
  · intro h
    obtain ⟨l, hdone⟩ := s.drain_of_parse h
    obtain ⟨body, s', hbody, rfl⟩ := (TokenSource.read_eq_ok_iff hdone n).mp h
    have hpermitted := Reads.permit (o := { o with trailingSeparators := false }) rfl hbody
    exact (TokenSource.read_eq_ok_iff hdone _).mpr ⟨body, s', hpermitted, rfl⟩
  · intro h
    obtain ⟨l, hdone⟩ := s.drain_of_parse h
    have htokens : s.tokens = .ok (drain s.scanner).1 := by rw [Source.tokens_eq, hdone]
    obtain ⟨hlexemes, finish, hparse⟩ := Source.parse_eq_replay htokens { o with trailingSeparators := true }
    have hrecord := Replay.parse_untrailed (hparse.symm.trans h)
    have hsub := Token.untrailed_sublist (drain s.scanner).1
    refine ⟨_, htokens, hrecord, Source.exists_of_sublist htokens hsub, fun s' ts' hts' hsame => ?_⟩
    have hleft : ∀ t ∈ Token.untrailed (drain s.scanner).1, t.IsLexeme := fun t ht =>
      hlexemes t (hsub.subset ht)
    obtain ⟨m, hm, hbare⟩ := Source.parse_of_spelling hts' hleft hsame (hrecord finish)
    exact ⟨m, hm, (Source.isProgram_of_parse hm).beq_of_bare hbare⟩

/-- A call, its parameters and a block with trailing separators, and the same text without them. -/
theorem Source.parse_trailing_block :
    let s : Source := ⟨"\x7blambda(x,) f(x, (1),); (y);\x7d", "x", false⟩
    let s' : Source := ⟨"\x7blambda(x) f(x, (1)); (y)\x7d", "y", false⟩
    ∃ n m, s.parse { trailingSeparators := true } = .ok n ∧ s'.parse {} = .ok m ∧ (m == n) = true := by
  intro s s'
  have hok : (s.parse { trailingSeparators := true }).isOk = true := by decide +kernel
  have hsame : ∀ ts, s.tokens = .ok ts → ∃ ts', s'.tokens = .ok ts' ∧
      ts'.map Token.spelling = (Token.untrailed ts).map Token.spelling := by
    have hmap : (s'.tokens.toOption.map (·.map Token.spelling)) =
        s.tokens.toOption.map fun ts => (Token.untrailed ts).map Token.spelling := by
      decide +kernel
    intro ts hts
    rw [hts] at hmap
    cases hts' : s'.tokens with
    | error e => rw [hts'] at hmap; cases hmap
    | ok ts' =>
      rw [hts'] at hmap
      exact ⟨ts', rfl, Option.some.inj hmap⟩
  cases hn : s.parse { trailingSeparators := true } with
  | error e => rw [hn] at hok; cases hok
  | ok n =>
    obtain ⟨ts, hts, _, _, hall⟩ := (Source.parse_trailing s {} n).2 hn
    obtain ⟨ts', hts', hspelling⟩ := hsame ts hts
    obtain ⟨m, hm, heq⟩ := hall s' ts' hts' hspelling
    exact ⟨n, m, rfl, hm, heq⟩

end LambdaReader
