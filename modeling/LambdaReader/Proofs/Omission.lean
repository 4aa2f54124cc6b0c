import LambdaReader.Proofs.Excerpt
import LambdaReader.Proofs.Reads.Extend

/-!
# `Proofs.Omission` — the keyword before a block may be left out

Between a condition and a block the keyword of the positive branch says nothing: wherever it stands before
an opening brace, it can be left out. Nothing but a conditional takes this keyword, so it stands behind a
condition, and the condition stops at the brace as it does at the keyword: the brace opens no call, is no
operator and no `else`.

`Token.Thinned` leaves out some of these keywords. What leads from one place to another `Persists` if it
leads on where they are left out; every rule hands that on (`Reads.persists`), and only the rules of a
conditional find the keyword gone.

## Main result
- `Replay.parse_omitting`: tokens that are read as a program, and the tokens without such a keyword.
-/

namespace LambdaReader

open Spot TokenSource

/-! ## Tokens without some of the keywords -/

/-- Some of the keywords `then` directly before an opening brace are left out. -/
inductive Token.Thinned : List Token → List Token → Prop where
  | nil : Thinned [] []
  | keep {t : Token} {ts us : List Token} : Thinned ts us → Thinned (t :: ts) (t :: us)
  | omit {word brace : Token} {ts us : List Token} : word.is .keyword "then" = true →
      brace.is .punctuation "\x7b" = true → Thinned ts us →
      Thinned (word :: brace :: ts) (brace :: us)

namespace Token.Thinned

variable {t word brace : Token} {ts us : List Token}

theorem refl (ts : List Token) : Thinned ts ts := by
  induction ts with
  | nil => exact .nil
  | cons t ts ih => exact .keep ih

/-- One of them is left out. -/
theorem eraseIdx {i : Nat} (hword : ts[i]? = some word) (hbrace : ts[i + 1]? = some brace)
    (hw : word.is .keyword "then" = true) (hb : brace.is .punctuation "\x7b" = true) :
    Thinned ts (ts.eraseIdx i) := by
  induction ts generalizing i with
  | nil => cases hword
  | cons t ts ih =>
    cases i with
    | succ i => exact .keep (ih hword hbrace)
    | zero =>
      cases ts with
      | nil => cases hbrace
      | cons u ts =>
        obtain rfl := Option.some.inj hword
        obtain rfl := Option.some.inj hbrace
        exact .omit hw hb (refl ts)

/-- A token that is not this keyword stays. -/
theorem cons_of_not_then (h : Thinned (t :: ts) us) (ht : t.is .keyword "then" = false) :
    ∃ us', us = t :: us' ∧ Thinned ts us' := by
  cases h with
  | keep h => exact ⟨_, rfl, h⟩
  | «omit» hword => rw [ht] at hword; cases hword

theorem nil_eq (h : Thinned [] us) : us = [] := by
  cases h
  rfl

/-- What comes next comes next still, or else the opening brace behind the keyword does. -/
theorem head?_eq (h : Thinned ts us) : us.head? = ts.head? ∨
    ∃ brace, us.head? = some brace ∧ brace.is .punctuation "\x7b" = true := by
  cases h with
  | nil => exact .inl rfl
  | keep => exact .inl rfl
  | «omit» _ hbrace => exact .inr ⟨_, rfl, hbrace⟩

end Token.Thinned

theorem Token.not_then_of_is {t : Token} {kind : TokenKind} {x : String} (h : t.is kind x = true)
    (hne : kind ≠ .keyword ∨ x ≠ "then") : t.is .keyword "then" = false := by
  rw [Token.is_eq h]
  rcases hne with hne | hne <;> simp [hne]

theorem Token.not_then_of_kind {t : Token} (h : t.kind ≠ .keyword) : t.is .keyword "then" = false := by
  simp [Token.is, h]

/-! ## Places -/

namespace Spot

/-- The same place with some of these keywords left out of what comes. -/
structure Thinned (s r : Spot) : Prop where
  last : r.last = s.last
  rest : Token.Thinned s.rest r.rest

variable {s s' r : Spot} {kind : TokenKind} {x : String}

/-- The relation leads from one place to the other, and from wherever some of these keywords are left out
of what comes as well. -/
def Persists (R : Spot → Spot → Prop) (s s' : Spot) : Prop :=
  ∀ ⦃r : Spot⦄, s.Thinned r → ∃ r', s'.Thinned r' ∧ R r r'

/-- A token that is not this keyword is taken again. -/
theorem Passes.persists (h : s.Passes kind x s') (hne : kind ≠ .keyword ∨ x ≠ "then") :
    Persists (Passes kind x) s s' := by
  intro r hr
  obtain ⟨ht⟩ := h
  obtain ⟨rest, hrest, hthinned⟩ := hr.rest.cons_of_not_then (Token.not_then_of_is ht hne)
  obtain ⟨last, _⟩ := r
  obtain rfl := hrest
  exact ⟨⟨_, rest⟩, ⟨rfl, hthinned⟩, ⟨ht⟩⟩

theorem Passes.mark_persists (h : s.Passes .punctuation x s') : Persists (Passes .punctuation x) s s' :=
  h.persists (.inl (by decide))

/-- Where such a token comes next a span starts at it, in both. -/
theorem Passes.spanTo_thinned (h : s.Passes kind x s') (hr : s.Thinned r)
    (hne : kind ≠ .keyword ∨ x ≠ "then") {u v : Spot} (hv : u.Thinned v) : r.spanTo v = s.spanTo u := by
  obtain ⟨ht⟩ := h
  obtain ⟨rest, hrest, -⟩ := hr.rest.cons_of_not_then (Token.not_then_of_is ht hne)
  rw [Spot.spanTo, Spot.spanTo, hrest]
  simp only [List.head?_cons, Option.map_some, Spot.spanFrom, hv.last]

theorem Names.persists (h : s.Names x s') : Persists (Names · x ·) s s' := by
  intro r hr
  obtain ⟨ht⟩ := h
  have hkind := Token.not_then_of_kind (by rw [ht]; decide)
  obtain ⟨rest, hrest, hthinned⟩ := hr.rest.cons_of_not_then hkind
  obtain ⟨last, _⟩ := r
  obtain rfl := hrest
  exact ⟨⟨_, rest⟩, ⟨rfl, hthinned⟩, ⟨ht⟩⟩

theorem Thinned.rest_eq_nil (hr : s.Thinned r) (h : s.rest = []) : r.rest = [] :=
  Token.Thinned.nil_eq (h ▸ hr.rest)

/-- What does not come next does not come next in the other place either, unless it is the brace. -/
theorem Thinned.not_isAt (hr : s.Thinned r) (h : s.isAt kind x = false)
    (hne : kind ≠ .punctuation ∨ x ≠ "\x7b") : r.isAt kind x = false := by
  obtain hhead | ⟨brace, hhead, hbrace⟩ := hr.rest.head?_eq
  · rw [isAt, hhead]
    exact h
  · rw [isAt, hhead, Option.any_some, Token.is_eq hbrace]
    rcases hne with hne | hne <;> simp [hne.symm]

theorem Thinned.not_tighter {bound : Int} (hr : s.Thinned r) (h : ¬s.Tighter bound) :
    ¬r.Tighter bound := by
  rintro ⟨t, ht, htight⟩
  obtain hhead | ⟨brace, hhead, hbrace⟩ := hr.rest.head?_eq
  · exact h ⟨t, hhead.symm.trans ht, htight⟩
  · obtain rfl := Option.some.inj (ht.symm.trans hhead)
    cases (Token.kind_of_is hbrace).symm.trans htight.1

/-- The keyword is passed over where it stands, and is not missed where it was left out. What was taken
last can then be something else. -/
theorem Then.thinned (h : s.Then s') (hr : s.Thinned r) :
    ∃ r', Token.Thinned s'.rest r'.rest ∧ r.Then r' := by
  cases h with
  | block h =>
    obtain ⟨last, _ | ⟨brace, rest⟩⟩ := s
    · cases h
    · have hbrace : brace.is .punctuation "\x7b" = true := h
      obtain ⟨rest', hrest, -⟩ := hr.rest.cons_of_not_then (Token.not_then_of_is hbrace (.inl (by decide)))
      refine ⟨r, hr.rest, .block ?_⟩
      rw [isAt, hrest]
      exact hbrace
  | word h =>
    obtain ⟨hword⟩ := h
    obtain ⟨last, rest⟩ := r
    obtain ⟨_, hrest⟩ := hr
    cases hrest with
    | keep hrest => exact ⟨⟨_, _⟩, hrest, .word ⟨hword⟩⟩
    | «omit» _ hbrace hrest => exact ⟨⟨last, _⟩, .keep hrest, .block hbrace⟩

end Spot

/-! ## Readings -/

variable {o : ParseOptions}

namespace Spot.Persists

variable {P Q R T : Spot → Spot → Prop} {s s₁ s₂ s' : Spot}

theorem imp (h : Persists P s s') (hrule : ∀ {r r'}, P r r' → R r r') : Persists R s s' := by
  intro r hr
  obtain ⟨r', hr', hP⟩ := h hr
  exact ⟨r', hr', hrule hP⟩

/-- A rule with two premises, one behind the other. -/
theorem comp (h : Persists P s s₁) (h' : Persists Q s₁ s')
    (hrule : ∀ {r r₁ r'}, P r r₁ → Q r₁ r' → R r r') : Persists R s s' := by
  intro r hr
  obtain ⟨r₁, hr₁, hP⟩ := h hr
  obtain ⟨r', hr', hQ⟩ := h' hr₁
  exact ⟨r', hr', hrule hP hQ⟩

/-- A rule with three premises, one behind the other. -/
theorem comp₃ (h : Persists P s s₁) (h' : Persists Q s₁ s₂) (h'' : Persists R s₂ s')
    (hrule : ∀ {r r₁ r₂ r'}, P r r₁ → Q r₁ r₂ → R r₂ r' → T r r') : Persists T s s' := by
  intro r hr
  obtain ⟨r₁, hr₁, hP⟩ := h hr
  obtain ⟨r₂, hr₂, hQ⟩ := h' hr₁
  obtain ⟨r', hr', hR⟩ := h'' hr₂
  exact ⟨r', hr', hrule hP hQ hR⟩

end Spot.Persists

theorem Sequence.persists {α : Type} {item : Spot → α → Spot → Prop} {stop separator : String}
    {first : Bool} {s s' : Spot} {xs : List α}
    (hitem : ∀ {s x s'}, item s x s' → Persists (item · x ·) s s')
    (h : Sequence o item stop separator first s xs s') :
    Persists (Sequence o item stop separator first · xs ·) s s' := by
  induction h with
  | close hstop => exact hstop.mark_persists.imp .close
  | trailing ho hsep hstop => exact hsep.mark_persists.comp hstop.mark_persists (.trailing ho)
  | first hx _ ih => exact (hitem hx).comp ih .first
  | more hsep hx _ ih => exact hsep.mark_persists.comp₃ (hitem hx) ih .more

/-! ### Forms of nodes -/

section Forms

variable {n : Nat} {s s₁ s₂ s₃ s₄ s₅ s' : Spot} {left right e c p q b : Node} {args body : List Node}

theorem persists_fold {last : Option Token} {t : Token} {rest : List Token} {bound : Int}
    (ht : t.Tighter bound)
    (hright : Persists (Reads o (.operand n (Parser.rightBound o t.text)) · [right] ·) ⟨some t, rest⟩ s₁)
    (hmore : Persists (Reads o (.operators n (.joined t.text left right) bound) · [e] ·) s₁ s') :
    Persists (Reads o (.operators (n + 1) left bound) · [e] ·) ⟨last, t :: rest⟩ s' := by
  intro r hr
  have hkind := Token.not_then_of_kind (by rw [ht.1]; decide)
  obtain ⟨rest', hrest, hthinned⟩ := hr.rest.cons_of_not_then hkind
  obtain ⟨last', _⟩ := r
  obtain rfl := hrest
  have hbehind : Spot.Thinned ⟨some t, rest⟩ ⟨some t, rest'⟩ := ⟨rfl, hthinned⟩
  obtain ⟨r₁, hr₁, hright⟩ := hright hbehind
  obtain ⟨r', hr', hmore⟩ := hmore hr₁
  exact ⟨r', hr', .fold ht hright hmore⟩

theorem persists_call {callee : Node} (hopen : s.Passes .punctuation "(" s₁)
    (hargs : Persists (Reads o (.sequence n ")" "," true) · args ·) s₁ s') :
    Persists (Reads o (.suffix n callee) · [.called callee args s'] ·) s s' := by
  intro r hr
  obtain ⟨r₁, hr₁, hopen⟩ := hopen.mark_persists hr
  obtain ⟨r', hr', hargs⟩ := hargs hr₁
  have hcalled : Node.called callee args s' = Node.called callee args r' := by
    simp only [Node.called, Spot.spanFrom, hr'.last]
  rw [hcalled]
  exact ⟨r', hr', .call hopen hargs⟩

theorem persists_block (hopen : s.Passes .punctuation "\x7b" s₁)
    (hbody : Persists (Reads o (.sequence n "\x7d" ";" true) · body ·) s₁ s') :
    Persists (Reads o (.primary n) · [.blocked body (s.spanTo s')] ·) s s' := by
  intro r hr
  obtain ⟨r₁, hr₁, hopen'⟩ := hopen.mark_persists hr
  obtain ⟨r', hr', hbody⟩ := hbody hr₁
  rw [← hopen.spanTo_thinned hr (.inl (by decide)) hr']
  exact ⟨r', hr', .block hopen' hbody⟩

/-- The positive branch is read behind the keyword and without it. -/
theorem behind_then {r₂ : Spot} (hthen : s₂.Then s₃) (hr : s₂.Thinned r₂)
    (hp : Persists (Reads o (.expression n) · [p] ·) s₃ s') :
    ∃ r₃ r', r₂.Then r₃ ∧ s'.Thinned r' ∧ Reads o (.expression n) r₃ [p] r' := by
  obtain ⟨r₃, hrest, hthen⟩ := hthen.thinned hr
  have hlast : s₃.Thinned ⟨s₃.last, r₃.rest⟩ := ⟨rfl, hrest⟩
  obtain ⟨r', hr', hp⟩ := hp hlast
  -- An expression takes a token, so what was taken before it does not matter.
  exact ⟨r₃, r', hthen, hr', hp.forget trivial r₃.last⟩

theorem persists_ifThen (hif : s.Passes .keyword "if" s₁)
    (hc : Persists (Reads o (.expression n) · [c] ·) s₁ s₂) (hthen : s₂.Then s₃)
    (hp : Persists (Reads o (.expression n) · [p] ·) s₃ s') (hnot : s'.isAt .keyword "else" = false) :
    Persists (Reads o (.primary n) · [.ifThen c p (s.spanTo s')] ·) s s' := by
  intro r hr
  obtain ⟨r₁, hr₁, hif'⟩ := hif.persists (.inr (by decide)) hr
  obtain ⟨r₂, hr₂, hc⟩ := hc hr₁
  obtain ⟨r₃, r', hthen, hr', hp⟩ := behind_then hthen hr₂ hp
  rw [← hif.spanTo_thinned hr (.inr (by decide)) hr']
  exact ⟨r', hr', .ifThen hif' hc hthen hp (hr'.not_isAt hnot (.inl (by decide)))⟩

theorem persists_ifElse (hif : s.Passes .keyword "if" s₁)
    (hc : Persists (Reads o (.expression n) · [c] ·) s₁ s₂) (hthen : s₂.Then s₃)
    (hp : Persists (Reads o (.expression n) · [p] ·) s₃ s₄) (helse : s₄.Passes .keyword "else" s₅)
    (hq : Persists (Reads o (.expression n) · [q] ·) s₅ s') :
    Persists (Reads o (.primary n) · [.ifElse c p q (s.spanTo s')] ·) s s' := by
  intro r hr
  obtain ⟨r₁, hr₁, hif'⟩ := hif.persists (.inr (by decide)) hr
  obtain ⟨r₂, hr₂, hc⟩ := hc hr₁
  obtain ⟨r₃, r₄, hthen, hr₄, hp⟩ := behind_then hthen hr₂ hp
  obtain ⟨r₅, hr₅, helse⟩ := helse.persists (.inr (by decide)) hr₄
  obtain ⟨r', hr', hq⟩ := hq hr₅
  rw [← hif.spanTo_thinned hr (.inr (by decide)) hr']
  exact ⟨r', hr', .ifElse hif' hc hthen hp helse hq⟩

theorem persists_lambda {params : List String} (hword : s.Passes .keyword "lambda" s₁)
    (hopen : s₁.Passes .punctuation "(" s₂) (hparams : Sequence o Names ")" "," true s₂ params s₃)
    (hb : Persists (Reads o (.expression n) · [b] ·) s₃ s') :
    Persists (Reads o (.primary n) · [.lambda params b (s.spanTo s')] ·) s s' := by
  intro r hr
  obtain ⟨r₁, hr₁, hword'⟩ := hword.persists (.inr (by decide)) hr
  obtain ⟨r₂, hr₂, hopen⟩ := hopen.mark_persists hr₁
  obtain ⟨r₃, hr₃, hparams⟩ := hparams.persists (fun hx => hx.persists) hr₂
  obtain ⟨r', hr', hb⟩ := hb hr₃
  rw [← hword.spanTo_thinned hr (.inr (by decide)) hr']
  exact ⟨r', hr', .lambda hword' hopen hparams hb⟩

theorem persists_truth {truth : Bool} (h : s.Passes .keyword (Node.boolWord truth) s') :
    Persists (Reads o (.primary n) · [.bool truth (s.spanTo s')] ·) s s' := by
  intro r hr
  have hne : Node.boolWord truth ≠ "then" := by cases truth <;> decide
  obtain ⟨r', hr', h'⟩ := h.persists (.inr hne) hr
  rw [← h.spanTo_thinned hr (.inr hne) hr']
  exact ⟨r', hr', .truth h'⟩

theorem persists_leaf {last : Option Token} {t : Token} {rest : List Token} (h : t.leaf? = some e) :
    Persists (Reads o (.primary n) · [e] ·) ⟨last, t :: rest⟩ ⟨some t, rest⟩ := by
  intro r hr
  obtain ⟨rest', hrest, hthinned⟩ := hr.rest.cons_of_not_then (Token.is_of_leaf? h "then").2
  obtain ⟨last', _⟩ := r
  obtain rfl := hrest
  exact ⟨⟨some t, rest'⟩, ⟨rfl, hthinned⟩, .leaf h⟩

end Forms

/-- What is read is read as the same nodes with the same spans where some of these keywords are left
out. -/
theorem Reads.persists {task : Task} {s s' : Spot} {ns : List Node} (h : Reads o task s ns s') :
    Persists (Reads o task · ns ·) s s' := by
  induction h with
  | done h => exact fun r hr => ⟨r, hr, .done (hr.rest_eq_nil h)⟩
  | last _ h ih =>
    intro r hr
    obtain ⟨r', hr', he⟩ := ih hr
    exact ⟨r', hr', .last he (hr'.rest_eq_nil h)⟩
  | next _ hsep _ ihe ih => exact ihe.comp₃ hsep.mark_persists ih .next
  | expression _ _ _ iha iho ihs => exact iha.comp₃ iho ihs .expression
  | operand _ _ iha iho => exact iha.comp iho .operand
  | settled h => exact fun r hr => ⟨r, hr, .settled (hr.not_tighter h)⟩
  | fold ht _ _ ihr iho => exact persists_fold ht ihr iho
  | atom _ _ ihp ihs => exact ihp.comp ihs .atom
  | bare h => exact fun r hr => ⟨r, hr, .bare (hr.not_isAt h (.inr (by decide)))⟩
  | call hopen _ ih => exact persists_call hopen ih
  | group hopen _ hstop ih => exact hopen.mark_persists.comp₃ ih hstop.mark_persists .group
  | block hopen _ ih => exact persists_block hopen ih
  | ifThen hif _ hthen _ hnot ihc ihp => exact persists_ifThen hif ihc hthen ihp hnot
  | ifElse hif _ hthen _ helse _ ihc ihp ihq => exact persists_ifElse hif ihc hthen ihp helse ihq
  | lambda hword hopen hparams _ ihb => exact persists_lambda hword hopen hparams ihb
  | truth h => exact persists_truth h
  | leaf h => exact persists_leaf h
  | seqClose hstop => exact hstop.mark_persists.imp .seqClose
  | seqTrailing ho hsep hstop => exact hsep.mark_persists.comp hstop.mark_persists (.seqTrailing ho)
  | seqFirst _ _ ihe ih => exact ihe.comp ih .seqFirst
  | seqMore hsep _ _ ihe ih => exact hsep.mark_persists.comp₃ ihe ih .seqMore

/-! ## Programs -/

/-- What a record is read as without some of these keywords. -/
theorem Replay.parse_thinned {ts us : List Token} {finish start : Location} {n : Node}
    (h : Replay.parse o ⟨ts, .done finish, start⟩ = .ok n) (hus : Token.Thinned ts us)
    (finish' : Location) : Replay.parse o ⟨us, .done finish', start⟩ = .ok n := by
  have hdone : (drain (⟨ts, .done finish, start⟩ : Replay)).2 = .done finish := by
    rw [Replay.drain_done]
  have hdone' : (drain (⟨us, .done finish', start⟩ : Replay)).2 = .done finish' := by
    rw [Replay.drain_done]
  obtain ⟨body, s', hbody, rfl⟩ := (TokenSource.read_eq_ok_iff hdone n).mp h
  rw [Replay.drain_done] at hbody
  have hplace : Spot.Thinned ⟨none, ts⟩ ⟨none, us⟩ := ⟨rfl, hus⟩
  obtain ⟨r', hr', hreads⟩ := hbody.persists hplace
  refine (TokenSource.read_eq_ok_iff hdone' _).mpr ⟨body, r', ?_, ?_⟩
  · rw [Replay.drain_done]
    exact hreads
  · rw [Spot.spanFrom, Spot.spanFrom, hr'.last]
    rfl

/-- A keyword `then` directly before an opening brace can be left out. Tokens that are read as a program are
read as the same without it, with the same spans, under the same options. And where the tokens are those of
a source, there is a source with the tokens that are left, and every such source is read as an equal
program. -/
theorem Replay.parse_omitting {ts : List Token} {finish start : Location} {n : Node} {i : Nat}
    {word brace : Token} (h : Replay.parse o ⟨ts, .done finish, start⟩ = .ok n)
    (hword : ts[i]? = some word) (hbrace : ts[i + 1]? = some brace)
    (hw : word.is .keyword "then" = true) (hb : brace.is .punctuation "\x7b" = true) :
    (∀ finish', Replay.parse o ⟨ts.eraseIdx i, .done finish', start⟩ = .ok n) ∧
    ∀ s : Source, s.tokens = .ok ts →
      (∃ (s' : Source) (ts' : List Token), s'.file = s.file ∧ s'.strictStrings = s.strictStrings ∧
        s'.tokens = .ok ts' ∧ ts'.map Token.spelling = (ts.eraseIdx i).map Token.spelling) ∧
      ∀ (s' : Source) (ts' : List Token), s'.tokens = .ok ts' →
        ts'.map Token.spelling = (ts.eraseIdx i).map Token.spelling →
        ∃ m, s'.parse o = .ok m ∧ (m == n) = true := by
  have hrecord := Replay.parse_thinned h (.eraseIdx hword hbrace hw hb)
  refine ⟨hrecord, fun s hts => ?_⟩
  have hsub := List.eraseIdx_sublist ts i
  refine ⟨Source.exists_of_sublist hts hsub, fun s' ts' hts' hsame => ?_⟩
  obtain ⟨hlexemes, -⟩ := Source.parse_eq_replay hts o
  have hleft : ∀ t ∈ ts.eraseIdx i, t.IsLexeme := fun t ht => hlexemes t (hsub.subset ht)
  obtain ⟨m, hm, hbare⟩ := Source.parse_of_spelling hts' hleft hsame (hrecord finish)
  exact ⟨m, hm, (Source.isProgram_of_parse hm).beq_of_bare hbare⟩

/-- The keyword behind a condition that ends in a conditional itself. -/
theorem Replay.parse_omitting_nested :
    let s : Source := ⟨"if if a then f(b) then \x7bc; d\x7d else e", "x", false⟩
    let s' : Source := ⟨"if if a then f(b) \x7bc; d\x7d else e", "y", false⟩
    ∃ n m, s.parse {} = .ok n ∧ s'.parse {} = .ok m ∧ (m == n) = true := by
  intro s s'
  have hok : (s.parse {}).isOk = true := by decide +kernel
  let ts := (drain s.scanner).1
  have hword : (ts[8]?.any (·.is .keyword "then")) = true := by decide +kernel
  have hbrace : (ts[9]?.any (·.is .punctuation "\x7b")) = true := by decide +kernel
  have hspelled : (s'.tokens.toOption.map (·.map Token.spelling)) =
      some ((ts.eraseIdx 8).map Token.spelling) := by decide +kernel
  obtain ⟨word, hword, hw⟩ := (Option.any_eq_true _ _).mp hword
  obtain ⟨brace, hbrace, hb⟩ := (Option.any_eq_true _ _).mp hbrace
  cases hn : s.parse {} with
  | error e => rw [hn] at hok; cases hok
  | ok n =>
    obtain ⟨l, hdone⟩ := s.drain_of_parse hn
    have htokens : s.tokens = .ok ts := by rw [Source.tokens_eq, hdone]
    obtain ⟨-, finish, hrecord⟩ := Source.parse_eq_replay htokens {}
    obtain ⟨-, hsources⟩ := Replay.parse_omitting (hrecord.symm.trans hn) hword hbrace hw hb
    cases hts' : s'.tokens with
    | error e => rw [hts'] at hspelled; cases hspelled
    | ok ts' =>
      rw [hts'] at hspelled
      obtain ⟨m, hm, heq⟩ := (hsources s htokens).2 s' ts' hts' (Option.some.inj hspelled)
      exact ⟨n, m, rfl, hm, heq⟩

end LambdaReader
