import LambdaReader.Proofs.Journal
import LambdaReader.Proofs.Reads.Trim

/-!
# `Proofs.Entries` — the journal of a program, statement by statement

A statement is noted between its tokens: when its expression was read, and before its semicolon is taken. By
then the semicolon has been looked at, and so noted, if the parser had to look for arguments behind the
expression; but behind the arguments of a call of the whole expression it does not look again. So the note of
a statement comes behind that of its semicolon, or else right before it.

## Main result
- `Source.journal_of_read`: the journal of a program that is read, and of one that is not.
-/

namespace LambdaReader

open TokenSource Step Spot

namespace Parser

variable {σ : Type} [TokenSource σ] {p q : Parser σ} {o : ParseOptions}

/-! ## Where a statement is noted -/

/-- A call ends with its closing bracket, and nothing is looked at behind it. -/
theorem ahead_of_callWith {x : Parse σ Node} {callee e : Node} (h : callWith o x callee p = .ok e q) :
    q.tokens.ahead = none := by
  obtain ⟨args, p₁, hargs, h⟩ := bind_eq_ok h
  obtain ⟨span, p₂, hspan, h⟩ := bind_eq_ok h
  have hspan : p₂ = p₁ := by
    unfold spanOf at hspan
    cases hcallee : callee.span with
    | none => rw [hcallee] at hspan; cases hspan
    | some span' => rw [hcallee] at hspan; cases hspan; rfl
  cases h
  obtain ⟨_, p₃, -, hargs⟩ := bind_eq_ok hargs
  obtain ⟨_, p₄, -, hargs⟩ := bind_eq_ok hargs
  obtain ⟨_, p₅, -, hargs⟩ := bind_eq_ok hargs
  obtain ⟨_, p₆, hskip, hargs⟩ := bind_eq_ok hargs
  cases hargs
  rw [hspan]
  exact ahead_of_skip hskip

variable [LawfulTokenSource σ]

/-- To find out whether arguments follow, the parser has looked at the next token. -/
theorem ahead_of_maybeCallWith {x : Parse σ Node} {callee e : Node}
    (h : maybeCallWith o x callee p = .ok e q) :
    q.tokens.ahead = if p.spot.isAt .punctuation "(" then none else q.spot.rest.head? := by
  rw [maybeCallWith, isAt, bind_assoc] at h
  obtain ⟨found, p', hpeek, h⟩ := bind_eq_ok h
  obtain ⟨p'', hpeek', hahead, hspot, -⟩ | ⟨⟨e, p'', hpeek'⟩, -⟩ := peek_cases p
  · cases hpeek.symm.trans hpeek'
    rw [pure_bind] at h
    change (if p.spot.isAt .punctuation "(" = true then callWith o x callee else pure callee) p' = .ok e q at h
    split at h
    · next hat =>
      rw [if_pos hat]
      exact ahead_of_callWith h
    · next hat =>
      cases h
      rw [if_neg hat, hspot]
      exact hahead
  · cases hpeek.symm.trans hpeek'

/-- An expression is an operand and a call of all of it, if arguments follow. The next token has been looked
at, unless such a call was read. -/
theorem expression_parts {e : Node} (h : expression o p = .ok e q) : ∃ n whole s, p.levels o = n + 1 ∧
    Reads o (.operand (n + 1) Precedence.nothing.strength) p.spot [whole] s ∧
    Reads o (.suffix n whole) s [e] q.spot ∧
    q.tokens.ahead = if s.isAt .punctuation "(" then none else q.spot.rest.head? := by
  rw [expression] at h
  cases hlevels : p.levels o with
  | zero =>
    rw [hlevels] at h
    exact absurd h (exhausted_ne_ok _ _ _ _)
  | succ n =>
    have hle : (p.depth : Int) + 1 ≤ o.maxDepth := by
      unfold levels at hlevels
      omega
    have hdeeper : p.deeper.levels o = n := by
      unfold levels deeper at *
      push_cast
      omega
    rw [hlevels, expressionAt, nested_of_le hle] at h
    cases hbody : (atomWith o (expressionAt o n) >>= fun first =>
        operatorsAt o n first Precedence.nothing.strength >>= fun whole =>
          maybeCallWith o (expressionAt o n) whole) p.deeper with
    | error e' q' => rw [hbody] at h; cases h
    | ok e' q' =>
      rw [hbody] at h
      cases h
      obtain ⟨first, p₁, hfirst, hbody⟩ := bind_eq_ok hbody
      obtain ⟨whole, p₂, hwhole, hcall⟩ := bind_eq_ok hbody
      obtain ⟨hexpr, -, hoperators⟩ := levels_exact (σ := σ) o n
      obtain ⟨hatom, hdepth₁, -⟩ := (atomWith_exact hexpr p.deeper.spot).sound hdeeper rfl hfirst
      have hlevels₁ : p₁.levels o = n := by rw [← hdeeper, levels, levels, hdepth₁]
      obtain ⟨hfolds, hdepth₂, -⟩ :=
        (hoperators first _ p₁.spot (hatom.spanned trivial)).sound hlevels₁ rfl hwhole
      have hlevels₂ : p₂.levels o = n := by rw [← hlevels₁, levels, levels, hdepth₂]
      have hspanned := hfolds.spanned (hatom.spanned trivial)
      obtain ⟨hsuffix, -⟩ := (maybeCallWith_exact hexpr hspanned p₂.spot).sound hlevels₂ rfl hcall
      have hahead := ahead_of_maybeCallWith hcall
      exact ⟨n, whole, p₂.spot, rfl, .operand hatom hfolds, hsuffix, hahead⟩

end Parser

/-! ## Notes of tokens -/

namespace Note

theorem filterMap_scanned (ts : List Token) : (ts.map scanned).filterMap token? = ts := by
  rw [List.filterMap_map]
  exact List.filterMap_some

/-- Notes of nothing but tokens. -/
theorem map_scanned {notes : List Note} (h : ∀ n ∈ notes, n.token?.isSome = true) :
    (notes.filterMap token?).map scanned = notes := by
  induction notes with
  | nil => rfl
  | cons n notes ih =>
    obtain ⟨hn, hnotes⟩ := List.forall_mem_cons.mp h
    cases n with
    | scanned t => exact congrArg (scanned t :: ·) (ih hnotes)
    | parsed kind => cases hn
    | finished count file => cases hn

end Note

/-! ## Statements -/

/-- A statement as it is read: the tokens of an operand with its operators, those of a call of all that if
there is one, the semicolon, and the node of its expression. -/
structure Statement where
  operand : List Token
  call : List Token
  closing : Option Token
  node : Node

namespace Statement

/-- All tokens of the statement. -/
def tokens (s : Statement) : List Token := s.operand ++ (s.call ++ s.closing.toList)

/-- What is noted of the statement. The semicolon was looked at before the expression is noted, unless the
expression ends with a call of all of it. -/
def notes (s : Statement) : List Note :=
  if s.call = [] then s.tokens.map .scanned ++ [.parsed s.node.kind]
  else (s.operand ++ s.call).map .scanned ++ .parsed s.node.kind :: s.closing.toList.map .scanned

/-- The statement is read from its tokens. -/
structure IsRead (o : ParseOptions) (s : Statement) : Prop where
  /-- The operand goes up to the call, and the call of it up to the semicolon. -/
  parts : ∃ whole l l', Reads o (.operand o.maxDepth.toNat Precedence.nothing.strength) ⟨none, s.tokens⟩ [whole]
      ⟨l, s.call ++ s.closing.toList⟩ ∧
    Reads o (.suffix (o.maxDepth.toNat - 1) whole) ⟨l, s.call ++ s.closing.toList⟩ [s.node]
      ⟨l', s.closing.toList⟩
  /-- The expression is what its tokens are parsed as by themselves. -/
  alone : ∀ start finish, ∃ span,
    Replay.parse o ⟨s.operand ++ s.call, .done finish, start⟩ = .ok (.program [s.node] span)
  closing : ∀ t ∈ s.closing, t.is .punctuation ";" = true

/-- The tokens noted of a statement are its tokens. -/
theorem scanned_notes (s : Statement) : s.notes.filterMap Note.token? = s.tokens := by
  unfold notes
  split
  · rw [List.filterMap_append, Note.filterMap_scanned]
    exact List.append_nil _
  · rw [List.filterMap_append, Note.filterMap_scanned, List.filterMap_cons_none rfl,
      Note.filterMap_scanned, List.append_assoc]
    rfl

variable {o : ParseOptions} {n : Nat} {whole e : Node} {s₁ s₂ : Spot} {ops args us rest : List Token}

/-- Arguments are read where there is an opening bracket. -/
theorem args_eq_nil_iff (h : Reads o (.suffix n whole) s₁ [e] s₂) (hargs : s₁.Takes args s₂) :
    args = [] ↔ s₁.isAt .punctuation "(" = false := by
  cases h with
  | bare hat =>
    have hlength := hargs.length
    rw [List.eq_nil_iff_length_eq_zero]
    exact ⟨fun _ => hat, fun _ => by omega⟩
  | call hopen hseq =>
    have hlength := hargs.length
    have hle := hseq.length_le
    have hpasses := hopen.length_eq
    rw [hopen.isAt, List.eq_nil_iff_length_eq_zero]
    exact ⟨fun h => by omega, fun h => absurd h (by decide)⟩

/-- What is read of an expression and the semicolon behind it is read of their tokens alone. -/
theorem IsRead.of_reads {closing : Option Token} (hn : o.maxDepth.toNat = n + 1)
    (hoperand : Reads o (.operand (n + 1) Precedence.nothing.strength) ⟨none, us⟩ [whole] s₁)
    (hsuffix : Reads o (.suffix n whole) s₁ [e] s₂) (hops : Takes ⟨none, us⟩ ops s₁) (hargs : s₁.Takes args s₂)
    (hrest : s₂.rest = closing.toList ++ rest) (hclosing : ∀ t ∈ closing, t.is .punctuation ";" = true) :
    IsRead o ⟨ops, args, closing, e⟩ where
  parts := by
    have hbehind : closing.toList <+: s₂.rest := ⟨rest, hrest.symm⟩
    have hcall : args ++ closing.toList <+: s₁.rest := by
      rw [hargs.1]
      exact (List.prefix_append_right_inj args).mpr hbehind
    rw [hn, Nat.add_sub_cancel]
    exact ⟨whole, _, _, hoperand.before trivial hops hcall, hsuffix.before trivial hargs hbehind⟩
  alone start finish := by
    have hexpr : Reads o (.expression (n + 1)) ⟨none, us⟩ [e] s₂ := by
      cases hoperand with
      | operand hatom hfolds => exact .expression hatom hfolds hsuffix
    have halone := hexpr.before trivial (hops.append hargs) List.nil_prefix
    rw [List.append_nil] at halone
    have hle : ((n + 1 : Nat) : Int) ≤ o.maxDepth := by omega
    exact TokenSource.read_of_reads (Replay.drain_done _ _ _) halone hle
  closing := hclosing

theorem IsRead.tokens_ne_nil {s : Statement} (h : s.IsRead o) : s.tokens ≠ [] := by
  obtain ⟨whole, l, l', hoperand, -⟩ := h.parts
  have hlt := hoperand.length_lt trivial
  exact List.length_pos_iff.mp (Nat.lt_of_le_of_lt (Nat.zero_le _) hlt)

end Statement

namespace Parser

variable {σ : Type} [TokenSource σ] {p q : Parser σ} {o : ParseOptions}

/-- A step that notes nothing but tokens. -/
theorem journal_of_ok {α : Type} {x : Parse σ α} {a : α}
    (hx : Journals (fun n => n.token?.isSome = true) x) (hp : p.Held) (h : x p = .ok a q) :
    ∃ ts, q.journal = p.journal ++ ts.map .scanned ∧
      (drain p.tokens.source).1 = ts ++ (drain q.tokens.source).1 ∧ q.Held := by
  have hout := hx p hp
  rw [h] at hout
  cases hout with
  | ok hnoted hheld =>
    obtain ⟨notes, hjournal, hnotes, hdrain⟩ := hnoted
    rw [← Note.map_scanned hnotes] at hjournal
    exact ⟨notes.filterMap Note.token?, hjournal, congrArg Prod.fst hdrain, hheld⟩

/-- If no token is held back, the source has all that are left. -/
theorem rest_of_none (h : p.tokens.ahead = none) : p.spot.rest = (drain p.tokens.source).1 := by
  rw [spot, h]
  rfl

/-- The steps of a statement. -/
theorem statement_steps {e : Node} (h : statement o p = .ok (some e) q) : ∃ p₁ p₂ : Parser σ,
    atEnd p = .ok false p₁ ∧ expression o p₁ = .ok e p₂ ∧
      skipSeparator (p₂.noting (.parsed e.kind)) = .ok () q := by
  obtain ⟨done, p₁, hend, h⟩ := bind_eq_ok h
  cases done with
  | true => cases h
  | false =>
    obtain ⟨e', p₂, hexpr, h⟩ := bind_eq_ok h
    obtain ⟨_, p₃, hnote, h⟩ := bind_eq_ok h
    obtain ⟨_, p₄, hskip, h⟩ := bind_eq_ok h
    cases h
    cases hnote
    exact ⟨p₁, p₂, hend, hexpr, hskip⟩

variable [LawfulTokenSource σ]

/-- To find out whether the end is reached, a parser stays where it is. -/
theorem spot_of_atEnd {done : Bool} (h : atEnd p = .ok done q) :
    done = p.spot.rest.isEmpty ∧ q.spot = p.spot ∧ q.depth = p.depth := by
  rw [atEnd_eq] at h
  obtain ⟨found, p₁, hpeek, h⟩ := bind_eq_ok h
  cases h
  obtain ⟨⟨rfl, hspot⟩, hdepth, -⟩ := ExactAt.peek.sound (o := {}) rfl rfl hpeek
  refine ⟨?_, hspot, hdepth⟩
  cases p.spot.rest <;> rfl

/-- Behind an expression stands a semicolon, or nothing. -/
theorem closing_of_skipSeparator (h : skipSeparator p = .ok () q) : ∃ closing : Option Token,
    p.spot.rest.head? = closing ∧ p.spot.rest = closing.toList ++ q.spot.rest ∧
      (∀ t ∈ closing, t.is .punctuation ";" = true) ∧ (closing = none → q.spot.rest = []) ∧ q.depth = p.depth := by
  obtain ⟨hsep, hdepth, -⟩ := (skipSeparator_exact (o := {}) p.spot).sound rfl rfl h
  split at hsep
  · next hnil =>
    refine ⟨none, ?_, ?_, nofun, fun _ => ?_, hdepth⟩
    · rw [hnil]
      rfl
    · rw [hsep]
      rfl
    · rw [hsep]
      exact hnil
  · generalize p.spot = s, q.spot = s' at hsep
    obtain ⟨ht⟩ := hsep
    refine ⟨some _, rfl, rfl, ?_, nofun, hdepth⟩
    rintro t ⟨⟩
    exact ht

/-- What a statement adds to the journal: the tokens up to the one that was looked at behind the expression,
the statement, and the semicolon if it was not looked at before. -/
theorem journal_of_steps {p₁ p₂ : Parser σ} {e : Node} (hahead : p.tokens.ahead = none)
    (hend : atEnd p = .ok false p₁) (hexpr : expression o p₁ = .ok e p₂)
    (hskip : skipSeparator (p₂.noting (.parsed e.kind)) = .ok () q) : ∃ ts us,
      q.journal = p.journal ++ (ts.map .scanned ++ .parsed e.kind :: us.map .scanned) ∧
      p.spot.rest = ts ++ (drain p₂.tokens.source).1 ∧ p₂.spot.rest = p₂.tokens.ahead.toList ++ (us ++ q.spot.rest) := by
  have hR := Journals.noteless (σ := σ) (P := fun n => n.token?.isSome = true) fun _ => rfl
  have hp : p.Held := .of_none hahead
  obtain ⟨ts₁, hjournal₁, hdrain₁, hp₁⟩ := journal_of_ok hR.atEnd.2 hp hend
  obtain ⟨ts₂, hjournal₂, hdrain₂, hp₂⟩ := journal_of_ok (.expression fun _ => rfl) hp₁ hexpr
  obtain ⟨us, hjournal₃, hdrain₃, -⟩ := journal_of_ok hR.skipSeparator.2 (hp₂.noting rfl) hskip
  -- No token is held back before the statement, nor behind it.
  have hspot := rest_of_none hahead
  have hspot' := rest_of_none (ahead_of_skipSeparator hskip)
  have hdrain₃ : (drain p₂.tokens.source).1 = us ++ (drain q.tokens.source).1 := hdrain₃
  refine ⟨ts₁ ++ ts₂, us, ?_, ?_, ?_⟩
  · rw [hjournal₃, journal_noting, hjournal₂, hjournal₁]
    simp
  · rw [hspot, hdrain₁, hdrain₂, List.append_assoc]
  · rw [hspot', ← hdrain₃]
    rfl

/-- A statement is read from its tokens and noted. -/
theorem statement_noted (hahead : p.tokens.ahead = none) (hlevels : p.levels o = o.maxDepth.toNat) {e : Node}
    (h : statement o p = .ok (some e) q) : ∃ s : Statement, s.node = e ∧ s.IsRead o ∧
      p.spot.rest = s.tokens ++ q.spot.rest ∧ (s.closing = none → q.spot.rest = []) ∧
      q.journal = p.journal ++ s.notes ∧ q.tokens.ahead = none ∧ q.depth = p.depth := by
  obtain ⟨p₁, p₂, hend, hexpr, hskip⟩ := statement_steps h
  obtain ⟨-, hspot₁, hdepth₁⟩ := spot_of_atEnd hend
  obtain ⟨n, whole, s₁, hn, hoperand, hsuffix, hlooked⟩ := expression_parts hexpr
  have hn : o.maxDepth.toNat = n + 1 := by
    rw [← hlevels, ← hn, levels, levels, hdepth₁]
  obtain ⟨-, hdepth₂, -⟩ := (expression_exact p₁.spot).sound rfl rfl hexpr
  obtain ⟨closing, hhead, hrest, hclosing, hlast, hdepth⟩ := closing_of_skipSeparator hskip
  have hhead : p₂.spot.rest.head? = closing := hhead
  have hrest : p₂.spot.rest = closing.toList ++ q.spot.rest := hrest
  have hforgotten := hoperand.forget trivial none
  obtain ⟨ops, hops, -⟩ := hforgotten.takes
  obtain ⟨args, hargs, -⟩ := hsuffix.takes
  have htokens : p.spot.rest = ops ++ (args ++ p₂.spot.rest) := by
    rw [← hspot₁, hops.1, hargs.1]
  obtain ⟨ts, us, hjournal, hts, hus⟩ := journal_of_steps hahead hend hexpr hskip
  -- The tokens noted before the statement are those of the expression and the one that was looked at.
  have hbefore : ts = ops ++ (args ++ p₂.tokens.ahead.toList) := by
    have hsame : ts ++ (drain p₂.tokens.source).1 =
        ops ++ (args ++ p₂.tokens.ahead.toList) ++ (drain p₂.tokens.source).1 := by
      rw [← hts, htokens, spot]
      simp
    exact List.append_cancel_right hsame
  have hafter : p₂.tokens.ahead.toList ++ us = closing.toList := by
    rw [hrest, ← List.append_assoc] at hus
    exact (List.append_cancel_right hus).symm
  refine ⟨⟨ops, args, closing, e⟩, rfl, .of_reads hn hforgotten hsuffix hops hargs hrest hclosing, ?_, hlast, ?_,
    ahead_of_skipSeparator hskip, ?_⟩
  · rw [htokens, hrest, Statement.tokens]
    simp
  · rw [hjournal, hbefore, Statement.notes, Statement.tokens]
    by_cases hcall : args = []
    · have hat := (Statement.args_eq_nil_iff hsuffix hargs).mp hcall
      rw [hat, if_neg Bool.false_ne_true, hhead] at hlooked
      rw [hlooked] at hafter ⊢
      obtain rfl : us = [] := List.append_right_eq_self.mp hafter
      rw [if_pos hcall]
      rfl
    · have hat := mt (Statement.args_eq_nil_iff hsuffix hargs).mpr hcall
      rw [if_pos (Bool.not_eq_false _ ▸ hat)] at hlooked
      rw [hlooked] at hafter ⊢
      obtain rfl : us = closing.toList := hafter
      rw [if_neg hcall, Option.toList_none, List.append_nil]
  · rw [hdepth, ← hdepth₁, ← hdepth₂]
    rfl

/-- At the end there is no statement, and nothing is noted. -/
theorem statement_none (h : statement o p = .ok none q) (hahead : p.tokens.ahead = none) :
    p.spot.rest = [] ∧ q.journal = p.journal := by
  obtain ⟨done, p₁, hend, h⟩ := bind_eq_ok h
  cases done with
  | false =>
    obtain ⟨_, _, -, h⟩ := bind_eq_ok h
    obtain ⟨_, _, -, h⟩ := bind_eq_ok h
    obtain ⟨_, _, -, h⟩ := bind_eq_ok h
    cases h
  | true =>
    cases h
    obtain ⟨hdone, -, -⟩ := spot_of_atEnd hend
    have hnil : p.spot.rest = [] := List.isEmpty_iff.mp hdone.symm
    have hR := Journals.noteless (σ := σ) (P := fun n => n.token?.isSome = true) fun _ => rfl
    obtain ⟨ts, hjournal, hdrain, -⟩ := journal_of_ok hR.atEnd.2 (.of_none hahead) hend
    -- No token is left, so none can be noted.
    rw [← rest_of_none hahead, hnil] at hdrain
    obtain ⟨rfl, -⟩ := List.append_eq_nil_iff.mp hdrain.symm
    exact ⟨hnil, hjournal.trans (List.append_nil _)⟩

/-- The statements of a program are noted one behind the other. -/
theorem statements_noted {n : Nat} {body : List Node} (hahead : p.tokens.ahead = none)
    (hlevels : p.levels o = o.maxDepth.toNat) (hn : p.spot.rest.length < n)
    (h : statements o n p = .ok body q) : ∃ ss : List Statement,
      body = ss.map Statement.node ∧ p.spot.rest = ss.flatMap Statement.tokens ∧ (∀ s ∈ ss, s.IsRead o) ∧
      (∀ s ∈ ss.dropLast, s.closing.isSome = true) ∧ q.journal = p.journal ++ ss.flatMap Statement.notes := by
  induction n generalizing p body with
  | zero => exact absurd hn (Nat.not_lt_zero _)
  | succ n ih =>
    rw [statements_succ] at h
    obtain ⟨found, p₁, hfirst, h⟩ := bind_eq_ok h
    cases found with
    | none =>
      cases h
      obtain ⟨hnil, hjournal⟩ := statement_none hfirst hahead
      exact ⟨[], rfl, hnil, by simp, by simp, by rw [hjournal, List.flatMap_nil, List.append_nil]⟩
    | some e =>
      obtain ⟨es, p₂, hrest, h⟩ := bind_eq_ok h
      cases h
      obtain ⟨s, rfl, hs, htokens, hlast, hjournal, hahead₁, hdepth⟩ := statement_noted hahead hlevels hfirst
      have hpos := List.length_pos_iff.mpr hs.tokens_ne_nil
      have hlevels₁ : p₁.levels o = o.maxDepth.toNat := by
        rw [← hlevels, levels, levels, hdepth]
      have hlt : p₁.spot.rest.length < n := by
        rw [htokens, List.length_append] at hn
        omega
      obtain ⟨ss, rfl, hss, hread, hclosed, hjournal₁⟩ := ih hahead₁ hlevels₁ hlt hrest
      refine ⟨s :: ss, rfl, ?_, List.forall_mem_cons.mpr ⟨hs, hread⟩, ?_, ?_⟩
      · rw [htokens, hss, List.flatMap_cons]
      · cases ss with
        | nil => simp
        | cons s' ss =>
          -- Another statement follows, so tokens are left behind this one.
          rw [List.dropLast_cons_cons]
          refine List.forall_mem_cons.mpr ⟨?_, hclosed⟩
          by_contra hopen
          have hnil := hlast (Option.not_isSome_iff_eq_none.mp hopen)
          rw [hss, List.flatMap_cons] at hnil
          exact (hread s' List.mem_cons_self).tokens_ne_nil (List.append_eq_nil_iff.mp hnil).1
      · rw [hjournal₁, hjournal, List.flatMap_cons, List.append_assoc]

end Parser

/-! ## The result -/

namespace Source

variable (s : Source) (o : ParseOptions)

/-- A source is read a statement at a time, and then the number of statements is noted. -/
theorem read_cases : let p : Parser Scanner := .ofSource s.scanner
    (∃ body span q, Parser.statements o (p.tokens.bound + 1) p = .ok body q ∧
      s.read o = ⟨.ok (.program body span), q.journal ++ [.finished body.length s.file]⟩) ∨
    ∃ e q, Parser.statements o (p.tokens.bound + 1) p = .error e q ∧ s.read o = ⟨.error e, q.journal⟩ := by
  intro p
  have hread : s.read o = TokenSource.read o s.scanner := rfl
  rw [TokenSource.read, Parser.program_apply p] at hread
  cases hstatements : Parser.statements o (p.tokens.bound + 1) p with
  | ok body q =>
    rw [hstatements] at hread
    refine .inl ⟨body, some ⟨p.location, (q.last.map Token.location).getD p.location⟩, q, rfl, ?_⟩
    rw [hread]
    exact congrArg (Reading.mk _) Array.toList_push
  | error e q =>
    rw [hstatements] at hread
    exact .inr ⟨e, q, rfl, hread⟩

/-- The journal of a program that is read: its statements one behind the other, and then their number. -/
theorem journal_of_parse {n : Node} (h : s.parse o = .ok n) : ∃ (ss : List Statement) (span : Option Span),
    n = .program (ss.map Statement.node) span ∧ s.tokens = .ok (ss.flatMap Statement.tokens) ∧
    (∀ st ∈ ss, st.IsRead o) ∧ (∀ st ∈ ss.dropLast, st.closing.isSome = true) ∧
    (s.read o).journal = ss.flatMap Statement.notes ++ [.finished ss.length s.file] := by
  have hresult : (s.read o).result = .ok n := h
  obtain ⟨body, span, q, hstatements, hread⟩ | ⟨e, q, -, hread⟩ := s.read_cases o
  · rw [hread] at hresult
    cases hresult
    let p : Parser Scanner := .ofSource s.scanner
    have hlevels : p.levels o = o.maxDepth.toNat := by
      show (o.maxDepth - (0 : Nat)).toNat = o.maxDepth.toNat
      rw [Int.natCast_zero, Int.sub_zero]
    have hfuel : p.spot.rest.length < p.tokens.bound + 1 := Nat.lt_succ_of_le (Parser.length_spot_le p)
    obtain ⟨ss, rfl, htokens, hss, hclosed, hjournal⟩ :=
      Parser.statements_noted rfl hlevels hfuel hstatements
    obtain ⟨l, hdone⟩ := s.drain_of_parse h
    refine ⟨ss, span, rfl, ?_, hss, hclosed, ?_⟩
    · rw [tokens_eq, hdone, ← htokens]
      rfl
    · rw [hread, hjournal, List.length_map]
      rfl
  · rw [hread] at hresult
    cases hresult

/-- The journal of a source that is not read: the tokens up to the one to blame, those up to the end, or those
before the place where scanning fails. -/
theorem journal_of_failure {e : Failure} (h : s.parse o = .error e) :
    (∀ count file, .finished count file ∉ (s.read o).journal) ∧
    ((∃ cause t l ts us, e = .grammar cause (some t) l ∧ (drain s.scanner).1 = ts ++ t :: us ∧
        (s.read o).scanned = ts ++ [t]) ∨
      (∃ cause l, e = .grammar cause none l ∧ s.tokens = .ok (s.read o).scanned) ∨
      ∃ cause l, e = .lexical cause l ∧ s.tokens = .error e ∧ (s.read o).scanned = (drain s.scanner).1) := by
  have hresult : (s.read o).result = .error e := h
  obtain ⟨body, span, q, -, hread⟩ | ⟨e', q, hstatements, hread⟩ := s.read_cases o
  · rw [hread] at hresult
    cases hresult
  · rw [hread] at hresult
    cases hresult
    let p : Parser Scanner := .ofSource s.scanner
    have hjournals : Parser.Journals (fun n => ∀ count file, n ≠ .finished count file)
        (Parser.statements (σ := Scanner) o (p.tokens.bound + 1)) :=
      .statements (fun _ _ _ => nofun) (fun _ _ _ => nofun) _
    have hout := hjournals p (.of_none rfl)
    rw [hstatements] at hout
    -- The journal was empty at the start.
    have hstart {left : List Token × Ending}
        (hnoted : p.Noted (fun n => ∀ count file, n ≠ .finished count file) q.journal left) :
        (∀ count file, .finished count file ∉ q.journal) ∧
          drain s.scanner = (q.scanned ++ left.1, left.2) := by
      obtain ⟨notes, hq, hnotes, hdrain⟩ := hnoted
      obtain rfl : q.journal = notes := hq
      exact ⟨fun count file hmem => hnotes _ hmem count file rfl, hdrain⟩
    have hscanned : (s.read o).scanned = q.scanned := congrArg Reading.scanned hread
    rw [hscanned, hread, tokens_eq]
    cases hout with
    | @found cause t l _ left hnoted hlast =>
      obtain ⟨hunfinished, hdrain⟩ := hstart hnoted
      obtain ⟨ts, hts⟩ := List.getLast?_eq_some_iff.mp hlast
      refine ⟨hunfinished, .inl ⟨cause, t, l, ts, left.1, rfl, ?_, hts⟩⟩
      rw [hdrain, hts, List.append_assoc]
      rfl
    | @ended cause l finish _ hnoted =>
      obtain ⟨hunfinished, hdrain⟩ := hstart hnoted
      refine ⟨hunfinished, .inr (.inl ⟨cause, l, rfl, ?_⟩)⟩
      rw [hdrain, List.append_nil]
    | broken hnoted =>
      obtain ⟨hunfinished, hdrain⟩ := hstart hnoted
      obtain ⟨cause, l, rfl⟩ := Scanner.drain_failed s.scanner _ (congrArg Prod.snd hdrain)
      refine ⟨hunfinished, .inr (.inr ⟨cause, l, rfl, ?_, ?_⟩)⟩
      · rw [hdrain]
      · rw [hdrain, List.append_nil]
    | misused =>
      have hfault := (s.parse_fails o).1
      rw [h] at hfault
      obtain ⟨f, hf, -⟩ := hfault
      cases hf

/-- The journal of a reading. If a program is read, its statements are noted one behind the other, and then
their number; so every token of the source is noted, once and in order. If reading fails, the tokens are noted
up to the one to blame, or all of them if it fails at the end, or all before the place where scanning fails, and
no number of statements is. -/
theorem journal_of_read :
    (∀ n, s.parse o = .ok n → s.tokens = .ok (s.read o).scanned ∧ ∃ (ss : List Statement) (span : Option Span),
      n = .program (ss.map Statement.node) span ∧ s.tokens = .ok (ss.flatMap Statement.tokens) ∧
      (∀ st ∈ ss, st.IsRead o) ∧ (∀ st ∈ ss.dropLast, st.closing.isSome = true) ∧
      (s.read o).journal = ss.flatMap Statement.notes ++ [.finished ss.length s.file]) ∧
    ∀ e, s.parse o = .error e → (∀ count file, .finished count file ∉ (s.read o).journal) ∧
      ((∃ cause t l ts us, e = .grammar cause (some t) l ∧ (drain s.scanner).1 = ts ++ t :: us ∧
          (s.read o).scanned = ts ++ [t]) ∨
        (∃ cause l, e = .grammar cause none l ∧ s.tokens = .ok (s.read o).scanned) ∨
        ∃ cause l, e = .lexical cause l ∧ s.tokens = .error e ∧ (s.read o).scanned = (drain s.scanner).1) := by
  refine ⟨fun n h => ?_, fun e h => s.journal_of_failure o h⟩
  obtain ⟨ss, span, hn, htokens, hss, hclosed, hjournal⟩ := s.journal_of_parse o h
  have hscanned : (s.read o).scanned = ss.flatMap Statement.tokens := by
    rw [Reading.scanned, hjournal, List.filterMap_append, List.filterMap_flatMap]
    simp only [Statement.scanned_notes]
    exact List.append_nil _
  exact ⟨hscanned ▸ htokens, ss, span, hn, htokens, hss, hclosed, hjournal⟩

/-- Of two statements the first ends with a call of a call. A source with two expressions that no semicolon
separates is not read. -/
theorem journal_of_read_calls :
    let s : Source := ⟨"f(a)(b);c", "x", false⟩
    let s' : Source := ⟨"a;b c;d", "x", false⟩
    (s.tokens = .ok (s.read {}).scanned ∧ ∃ ss : List Statement, (∀ st ∈ ss, st.IsRead {}) ∧
      (s.read {}).journal = ss.flatMap Statement.notes ++ [.finished ss.length "x"]) ∧
    ∃ e, s'.parse {} = .error e ∧ ∀ count file, .finished count file ∉ (s'.read {}).journal := by
  intro s s'
  have hok : (s.parse {}).isOk = true := by decide +kernel
  have hfails : (s'.parse {}).isOk = false := by decide +kernel
  obtain ⟨hread, -⟩ := s.journal_of_read {}
  obtain ⟨-, hfailure⟩ := s'.journal_of_read {}
  constructor
  · cases hparse : s.parse {} with
    | error e => rw [hparse] at hok; cases hok
    | ok n =>
      obtain ⟨htokens, ss, span, -, -, hss, -, hjournal⟩ := hread n hparse
      exact ⟨htokens, ss, hss, hjournal⟩
  · cases hparse : s'.parse {} with
    | ok n => rw [hparse] at hfails; cases hfails
    | error e => exact ⟨e, rfl, (hfailure e hparse).1⟩

/-- A statement is not always noted right behind its semicolon or the last token. -/
theorem noted_before_semicolon :
    ¬∀ (s : Source) (o : ParseOptions) (n : Node) (ts : List Token) (front back : List Note) (note : Note)
      (kind : NodeKind), s.parse o = .ok n → s.tokens = .ok ts →
      (s.read o).journal = front ++ note :: .parsed kind :: back →
      ∃ t, note = .scanned t ∧ (t.is .punctuation ";" = true ∨ ts.getLast? = some t) := by
  intro h
  let s : Source := ⟨"f(a)(b);c", "x", false⟩
  let ts : List Token := [.plain .identifier "f" ⟨"x", 1, 0, 0⟩, .plain .punctuation "(" ⟨"x", 1, 1, 1⟩,
    .plain .identifier "a" ⟨"x", 1, 2, 2⟩, .plain .punctuation ")" ⟨"x", 1, 3, 3⟩,
    .plain .punctuation "(" ⟨"x", 1, 4, 4⟩, .plain .identifier "b" ⟨"x", 1, 5, 5⟩]
  let t : Token := .plain .punctuation ")" ⟨"x", 1, 6, 6⟩
  let us : List Token := [.plain .punctuation ";" ⟨"x", 1, 7, 7⟩, .plain .identifier "c" ⟨"x", 1, 8, 8⟩]
  have hok : (s.parse {}).isOk = true := by decide +kernel
  have htokens : s.tokens = .ok (ts ++ t :: us) := by decide +kernel
  have hjournal : (s.read {}).journal = ts.map .scanned ++ .scanned t :: .parsed .call ::
      (us.map .scanned ++ [.parsed .reference, .finished 2 "x"]) := by decide +kernel
  cases hparse : s.parse {} with
  | error e => rw [hparse] at hok; cases hok
  | ok n =>
    obtain ⟨u, hu, hplace⟩ := h s {} n _ _ _ _ _ hparse htokens hjournal
    cases hu
    exact absurd hplace (by decide)

end Source
end LambdaReader
