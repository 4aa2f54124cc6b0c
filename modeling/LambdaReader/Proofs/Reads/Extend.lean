import LambdaReader.Proofs.Reads.Adequacy

/-!
# `Proofs.Reads.Extend` — readings before more tokens

Two more laws of readings. What is read up to the end of the tokens is read as the same before a token that
no expression goes on with, such as a mark that closes or separates. And an expression is read in one way
only, since the parser that `Reads` describes is a function.
-/

namespace LambdaReader

open Spot TokenSource

/-! ## Before a token that ends an expression -/

/-- No expression goes on with the token: it opens no call, is no operator and no `else`. -/
structure Token.Ends (t : Token) : Prop where
  not_call : t.is .punctuation "(" = false
  not_operator : t.kind ≠ .operator
  not_else : t.is .keyword "else" = false

/-- A mark of punctuation that opens no call. -/
def Token.Closes (t : Token) : Prop := t.kind = .punctuation ∧ t.is .punctuation "(" = false

theorem Token.closes_of_is {t : Token} {x : String} (h : t.is .punctuation x = true) (hx : x ≠ "(") :
    t.Closes := by
  refine ⟨Token.kind_of_is h, ?_⟩
  rw [Token.is_eq h]
  simp [hx]

theorem Token.Closes.ends {t : Token} (h : t.Closes) : t.Ends where
  not_call := h.2
  not_operator := by simp [h.1]
  not_else := by simp [Token.is, h.1]

/-- The keyword behind a condition ends it. -/
theorem Token.ends_of_then {t : Token} (h : t.is .keyword "then" = true) : t.Ends where
  not_call := by simp [Token.is_eq h]
  not_operator := by
    rw [Token.kind_of_is h]
    decide
  not_else := by simp [Token.is_eq h]

/-- A task that stops before the end of the tokens. -/
def Task.Inner : Task → Prop
  | statements _ => False
  | _ => True

namespace Spot

/-- The place with more tokens behind those that are left. -/
def extend (s : Spot) (ts : List Token) : Spot := ⟨s.last, s.rest ++ ts⟩

variable {s s' : Spot} {kind : TokenKind} {x : String} {t : Token} {ts : List Token}

theorem Passes.extend (h : s.Passes kind x s') (ts : List Token) :
    (s.extend ts).Passes kind x (s'.extend ts) := by
  obtain ⟨ht⟩ := h
  exact ⟨ht⟩

theorem Names.extend (h : s.Names x s') (ts : List Token) : (s.extend ts).Names x (s'.extend ts) := by
  obtain ⟨ht⟩ := h
  exact ⟨ht⟩

theorem isAt_extend (h : s.isAt kind x = true) (ts : List Token) : (s.extend ts).isAt kind x = true := by
  obtain ⟨last, _ | ⟨u, rest⟩⟩ := s
  · cases h
  · exact h

theorem Then.extend (h : s.Then s') (ts : List Token) : (s.extend ts).Then (s'.extend ts) := by
  cases h with
  | block h => exact .block (isAt_extend h ts)
  | word h => exact .word (h.extend ts)

/-- What does not come next does not come next either if `t` follows, unless `t` is that. -/
theorem isAt_extend_cons (h : s.isAt kind x = false) (ht : t.is kind x = false) :
    (s.extend (t :: ts)).isAt kind x = false := by
  obtain ⟨last, _ | ⟨u, rest⟩⟩ := s
  · exact ht
  · exact h

theorem not_tighter_extend {bound : Int} (h : ¬s.Tighter bound) (ht : t.kind ≠ .operator) :
    ¬(s.extend (t :: ts)).Tighter bound := by
  rintro ⟨u, hu, htight⟩
  obtain ⟨last, _ | ⟨v, rest⟩⟩ := s
  · obtain rfl := Option.some.inj hu
    exact ht htight.1
  · exact h ⟨u, hu, htight⟩

theorem Passes.spanTo_extend {s₁ : Spot} (h : s.Passes kind x s₁) (s' : Spot) (ts : List Token) :
    s.spanTo s' = (s.extend ts).spanTo (s'.extend ts) := by
  obtain ⟨_⟩ := h
  rfl

end Spot

theorem Sequence.extend {α : Type} {o : ParseOptions} {item : Spot → α → Spot → Prop}
    {stop separator : String} {first : Bool} {s s' : Spot} {xs : List α} (ts : List Token)
    (hitem : ∀ {s x s'}, item s x s' → item (s.extend ts) x (s'.extend ts))
    (h : Sequence o item stop separator first s xs s') :
    Sequence o item stop separator first (s.extend ts) xs (s'.extend ts) := by
  induction h with
  | close hstop => exact .close (hstop.extend ts)
  | trailing ho hsep hstop => exact .trailing ho (hsep.extend ts) (hstop.extend ts)
  | first hx _ ih => exact .first (hitem hx) ih
  | more hsep hx _ ih => exact .more (hsep.extend ts) (hitem hx) ih

/-- What is read is read as the same if a token that no expression goes on with follows the tokens. -/
theorem Reads.extend {o : ParseOptions} {task : Task} {s s' : Spot} {ns : List Node}
    (h : Reads o task s ns s') (htask : task.Inner) {t : Token} (ht : t.Ends) (ts : List Token) :
    Reads o task (s.extend (t :: ts)) ns (s'.extend (t :: ts)) := by
  obtain ⟨hcall, hoperator, helse⟩ := ht
  -- Only the rules that say what does not come next can see the token, and it is none of that.
  induction h with
  | done | last | next => exact absurd htask id
  | expression _ _ _ iha iho ihs => exact .expression (iha trivial) (iho trivial) (ihs trivial)
  | operand _ _ iha iho => exact .operand (iha trivial) (iho trivial)
  | settled h => exact .settled (not_tighter_extend h hoperator)
  | fold htight _ _ ihr iho => exact .fold htight (ihr trivial) (iho trivial)
  | atom _ _ ihp ihs => exact .atom (ihp trivial) (ihs trivial)
  | bare h => exact .bare (isAt_extend_cons h hcall)
  | call hopen _ ih => exact .call (hopen.extend _) (ih trivial)
  | group hopen _ hstop ih => exact .group (hopen.extend _) (ih trivial) (hstop.extend _)
  | @block n s s₁ s₂ body hopen _ ih =>
    rw [hopen.spanTo_extend s₂ (t :: ts)]
    exact .block (hopen.extend _) (ih trivial)
  | @ifThen n s s₁ s₂ s₃ s₄ c p hif _ hthen _ hnot ihc ihp =>
    rw [hif.spanTo_extend s₄ (t :: ts)]
    exact .ifThen (hif.extend _) (ihc trivial) (hthen.extend _) (ihp trivial) (isAt_extend_cons hnot helse)
  | @ifElse n s s₁ s₂ s₃ s₄ s₅ s₆ c p q hif _ hthen _ hword _ ihc ihp ihq =>
    rw [hif.spanTo_extend s₆ (t :: ts)]
    exact .ifElse (hif.extend _) (ihc trivial) (hthen.extend _) (ihp trivial) (hword.extend _) (ihq trivial)
  | @lambda n s s₁ s₂ s₃ s₄ params b hword hopen hparams _ ihb =>
    rw [hword.spanTo_extend s₄ (t :: ts)]
    exact .lambda (hword.extend _) (hopen.extend _) (hparams.extend _ fun hx => hx.extend _) (ihb trivial)
  | @truth n s s₁ b h =>
    rw [h.spanTo_extend s₁ (t :: ts)]
    exact .truth (h.extend _)
  | leaf hleaf => exact .leaf hleaf
  | seqClose hstop => exact .seqClose (hstop.extend _)
  | seqTrailing ho hsep hstop => exact .seqTrailing ho (hsep.extend _) (hstop.extend _)
  | seqFirst _ _ ihe ih => exact .seqFirst (ihe trivial) (ih trivial)
  | seqMore hsep _ _ ihe ih => exact .seqMore (hsep.extend _) (ihe trivial) (ih trivial)

/-! ## Expressions are read in one way -/

/-- A record that ends gives its tokens. -/
theorem Replay.drain_done (ts : List Token) (l : Location) :
    ∀ l', drain (⟨ts, .done l, l'⟩ : Replay) = (ts, .done l) := by
  induction ts with
  | nil => intro l'; rfl
  | cons t ts ih =>
    intro l'
    have hscan : scan (⟨t :: ts, .done l, l'⟩ : Replay) = .ok (some t) (⟨ts, .done l, t.stop⟩ : Replay) := rfl
    rw [drain_some hscan, ih]

/-- A parser at a place, over a record of the tokens from there on that ends. -/
def Spot.parser (s : Spot) : Parser Replay :=
  ⟨⟨⟨s.rest, .done (.start ""), .start ""⟩, none, #[]⟩, s.last, 0⟩

theorem Spot.drain_parser (s : Spot) : drain s.parser.tokens.source = (s.rest, .done (.start "")) :=
  Replay.drain_done s.rest _ _

theorem Spot.spot_parser (s : Spot) : s.parser.spot = s := by
  rw [Parser.spot, Spot.drain_parser]
  rfl

/-- What is read at a place as an expression is a run of the parser there. -/
theorem Reads.run {o : ParseOptions} {n : Nat} {s s' : Spot} {e : Node}
    (h : Reads o (.expression n) s [e] s') :
    ∃ p', Parser.expression { o with maxDepth := n } s.parser = .ok e p' ∧ p'.spot = s' := by
  have hlevels : s.parser.levels { o with maxDepth := n } = n := by
    show ((n : Int) - (0 : Nat)).toNat = n
    omega
  have hend : s.parser.Unfailing := ⟨_, by rw [Spot.drain_parser]⟩
  exact (Parser.expression_exact s).complete hlevels s.spot_parser (h.limit n) fun _ => hend

/-- From one place one expression is read, up to one place, whatever levels are left. -/
theorem Reads.expression_unique {o : ParseOptions} {n m : Nat} {s s₁ s₂ : Spot} {a b : Node}
    (h : Reads o (.expression n) s [a] s₁) (h' : Reads o (.expression m) s [b] s₂) :
    a = b ∧ s₁ = s₂ := by
  -- With as many levels as both need, the parser at this place ends in both ways.
  have ha := h.relax m o.maxDepth
  have hb := h'.relax n o.maxDepth
  rw [Task.raise] at ha hb
  rw [Nat.add_comm n m] at hb
  obtain ⟨p₁, hrun₁, rfl⟩ := Reads.run ha
  obtain ⟨p₂, hrun₂, rfl⟩ := Reads.run hb
  cases hrun₁.symm.trans hrun₂
  exact ⟨rfl, rfl⟩

end LambdaReader
