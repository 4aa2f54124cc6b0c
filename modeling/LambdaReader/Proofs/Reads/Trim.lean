import Mathlib.Data.List.DropRight
import LambdaReader.Proofs.Reads.Extend

/-!
# `Proofs.Reads.Trim` — readings before fewer tokens

What is read before some tokens is read as the same if some of them are missing at the end: no rule asks
for a token behind its own, and what a rule forbids to come next does not come at the end either. So a
stretch of tokens that gives a node gives it alone as well.

## Main result
- `Reads.before`: a reading before the front part of what was left.
-/

namespace LambdaReader

open Spot

namespace Spot

/-! ## Places before fewer tokens -/

/-- The place without the last `k` tokens. -/
def trim (k : Nat) (s : Spot) : Spot := ⟨s.last, s.rest.rdrop k⟩

variable {s s' : Spot} {kind : TokenKind} {x : String} {k : Nat}

theorem trim_cons {last : Option Token} {t : Token} {rest : List Token} (hk : k ≤ rest.length) :
    trim k ⟨last, t :: rest⟩ = ⟨last, t :: rest.rdrop k⟩ := by
  rw [trim, List.rdrop, List.rdrop, List.length_cons, Nat.sub_add_comm hk, List.take_succ_cons]

/-- What comes next is the same, or there is nothing any more. -/
theorem head?_trim (k : Nat) (s : Spot) :
    (s.trim k).rest.head? = s.rest.head? ∨ (s.trim k).rest.head? = none := by
  have hbefore : (s.trim k).rest <+: s.rest := List.take_prefix _ _
  obtain ⟨more, hmore⟩ := hbefore
  cases hrest : (s.trim k).rest with
  | nil => exact .inr rfl
  | cons t rest =>
    rw [hrest] at hmore
    rw [← hmore]
    exact .inl rfl

theorem Passes.length_eq (h : s.Passes kind x s') : s.rest.length = s'.rest.length + 1 := by
  obtain ⟨_⟩ := h
  rfl

theorem Passes.trim (h : s.Passes kind x s') (hk : k ≤ s'.rest.length) :
    (s.trim k).Passes kind x (s'.trim k) := by
  obtain ⟨ht⟩ := h
  rw [trim_cons hk]
  exact ⟨ht⟩

theorem Names.trim (h : s.Names x s') (hk : k ≤ s'.rest.length) : (s.trim k).Names x (s'.trim k) := by
  obtain ⟨ht⟩ := h
  rw [trim_cons hk]
  exact ⟨ht⟩

theorem isAt_trim (h : s.isAt kind x = true) (hk : k < s.rest.length) :
    (s.trim k).isAt kind x = true := by
  obtain ⟨last, _ | ⟨t, rest⟩⟩ := s
  · cases h
  · rw [trim_cons (Nat.le_of_lt_succ hk)]
    exact h

theorem not_isAt_trim (h : s.isAt kind x = false) (k : Nat) : (s.trim k).isAt kind x = false := by
  rw [isAt]
  rcases head?_trim k s with hhead | hhead
  · rw [hhead]
    exact h
  · rw [hhead]
    rfl

theorem not_tighter_trim {bound : Int} (h : ¬s.Tighter bound) (k : Nat) : ¬(s.trim k).Tighter bound := by
  rintro ⟨t, ht, htight⟩
  rcases head?_trim k s with hhead | hhead
  · exact h ⟨t, hhead.symm.trans ht, htight⟩
  · cases hhead.symm.trans ht

theorem Then.length_le (h : s.Then s') : s'.rest.length ≤ s.rest.length := by
  cases h with
  | block => exact Nat.le_refl _
  | word h => rw [h.length_eq]; exact Nat.le_succ _

theorem Then.trim (h : s.Then s') (hk : k < s'.rest.length) : (s.trim k).Then (s'.trim k) := by
  cases h with
  | block h => exact .block (isAt_trim h hk)
  | word h => exact .word (h.trim (Nat.le_of_lt hk))

theorem Passes.spanTo_trim {s₁ : Spot} (h : s.Passes kind x s₁) (s' : Spot) (hk : k ≤ s₁.rest.length) :
    s.spanTo s' = (s.trim k).spanTo (s'.trim k) := by
  obtain ⟨_⟩ := h
  rw [trim_cons hk]
  rfl

end Spot

/-! ## Readings before fewer tokens -/

variable {o : ParseOptions} {task : Task} {s s' : Spot} {ns : List Node} {k : Nat}

theorem Reads.length_le (h : Reads o task s ns s') : s'.rest.length ≤ s.rest.length := by
  obtain ⟨ts, hts, _⟩ := h.takes
  rw [hts.length]
  exact Nat.le_add_left _ _

theorem Sequence.length_le {stop separator : String} {first : Bool} {xs : List String}
    (h : Sequence o Names stop separator first s xs s') : s'.rest.length ≤ s.rest.length := by
  obtain ⟨ts, hts⟩ := h.takes fun hx => by
    obtain ⟨t, _, _, ht⟩ := hx.takes
    exact ⟨_, ht⟩
  rw [hts.length]
  exact Nat.le_add_left _ _

theorem Sequence.trim {stop separator : String} {first : Bool} {xs : List String}
    (h : Sequence o Names stop separator first s xs s') (hk : k ≤ s'.rest.length) :
    Sequence o Names stop separator first (s.trim k) xs (s'.trim k) := by
  induction h with
  | close hstop => exact .close (hstop.trim hk)
  | trailing ho hsep hstop =>
    exact .trailing ho (hsep.trim (by rw [hstop.length_eq]; omega)) (hstop.trim hk)
  | first hx hxs ih => exact .first (hx.trim (hk.trans hxs.length_le)) (ih hk)
  | more hsep hx hxs ih =>
    have hitem := hk.trans hxs.length_le
    refine .more (hsep.trim ?_) (hx.trim hitem) (ih hk)
    obtain ⟨_⟩ := hx
    exact hitem.trans (Nat.le_succ _)

/-- What is read is read as the same if tokens are missing at the end of what is left. -/
theorem Reads.trim (h : Reads o task s ns s') (htask : task.Inner) (hk : k ≤ s'.rest.length) :
    Reads o task (s.trim k) ns (s'.trim k) := by
  -- Each part leaves what the parts behind it take, so no part misses a token of its own.
  induction h with
  | done | last | next => exact absurd htask id
  | expression _ ho hs iha iho ihs =>
    have hsuffix := hk.trans hs.length_le
    exact .expression (iha trivial (hsuffix.trans ho.length_le)) (iho trivial hsuffix) (ihs trivial hk)
  | operand _ ho iha iho => exact .operand (iha trivial (hk.trans ho.length_le)) (iho trivial hk)
  | settled h => exact .settled (not_tighter_trim h k)
  | fold ht hr ho ihr iho =>
    have hright := hk.trans ho.length_le
    rw [trim_cons (hright.trans hr.length_le)]
    exact .fold ht (ihr trivial hright) (iho trivial hk)
  | atom _ hs ihp ihs => exact .atom (ihp trivial (hk.trans hs.length_le)) (ihs trivial hk)
  | bare h => exact .bare (not_isAt_trim h k)
  | call hopen hargs ih => exact .call (hopen.trim (hk.trans hargs.length_le)) (ih trivial hk)
  | group hopen he hstop ih =>
    have hitem := hk.trans (Nat.le_of_lt (Nat.lt_of_succ_le (Nat.le_of_eq hstop.length_eq.symm)))
    exact .group (hopen.trim (hitem.trans he.length_le)) (ih trivial hitem) (hstop.trim hk)
  | @block n s s₁ s₂ body hopen hbody ih =>
    have hitems := hk.trans hbody.length_le
    rw [hopen.spanTo_trim s₂ hitems]
    exact .block (hopen.trim hitems) (ih trivial hk)
  | @ifThen n s s₁ s₂ s₃ s₄ c p hif hc hthen hp hnot ihc ihp =>
    have hpositive := Nat.lt_of_le_of_lt hk (hp.length_lt trivial)
    have hcondition := (Nat.le_of_lt hpositive).trans hthen.length_le
    have hword := hcondition.trans hc.length_le
    rw [hif.spanTo_trim s₄ hword]
    exact .ifThen (hif.trim hword) (ihc trivial hcondition) (hthen.trim hpositive) (ihp trivial hk)
      (not_isAt_trim hnot k)
  | @ifElse n s s₁ s₂ s₃ s₄ s₅ s₆ c p q hif hc hthen hp helse hq ihc ihp ihq =>
    have hnegative := hk.trans hq.length_le
    have helse' : k ≤ s₄.rest.length := by
      rw [helse.length_eq]
      exact hnegative.trans (Nat.le_succ _)
    have hpositive := Nat.lt_of_le_of_lt helse' (hp.length_lt trivial)
    have hcondition := (Nat.le_of_lt hpositive).trans hthen.length_le
    have hword := hcondition.trans hc.length_le
    rw [hif.spanTo_trim s₆ hword]
    exact .ifElse (hif.trim hword) (ihc trivial hcondition) (hthen.trim hpositive) (ihp trivial helse')
      (helse.trim hnegative) (ihq trivial hk)
  | @lambda n s s₁ s₂ s₃ s₄ params b hword hopen hparams hb ihb =>
    have hbody := hk.trans hb.length_le
    have hlist := hbody.trans hparams.length_le
    have hmark : k ≤ s₁.rest.length := by
      rw [hopen.length_eq]
      exact hlist.trans (Nat.le_succ _)
    rw [hword.spanTo_trim s₄ hmark]
    exact .lambda (hword.trim hmark) (hopen.trim hlist) (hparams.trim hbody) (ihb trivial hk)
  | @truth n s s₁ b h =>
    rw [h.spanTo_trim s₁ hk]
    exact .truth (h.trim hk)
  | leaf hleaf =>
    rw [trim_cons hk]
    exact .leaf hleaf
  | seqClose hstop => exact .seqClose (hstop.trim hk)
  | seqTrailing ho hsep hstop =>
    exact .seqTrailing ho (hsep.trim (by rw [hstop.length_eq]; omega)) (hstop.trim hk)
  | seqFirst _ hes ihe ih => exact .seqFirst (ihe trivial (hk.trans hes.length_le)) (ih trivial hk)
  | seqMore hsep he hes ihe ih =>
    have hitem := hk.trans hes.length_le
    exact .seqMore (hsep.trim (hitem.trans he.length_le)) (ihe trivial hitem) (ih trivial hk)

/-- What is read is read as the same before the front part of what was left. -/
theorem Reads.before (h : Reads o task s ns s') (htask : task.Inner) {ts vs : List Token}
    (hts : s.Takes ts s') (hvs : vs <+: s'.rest) : Reads o task ⟨s.last, ts ++ vs⟩ ns ⟨s'.last, vs⟩ := by
  obtain ⟨more, hmore⟩ := hvs
  have hle : more.length ≤ s'.rest.length := by
    rw [← hmore, List.length_append]
    exact Nat.le_add_left _ _
  have htrim := h.trim htask hle
  have hfront (us : List Token) : (us ++ more).rdrop more.length = us := by
    rw [List.rdrop, List.length_append, Nat.add_sub_cancel, List.take_left]
  rw [Spot.trim, Spot.trim, hts.1, ← hmore, ← List.append_assoc, hfront, hfront] at htrim
  exact htrim

end LambdaReader
