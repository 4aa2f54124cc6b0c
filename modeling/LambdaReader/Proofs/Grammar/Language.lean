import Mathlib.Control.Monad.Basic
import LambdaReader.Proofs.Reads.Adequacy
import LambdaReader.Proofs.Grammar.Sound
import LambdaReader.Proofs.Grammar.Complete

/-!
# `Proofs.Grammar.Language` — the parser accepts the grammar

A source that can be scanned is parsed if and only if its tokens are derived by the grammar, as long as
there are two levels of nesting for each token and one more.
-/

namespace LambdaReader

open Grammar TokenSource

theorem Source.numbered_tokens {s : Source} {ts : List Token} (hts : s.tokens = .ok ts) :
    Numbered ts := by
  intro t ht
  rw [← (Source.drain_of_tokens hts).1] at ht
  exact (Scanner.isLexeme_of_mem_drain _ t ht).number?_isSome

/-- The parser accepts exactly the language of the grammar. -/
theorem Source.parse_ok_iff_derives {s : Source} {o : ParseOptions} {ts : List Token}
    (hts : s.tokens = .ok ts) (hdepth : 2 * (ts.length : Int) + 1 ≤ o.maxDepth) :
    (∃ n, s.parse o = .ok n) ↔ Derives o.trailingSeparators [.category .program] ts := by
  obtain ⟨htokens, l, hdone⟩ := Source.drain_of_tokens hts
  have hread := fun e => TokenSource.read_eq_ok_iff (o := o) hdone e
  rw [htokens] at hread
  constructor
  · rintro ⟨n, hn⟩
    obtain ⟨body, s', hbody, _⟩ := (hread n).mp hn
    exact follows_of_reads hbody
  · intro h
    obtain ⟨body, s', hbody⟩ := reads_statements_of_derives (n := o.maxDepth.toNat) (s := ⟨none, ts⟩)
      (Source.numbered_tokens hts) (by simp only; omega) h
    exact ⟨_, (hread _).mpr ⟨body, s', hbody, rfl⟩⟩

/-- Both sides of the law for `if a then f() else b;`. -/
theorem Source.parse_ok_iff_derives_conditional :
    let s : Source := ⟨"if a then f() else b;", "x", false⟩
    let o : ParseOptions := {}
    ∃ ts, s.tokens = .ok ts ∧ 2 * (ts.length : Int) + 1 ≤ o.maxDepth ∧
      ((∃ n, s.parse o = .ok n) ↔ Derives o.trailingSeparators [.category .program] ts) := by
  intro s o
  have hts : s.tokens = .ok
      [.plain .keyword "if" ⟨"x", 1, 0, 0⟩, .plain .identifier "a" ⟨"x", 1, 3, 3⟩,
        .plain .keyword "then" ⟨"x", 1, 5, 5⟩, .plain .identifier "f" ⟨"x", 1, 10, 10⟩,
        .plain .punctuation "(" ⟨"x", 1, 11, 11⟩, .plain .punctuation ")" ⟨"x", 1, 12, 12⟩,
        .plain .keyword "else" ⟨"x", 1, 14, 14⟩, .plain .identifier "b" ⟨"x", 1, 19, 19⟩,
        .plain .punctuation ";" ⟨"x", 1, 20, 20⟩] := by
    decide +kernel
  exact ⟨_, hts, by decide, Source.parse_ok_iff_derives hts (by decide)⟩

end LambdaReader
