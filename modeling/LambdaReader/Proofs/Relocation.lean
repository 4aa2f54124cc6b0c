import LambdaReader.Failure
import LambdaReader.Node.Basic

/-!
# `Proofs.Relocation` — the same text in another place

Tokens, spans, trees and failures carry locations. `relocate f` changes every location in them by `f`
and nothing else, and `bare` drops the spans of a tree altogether. Two readings that agree up to
locations are compared through `relocate`; trees that are the same but for their spans have the same
`bare`.
-/

namespace LambdaReader

/-- The token in another place. -/
def Token.relocate (f : Location → Location) (t : Token) : Token := { t with location := f t.location }

/-- The span in another place. -/
def Span.relocate (f : Location → Location) (s : Span) : Span := ⟨f s.first, f s.last⟩

/-- The failure in another place. -/
def Failure.relocate (f : Location → Location) : Failure → Failure
  | lexical cause l => lexical cause (f l)
  | grammar cause found l => grammar cause (found.map (Token.relocate f)) (f l)
  | misuse m => misuse m

namespace Token

variable (f : Location → Location) (t : Token)

@[simp] theorem relocate_kind : (t.relocate f).kind = t.kind := rfl
@[simp] theorem relocate_text : (t.relocate f).text = t.text := rfl
@[simp] theorem relocate_hasText (s : String) : (t.relocate f).hasText s = t.hasText s := rfl
@[simp] theorem relocate_number? : (t.relocate f).number? = t.number? := rfl

end Token

@[simp] theorem Failure.relocate_id (e : Failure) : e.relocate id = e := by
  cases e with
  | lexical cause l => rfl
  | grammar cause found l => cases found <;> rfl
  | misuse m => rfl

namespace Node

mutual

/-- The tree in another place. -/
def relocate (f : Location → Location) : Node → Node
  | number v s => number v (s.map (Span.relocate f))
  | string v s => string v (s.map (Span.relocate f))
  | bool v s => bool v (s.map (Span.relocate f))
  | reference n s => reference n (s.map (Span.relocate f))
  | operator o s => operator o (s.map (Span.relocate f))
  | assign l r s => assign (relocate f l) (relocate f r) (s.map (Span.relocate f))
  | binary o l r s => binary o (relocate f l) (relocate f r) (s.map (Span.relocate f))
  | ifThen c p s => ifThen (relocate f c) (relocate f p) (s.map (Span.relocate f))
  | ifElse c p n s =>
    ifElse (relocate f c) (relocate f p) (relocate f n) (s.map (Span.relocate f))
  | lambda ps b s => lambda ps (relocate f b) (s.map (Span.relocate f))
  | call g args s => call (relocate f g) (relocateAll f args) (s.map (Span.relocate f))
  | program body s => program (relocateAll f body) (s.map (Span.relocate f))

/-- Several trees in another place. -/
def relocateAll (f : Location → Location) : List Node → List Node
  | [] => []
  | n :: ns => relocate f n :: relocateAll f ns

end

mutual

/-- The tree without spans. -/
def bare : Node → Node
  | number v _ => number v none
  | string v _ => string v none
  | bool v _ => bool v none
  | reference n _ => reference n none
  | operator o _ => operator o none
  | assign l r _ => assign (bare l) (bare r) none
  | binary o l r _ => binary o (bare l) (bare r) none
  | ifThen c p _ => ifThen (bare c) (bare p) none
  | ifElse c p n _ => ifElse (bare c) (bare p) (bare n) none
  | lambda ps b _ => lambda ps (bare b) none
  | call g args _ => call (bare g) (bareAll args) none
  | program body _ => program (bareAll body) none

/-- Several trees without spans. -/
def bareAll : List Node → List Node
  | [] => []
  | n :: ns => bare n :: bareAll ns

end

@[simp] theorem span_relocate (f : Location → Location) (n : Node) :
    (n.relocate f).span = n.span.map (Span.relocate f) := by
  cases n <;> rfl

private theorem map_relocate_id (s : Option Span) : s.map (Span.relocate id) = s := by
  cases s <;> rfl

mutual

@[simp] theorem relocate_id : ∀ n : Node, n.relocate id = n
  | number v s => by rw [relocate, map_relocate_id]
  | string v s => by rw [relocate, map_relocate_id]
  | bool v s => by rw [relocate, map_relocate_id]
  | reference n s => by rw [relocate, map_relocate_id]
  | operator o s => by rw [relocate, map_relocate_id]
  | assign l r s => by rw [relocate, map_relocate_id, relocate_id l, relocate_id r]
  | binary o l r s => by rw [relocate, map_relocate_id, relocate_id l, relocate_id r]
  | ifThen c p s => by rw [relocate, map_relocate_id, relocate_id c, relocate_id p]
  | ifElse c p n s => by
    rw [relocate, map_relocate_id, relocate_id c, relocate_id p, relocate_id n]
  | lambda ps b s => by rw [relocate, map_relocate_id, relocate_id b]
  | call g args s => by rw [relocate, map_relocate_id, relocate_id g, relocateAll_id args]
  | program body s => by rw [relocate, map_relocate_id, relocateAll_id body]

theorem relocateAll_id : ∀ ns : List Node, relocateAll id ns = ns
  | [] => rfl
  | n :: ns => by rw [relocateAll, relocate_id n, relocateAll_id ns]

end

/-! ## Without spans -/

mutual

@[simp] theorem bare_relocate (f : Location → Location) : ∀ n : Node, (n.relocate f).bare = n.bare
  | number v s | string v s | bool v s | reference n s | operator o s => rfl
  | assign l r s => by rw [relocate, bare, bare, bare_relocate f l, bare_relocate f r]
  | binary o l r s => by rw [relocate, bare, bare, bare_relocate f l, bare_relocate f r]
  | ifThen c p s => by rw [relocate, bare, bare, bare_relocate f c, bare_relocate f p]
  | ifElse c p n s => by
    rw [relocate, bare, bare, bare_relocate f c, bare_relocate f p, bare_relocate f n]
  | lambda ps b s => by rw [relocate, bare, bare, bare_relocate f b]
  | call g args s => by rw [relocate, bare, bare, bare_relocate f g, bareAll_relocateAll f args]
  | program body s => by rw [relocate, bare, bare, bareAll_relocateAll f body]

theorem bareAll_relocateAll (f : Location → Location) :
    ∀ ns : List Node, bareAll (relocateAll f ns) = bareAll ns
  | [] => rfl
  | n :: ns => by rw [relocateAll, bareAll, bareAll, bare_relocate f n, bareAll_relocateAll f ns]

end

theorem bareAll_append (ns ms : List Node) : bareAll (ns ++ ms) = bareAll ns ++ bareAll ms := by
  induction ns with
  | nil => rfl
  | cons n ns ih => rw [List.cons_append, bareAll, bareAll, ih, List.cons_append]

end Node
end LambdaReader
