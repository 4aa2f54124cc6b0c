import LambdaReader.Node.Basic

/-!
# `Node.Equality` — when two trees are the same

Two trees are the same if they agree in everything but their spans, with numbers compared as numbers:
zero has one value whatever its sign, and a missing number is not the same as any.

## Contents
- `Node.same`, which is the `==` of trees;
- `Node.hashCode`, equal for trees that are the same.
-/

namespace LambdaReader
namespace Node

mutual

/-- Agreement in all but the spans. -/
def same : Node → Node → Bool
  | number v _, number w _ => v == w
  | string v _, string w _ => v == w
  | bool v _, bool w _ => v == w
  | reference v _, reference w _ => v == w
  | operator v _, operator w _ => v == w
  | assign l r _, assign l' r' _ => same l l' && same r r'
  | binary o l r _, binary o' l' r' _ => o == o' && same l l' && same r r'
  | ifThen c p _, ifThen c' p' _ => same c c' && same p p'
  | ifElse c p n _, ifElse c' p' n' _ => same c c' && same p p' && same n n'
  | lambda ps b _, lambda ps' b' _ => ps == ps' && same b b'
  | call f args _, call f' args' _ => same f f' && sameAll args args'
  | program body _, program body' _ => sameAll body body'
  | _, _ => false

/-- Agreement one by one. -/
def sameAll : List Node → List Node → Bool
  | [], [] => true
  | n :: ns, m :: ms => same n m && sameAll ns ms
  | _, _ => false

end

instance : BEq Node := ⟨same⟩

/-- A hash by the value of a number; both zeros have the same. -/
def numberHash (x : Float) : UInt64 := if x == 0 then 0 else hash x.toBits

mutual

/-- A hash that ignores spans. -/
def hashCode : Node → UInt64
  | number v _ => mixHash 1 (numberHash v)
  | string v _ => mixHash 2 (hash v)
  | bool v _ => mixHash 3 (hash v)
  | reference v _ => mixHash 4 (hash v)
  | operator v _ => mixHash 5 (hash v)
  | assign l r _ => mixHash 6 (mixHash (hashCode l) (hashCode r))
  | binary o l r _ => mixHash 7 (mixHash (hash o) (mixHash (hashCode l) (hashCode r)))
  | ifThen c p _ => mixHash 8 (mixHash (hashCode c) (hashCode p))
  | ifElse c p n _ => mixHash 9 (mixHash (hashCode c) (mixHash (hashCode p) (hashCode n)))
  | lambda ps b _ => mixHash 10 (mixHash (hash ps) (hashCode b))
  | call f args _ => mixHash 11 (mixHash (hashCode f) (hashAll args))
  | program body _ => mixHash 12 (hashAll body)

/-- A hash of several trees in order. -/
def hashAll : List Node → UInt64
  | [] => 7
  | n :: ns => mixHash (hashCode n) (hashAll ns)

end

instance : Hashable Node := ⟨hashCode⟩

end Node
end LambdaReader
