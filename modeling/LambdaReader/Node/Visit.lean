import LambdaReader.Node.Basic

/-!
# `Node.Visit` — going through a tree by kind

A visitor handles some kinds of node and has one answer for the rest. `visits` is the visitor that
records what it meets: a node it handles is recorded whole and not entered, any other only by its
kind, and then its children follow.

## Contents
- `Visitor` and `Node.accept`;
- `Visit` and `Node.visits`.
-/

namespace LambdaReader

/-- What to do with a node. -/
structure Visitor (α : Type) where
  /-- The handler of a kind, if it has one. -/
  handler : NodeKind → Option (Node → α)
  /-- For every other node. -/
  generic : Node → α

/-- What a recording visitor meets. -/
inductive Visit where
  | handled (node : Node)
  | entered (kind : NodeKind)

namespace Node

/-- Hands a node to its kind's handler, or else to the generic one. -/
def accept {α : Type} (n : Node) (v : Visitor α) : α :=
  match v.handler n.kind with
  | some handle => handle n
  | none => v.generic n

/-- Records a node whole if its kind is handled; otherwise its kind, then what is below. -/
def recorded (handles : NodeKind → Bool) (n : Node) (below : List Visit) : List Visit :=
  n.accept ⟨fun k => if handles k then some fun n => [.handled n] else none,
    fun n => .entered n.kind :: below⟩

mutual

/-- What a recording visitor meets in a tree. -/
def visits (handles : NodeKind → Bool) : Node → List Visit
  | number v s => recorded handles (number v s) []
  | string v s => recorded handles (string v s) []
  | bool v s => recorded handles (bool v s) []
  | reference n s => recorded handles (reference n s) []
  | operator o s => recorded handles (operator o s) []
  | assign l r s => recorded handles (assign l r s) (visits handles l ++ visits handles r)
  | binary o l r s => recorded handles (binary o l r s) (visits handles l ++ visits handles r)
  | ifThen c p s => recorded handles (ifThen c p s) (visits handles c ++ visits handles p)
  | ifElse c p n s =>
    recorded handles (ifElse c p n s) (visits handles c ++ (visits handles p ++ visits handles n))
  | lambda ps b s => recorded handles (lambda ps b s) (visits handles b)
  | call f args s =>
    recorded handles (call f args s) (visits handles f ++ visitsAll handles args)
  | program body s => recorded handles (program body s) (visitsAll handles body)

/-- What it meets in several trees in turn. -/
def visitsAll (handles : NodeKind → Bool) : List Node → List Visit
  | [] => []
  | n :: ns => visits handles n ++ visitsAll handles ns

end

end Node
end LambdaReader
