import LambdaReader.Node.Basic
import LambdaReader.Datum

/-!
# `Node.Data` — trees as plain data and back

A tree is written as a record of its kind and its fields, without spans; a conditional without a
negative branch has no field for it. Reading accepts what writing produces, whole numbers, and spans
where they are given.

## Contents
- `Node.toDatum`;
- `Node.ofDatum?`.
-/

namespace LambdaReader
namespace Node

/-! ## Writing -/

/-- A record with the kind in front. -/
def tagged (kind : NodeKind) (fields : List (String × Datum)) : Datum :=
  .record (("type", .text kind.label) :: fields)

mutual

/-- The tree as data. -/
def toDatum : Node → Datum
  | number v _ => tagged .number [("value", .number v)]
  | string v _ => tagged .string [("value", .text v)]
  | bool v _ => tagged .bool [("value", .flag v)]
  | reference n _ => tagged .reference [("name", .text n)]
  | operator o _ => tagged .operator [("operator", .text o)]
  | assign l r _ =>
    tagged .assign [("operator", .text assignSymbol), ("left", toDatum l), ("right", toDatum r)]
  | binary o l r _ =>
    tagged .binary [("operator", .text o), ("left", toDatum l), ("right", toDatum r)]
  | ifThen c p _ => tagged .conditional [("cond", toDatum c), ("then", toDatum p)]
  | ifElse c p n _ =>
    tagged .conditional [("cond", toDatum c), ("then", toDatum p), ("else", toDatum n)]
  | lambda ps b _ =>
    tagged .lambda [("params", .list (ps.map Datum.text)), ("body", toDatum b)]
  | call f args _ => tagged .call [("func", toDatum f), ("args", .list (toDatumAll args))]
  | program body _ => tagged .program [("body", .list (toDatumAll body))]

/-- Several trees as data. -/
def toDatumAll : List Node → List Datum
  | [] => []
  | n :: ns => toDatum n :: toDatumAll ns

end

/-! ## Reading -/

/-- A number, whole ones included. -/
def asNumber? : Datum → Option Float
  | .number x => some x
  | .integer n =>
    let size := Decimal.toFloat ⟨n.natAbs, 0⟩
    some (if n < 0 then -size else size)
  | _ => none

def asText? : Datum → Option String
  | .text s => some s
  | _ => none

def asFlag? : Datum → Option Bool
  | .flag b => some b
  | _ => none

def asInteger? : Datum → Option Int
  | .integer n => some n
  | _ => none

def asTexts? : Datum → Option (List String)
  | .list items => items.mapM asText?
  | _ => none

/-- A location from its four fields. -/
def asLocation? (d : Datum) : Option Location := do
  return ⟨← (← d.field? "filename") |> asText?, ← (← d.field? "line") |> asInteger?,
    ← (← d.field? "column") |> asInteger?, ← (← d.field? "offset") |> asInteger?⟩

/-- A span from its two ends. -/
def asSpan? (d : Datum) : Option Span := do
  return ⟨← (← d.field? "start") |> asLocation?, ← (← d.field? "end") |> asLocation?⟩

/-- A field of a record together with the trees that were read from it. -/
structure Part where
  datum : Datum
  node : Option Node
  nodes : Option (List Node)

/-- The field of a name. -/
def part? (parts : List (String × Part)) (name : String) : Option Part :=
  (parts.find? fun p => p.1 == name).map Prod.snd

/-- A tree from the fields of its record. -/
def ofParts? (parts : List (String × Part)) : Option Node := do
  let datum (name : String) := (part? parts name).map Part.datum
  let node (name : String) := (part? parts name).bind Part.node
  let nodes (name : String) := (part? parts name).bind Part.nodes
  let span := (datum "span").bind asSpan?
  match ← NodeKind.ofLabel? (← (datum "type").bind asText?) with
  | .number => return number (← (datum "value").bind asNumber?) span
  | .string => return string (← (datum "value").bind asText?) span
  | .bool => return bool (← (datum "value").bind asFlag?) span
  | .reference => return reference (← (datum "name").bind asText?) span
  | .operator => return operator (← (datum "operator").bind asText?) span
  | .assign => return assign (← node "left") (← node "right") span
  | .binary =>
    return binary (← (datum "operator").bind asText?) (← node "left") (← node "right") span
  | .conditional =>
    match node "else" with
    | none => return ifThen (← node "cond") (← node "then") span
    | some negative => return ifElse (← node "cond") (← node "then") negative span
  | .lambda => return lambda (← (datum "params").bind asTexts?) (← node "body") span
  | .call => return call (← node "func") (← nodes "args") span
  | .program => return program (← nodes "body") span

mutual

/-- Reads all trees in a value. -/
def read : Datum → Part
  | .record fields => ⟨.record fields, ofParts? (readFields fields), none⟩
  | .list items => ⟨.list items, none, readAll items⟩
  | .number x => ⟨.number x, none, none⟩
  | .integer n => ⟨.integer n, none, none⟩
  | .text s => ⟨.text s, none, none⟩
  | .flag b => ⟨.flag b, none, none⟩

/-- Reads a list whose members are all trees. -/
def readAll : List Datum → Option (List Node)
  | [] => some []
  | d :: ds =>
    match (read d).node, readAll ds with
    | some n, some ns => some (n :: ns)
    | _, _ => none

/-- Reads the fields of a record. -/
def readFields : List (String × Datum) → List (String × Part)
  | [] => []
  | (name, d) :: rest => (name, read d) :: readFields rest

end

/-- The tree that data stand for, if they stand for one. -/
def ofDatum? (d : Datum) : Option Node := (read d).node

end Node
end LambdaReader
