/-!
# `Datum` — values as plain data

A datum is what a tree or a token is written as for other programs: atoms, lists, and records whose
fields have an order.

## Contents
- `Datum`;
- `Datum.field?`, the value of a record's field.
-/

namespace LambdaReader

/-- Plain data. -/
inductive Datum where
  | number (value : Float)
  | integer (value : Int)
  | text (value : String)
  | flag (value : Bool)
  | list (items : List Datum)
  | record (fields : List (String × Datum))
deriving Inhabited

namespace Datum

/-- The value of the first field of that name. -/
def field? (name : String) : Datum → Option Datum
  | record fields => (fields.find? fun f => f.1 == name).map Prod.snd
  | _ => none

end Datum
end LambdaReader
