import EntityQuery.Toml.Value

/-!
Tables of a document while it is put together.

A table written with a header or in braces is complete once it is written; one that only came about
as a part of a longer key can still be added to, in the way in which it came about.

* `Node`, `Fields` -- what stands under a key, with how it came about;
* `Fields.add` -- a value under a key with points, which opens tables on its way;
* `Fields.within` -- a change in the table that the keys of a header lead to;
* `Node.toValue`, `fieldValues` -- the values alone.
-/
namespace EntityQuery.Toml

/-- How a table came about: under a header of its own, on the way to a longer header, or on the way
    to a value under a key with points. -/
inductive Origin where
  | header
  | longerHeader
  | dottedKey
  deriving DecidableEq

/-- What stands under a key while a document is put together. -/
inductive Node where
  | value (value : Value)
  | table (origin : Origin) (fields : List (String × Node))
  | tables (rows : List (List (String × Node)))

/-- The nodes of a table by their keys. -/
abbrev Fields := List (String × Node)

namespace Fields

/-- The node under a key changed, or one put there; fails if the change does. -/
def alter (key : String) (change : Option Node → Option Node) : Fields → Option Fields
  | [] => do
    let node ← change none
    return [(key, node)]
  | (k, node) :: rest =>
    if k = key then do
      let node ← change (some node)
      return (k, node) :: rest
    else do
      let rest ← alter key change rest
      return (k, node) :: rest

/-- The last of the rows changed. -/
def alterLast (change : Fields → Option Fields) : List Fields → Option (List Fields)
  | [] => none
  | [row] => do
    let row ← change row
    return [row]
  | row :: next :: rest => do
    let rows ← alterLast change (next :: rest)
    return row :: rows

/-- A value under a key with points. A table on the way must not have a header of its own, and the
    value itself can only be put where `direct` says so: into the table that is being written, or
    into one that came about by a key with points. -/
def add (direct : Bool) (value : Value) : List String → Fields → Option Fields
  | [], _ => none
  | [key], fields =>
    alter key (fun
      | none => if direct then some (.value value) else none
      | some _ => none) fields
  | key :: next :: rest, fields =>
    alter key (fun
      | none => do
        let inner ← add true value (next :: rest) []
        return .table .dottedKey inner
      | some (.table origin inner) => do
        if origin = .header then failure
        let inner ← add (origin = .dottedKey) value (next :: rest) inner
        return .table origin inner
      | some (.tables rows) => do
        let rows ← alterLast (add false value (next :: rest)) rows
        return .tables rows
      | some (.value _) => none) fields

/-- Values under their keys in turn. -/
def addAll (entries : List (List String × Value)) (fields : Fields) : Option Fields :=
  entries.foldlM (fun fields entry => add true entry.2 entry.1 fields) fields

/-- A change in the table that keys lead to; tables that are not there come about. -/
def within (change : Fields → Option Fields) : List String → Fields → Option Fields
  | [], fields => change fields
  | key :: rest, fields =>
    alter key (fun
      | none => do
        let inner ← within change rest []
        return .table .longerHeader inner
      | some (.table origin inner) => do
        let inner ← within change rest inner
        return .table origin inner
      | some (.tables rows) => do
        let rows ← alterLast (within change rest) rows
        return .tables rows
      | some (.value _) => none) fields

end Fields

mutual
/-- The value of a node. -/
def Node.toValue : Node → Value
  | .value v => v
  | .table _ fields => .table (fieldValues fields)
  | .tables rows => .array (rowValues rows)

/-- The values under the keys of a table. -/
def fieldValues : List (String × Node) → List (String × Value)
  | [] => []
  | (key, node) :: rest => (key, node.toValue) :: fieldValues rest

/-- The rows of an array of tables. -/
def rowValues : List (List (String × Node)) → List Value
  | [] => []
  | row :: rest => .table (fieldValues row) :: rowValues rest
end

end EntityQuery.Toml
