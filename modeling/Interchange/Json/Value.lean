import Interchange.Fault
import Interchange.Host.Value
import Interchange.Json.Basic

/-!
# Host values as JSON values

Plain data, lists, maps and records have a JSON value; maps and records both become objects.  Times,
spans, bytes, references, streams, foreign values and floats that are not finite have none.

A JSON value always has a host value: a number becomes an integer if 64 bits hold it and it is one,
and a float otherwise.
-/

namespace Interchange

namespace Scalar

/-- The JSON value of plain data, if it has one. -/
def toJsonValue? : Scalar → Option Json
  | none => some .null
  | boolean b => some (.bool b)
  | integer i => some (.integer i.toInt)
  | float x => if x.isFinite then some (.float x) else Option.none
  | string s => some (.string s)
  | datetime _ | duration _ | binary _ => Option.none

end Scalar

namespace Value

/-- What is found where a JSON value is needed. -/
def noJson (path : Path) (v : Value) : Fault := .typeMismatch path "JSON value" v.describe

mutual

/-- The JSON value of a value that stands at a path. -/
def toJson (path : Path) : Value → Except Fault Json
  | scalar s => match s.toJsonValue? with
    | some j => .ok j
    | Option.none => .error (noJson path (scalar s))
  | list items => do return .array (← itemsToJson path 0 items)
  | map entries => do return .object (← entriesToJson path .key entries)
  | record _ fields => do return .object (← entriesToJson path .field fields)
  | v => .error (noJson path v)

/-- The JSON values of the items of a list from a position on. -/
def itemsToJson (path : Path) (position : Nat) : List Value → Except Fault (List Json)
  | [] => .ok []
  | v :: vs => do
    let j ← toJson (path.child (.index position)) v
    return j :: (← itemsToJson path (position + 1) vs)

/-- The JSON values of entries, given how the path goes on to an entry. -/
def entriesToJson (path : Path) (step : String → Segment) :
    List (String × Value) → Except Fault (List (String × Json))
  | [] => .ok []
  | (name, v) :: es => do
    let j ← toJson (path.child (step name)) v
    return (name, j) :: (← entriesToJson path step es)

end

mutual

/-- The host value of a JSON value. -/
def ofJson : Json → Value
  | .null => none
  | .bool b => scalar (.boolean b)
  | .integer i =>
    if Int64.minValue.toInt ≤ i ∧ i ≤ Int64.maxValue.toInt then scalar (.integer (.ofInt i))
    else scalar (.float (.ofInt i))
  | .float x => scalar (.float x)
  | .string s => scalar (.string s)
  | .array items => list (ofJsonItems items)
  | .object members => map (ofJsonMembers members)

def ofJsonItems : List Json → List Value
  | [] => []
  | j :: js => ofJson j :: ofJsonItems js

def ofJsonMembers : List (String × Json) → List (String × Value)
  | [] => []
  | (name, j) :: ms => (name, ofJson j) :: ofJsonMembers ms

end

end Value

end Interchange
