import Interchange.Json.Descriptor
import Interchange.Literal
import Interchange.Time.Rfc3339

/-!
# The JSON form of literals

Plain data stands under `scalar` and its kind, mappings and records are objects under their names,
and a union literal is a structure of its descriptor and its value.  A time is a string, a span is
its seconds and nanoseconds, bytes are their numbers.  Floats that are not finite are written as
null and cannot be read back.
-/

namespace Interchange

open Json (Document)

namespace Scalar

/-- The JSON form of plain data under its kind; none has no content. -/
def toJson : Scalar → Json
  | none => .null
  | integer v => .integer v.toInt
  | float v => .float v
  | string v => .string v
  | boolean v => .bool v
  | datetime v => .string (String.ofList (Rfc3339.write v))
  | duration v => .array [.integer v.seconds, .integer v.nanos]
  | binary v => .array (v.map fun b ↦ .integer b.toNat)

/-- An integer within bounds. -/
def intBetween? (low high : Int) (d : Document) : Option Int := do
  let i ← d.int?
  if low ≤ i ∧ i ≤ high then some i else Option.none

/-- An integer that 64 bits hold with a sign. -/
def int64? : Document → Option Int :=
  intBetween? Int64.minValue.toInt Int64.maxValue.toInt

/-- Plain data of a kind that a document writes, at most so many containers deep. -/
def ofDocument? (kind : Kind) : Nat → Document → Option Scalar
  | levels, d => match kind, levels, d with
    | .integer, _, d => do return integer (.ofInt (← int64? d))
    | .float, _, .number n => float <$> n.toFloat?
    | .string, _, d => string <$> d.text?
    | .boolean, _, .bool b => some (boolean b)
    | .datetime, _, d => do datetime <$> Rfc3339.read? (← d.text?).toList
    | .duration, _ + 1, .array [seconds, nanos] => do
      let seconds ← int64? seconds
      let nanos ← intBetween? Int32.minValue.toInt Int32.maxValue.toInt nanos
      duration <$> Span.ofParts? seconds nanos
    | .binary, _ + 1, .array bytes => do
      return binary (← bytes.mapM fun d ↦ do return UInt8.ofNat (← intBetween? 0 255 d).toNat)
    | _, _, _ => Option.none

end Scalar

namespace Literal

mutual

/-- The JSON form of a literal. -/
def toJson : Literal → Json
  | scalar .none => Json.choice "scalar" (.string "none")
  | scalar s => Json.choice "scalar" (Json.choice "primitive" (Json.choice s.kind.name s.toJson))
  | blob b => Json.choice "scalar" <| Json.choice "blob" <| .object
    [("uri", .string b.uri), ("format", .string b.type.format),
      ("dimensionality", .string b.type.extent.name)]
  | collection items => Json.choice "collection" (.array (itemsToJson items))
  | mapping entries => Json.choice "mapping" (.object (entriesToJson entries))
  | union type value => Json.choice "union" <|
    .object [("ty", type.toJson), ("value", toJson value)]
  | record fields => Json.choice "record" (.object (entriesToJson fields))

def itemsToJson : List Literal → List Json
  | [] => []
  | l :: ls => toJson l :: itemsToJson ls

def entriesToJson : List (String × Literal) → List (String × Json)
  | [] => []
  | (name, l) :: es => (name, toJson l) :: entriesToJson es

end

/-- The plain data or blob reference that a document writes. -/
def scalarOfDocument? : Nat → Document → Option Literal
  | _, .string (some "none") => some none
  | levels + 1, .object [(some name, d)] => match name, levels, d with
    | "none", _, .null => some none
    | "primitive", levels + 1, .object [(some kind, d)] => do
      scalar <$> Scalar.ofDocument? (← Kind.ofName? kind) levels d
    | "blob", levels + 1, d => do
      match ← d.parts? ["uri", "format", "dimensionality"] with
      | [uri, format, extent] =>
        return blob ⟨← uri.text?, ⟨← format.text?, ← Extent.ofDocument? levels extent⟩⟩
      | _ => Option.none
    | _, _, _ => Option.none
  | _, _ => Option.none

/-- The literal that a document writes, at most so many containers deep.  Of entries with one name
the last counts. -/
def ofDocument? : Nat → Document → Option Literal
  | levels + 1, .object [(some name, d)] =>
    match name, levels, d with
    | "scalar", levels, d => scalarOfDocument? levels d
    | "collection", levels + 1, .array items =>
      collection <$> items.mapM fun d ↦ ofDocument? levels d
    | "mapping", levels + 1, .object members => do
      return mapping (Entries.ofList (← members.mapM fun (name, d) ↦ do
        return (← name, ← ofDocument? levels d)))
    | "record", levels + 1, .object members => do
      return record (Entries.ofList (← members.mapM fun (name, d) ↦ do
        return (← name, ← ofDocument? levels d)))
    | "union", levels + 1, d => do
      match ← d.parts? ["ty", "value"] with
      | [type, value] =>
        return union (← Descriptor.ofDocument? levels type) (← ofDocument? levels value)
      | _ => Option.none
    | _, _, _ => Option.none
  | _, _ => Option.none

/-- The literal of a text. -/
def ofJsonText? (cs : List Char) : Option Literal := do
  ofDocument? Json.maxDepth (← Document.ofText? cs)

end Literal

end Interchange
