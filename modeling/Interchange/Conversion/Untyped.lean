import Interchange.Session

/-!
# Conversion without a type

Values that have no declared host type, such as the fields that an open record takes beside its own,
are written by their own shape.  What is read that way has no record names, and tells nothing of the
union members that literals were written as.
-/

namespace Interchange

/-! ## Writing -/

mutual

/-- The literal of a value by its shape, given how the items of a stream are written. -/
def literalBy (stream : Path → Nat → Conversion Literal) (path : Path) :
    Value → Conversion Literal
  | .scalar s => return .scalar s
  | .blob b => return .blob b
  | .list items => .collection <$> literalsBy stream path 0 items
  | .map entries => .mapping <$> literalEntriesBy stream path .key entries
  | .record _ fields => .record <$> literalEntriesBy stream path .field fields
  | .stream id => stream path id
  | .foreign key _ _ => throw (.unsupportedType key)

/-- The literals of items, from a position on. -/
def literalsBy (stream : Path → Nat → Conversion Literal) (path : Path) :
    Nat → List Value → Conversion (List Literal)
  | _, [] => return []
  | i, v :: vs => do
    let l ← literalBy stream (path.child (.index i)) v
    return l :: (← literalsBy stream path (i + 1) vs)

/-- The literals of named items. -/
def literalEntriesBy (stream : Path → Nat → Conversion Literal) (path : Path)
    (segment : String → Segment) : List (String × Value) → Conversion (List (String × Literal))
  | [] => return []
  | (name, v) :: es => do
    let l ← literalBy stream (path.child (segment name)) v
    return (name, l) :: (← literalEntriesBy stream path segment es)

end

/-- The literal of the items that are left in a stream, which must have one, with streams nested to
so many levels.  A stream within is another one, so there are no more levels than streams. -/
def literalOfStream (onWorker : Bool) : Nat → Path → Nat → Conversion Literal
  | 0, path, _ => throw (.emptyStream path)
  | levels + 1, path, id => do
    let items ← Session.drain onWorker id
    if items.isEmpty then throw (.emptyStream path)
    .collection <$> literalsBy (literalOfStream onWorker levels) path 0 items

/-- The literal of a value by its shape. -/
def Value.literal (onWorker : Bool) (path : Path) (v : Value) : Conversion Literal := do
  literalBy (literalOfStream onWorker (← get).streams.length) path v

/-! ## Reading -/

mutual

/-- The value of a literal by its shape. -/
def Literal.value : Literal → Value
  | .scalar s => .scalar s
  | .blob b => .blob b
  | .collection items => .list (values items)
  | .mapping entries => .map (entryValues entries)
  | .record fields => .record Option.none (entryValues fields)
  | .union _ l => l.value

def Literal.values : List Literal → List Value
  | [] => []
  | l :: ls => l.value :: values ls

def Literal.entryValues : List (String × Literal) → List (String × Value)
  | [] => []
  | (name, l) :: es => (name, l.value) :: entryValues es

end

end Interchange
