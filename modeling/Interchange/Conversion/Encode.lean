import Interchange.Conversion.Check
import Interchange.Conversion.JsonLines
import Interchange.Conversion.Untyped

/-!
# Encoding values

The literal of a value at a host type.  What is inside a list, a map or a record stands one level
further in; an optional value and the member of a union stand at the level of the whole.

A stream is pulled item by item, and has to give at least one.  A value of a tagged union is written
as the first member that takes it.
-/

namespace Interchange

/-- Encodes a value at a place, as a host type that is described in a way. -/
abbrev Encoder := Place → HostType → Value → Descriptor → Conversion Literal

/-- The fault of a descriptor that is not of the shape that a converter writes. -/
def Place.otherShape (p : Place) (expected : String) (d : Descriptor) : Fault :=
  .typeMismatch p.path expected d.text

/-- Encodes items one level further in, from a position on. -/
def encodeItems (deeper : Option Encoder) (place : Place) (element : HostType) (d : Descriptor) :
    Nat → List Value → Conversion (List Literal)
  | _, [] => return []
  | i, v :: vs => do
    let (encode, inner) ← .ofExcept (enter deeper place (.index i))
    let l ← encode inner element v d
    return l :: (← encodeItems deeper place element d (i + 1) vs)

/-- Encodes what a stream gives, so many items at most, each as it comes. -/
def encodePulled (deeper : Option Encoder) (onWorker : Bool) (place : Place) (element : HostType)
    (d : Descriptor) (id : Nat) : Nat → Nat → Conversion (List Literal)
  | 0, _ => return []
  | fuel + 1, i => do
    match ← Session.pull onWorker id with
    | none => return []
    | some v =>
      let (encode, inner) ← .ofExcept (enter deeper place (.index i))
      let l ← encode inner element v d
      return l :: (← encodePulled deeper onWorker place element d id fuel (i + 1))

/-- Encodes a stream, which must give an item. -/
def encodeStream (deeper : Option Encoder) (onWorker : Bool) (place : Place) (element : HostType)
    (d : Descriptor) (id : Nat) : Conversion (List Literal) := do
  let fuel := (← get).remaining id + 1
  match ← encodePulled deeper onWorker place element d id fuel 0 with
  | [] => throw (.emptyStream place.path)
  | ls => return ls

/-- Encodes the items of a map one level further in. -/
def encodeEntries (deeper : Option Encoder) (place : Place) (value : HostType) (d : Descriptor) :
    List (String × Value) → Conversion (List (String × Literal))
  | [] => return []
  | (key, v) :: es => do
    let (encode, inner) ← .ofExcept (enter deeper place (.key key))
    let l ← encode inner value v d
    return (key, l) :: (← encodeEntries deeper place value d es)

/-- Encodes the fields of a record one level further in.  A declared field that is not described is
described there; one that is not declared is written by its shape. -/
def encodeFields (deeper : Option Encoder) (describe : Describer) (onWorker : Bool) (place : Place)
    (s : Schema) (described : List (String × Descriptor)) :
    List (String × Value) → Conversion (List (String × Literal))
  | [] => return []
  | (name, v) :: fields => do
    let (encode, inner) ← .ofExcept (enter deeper place (.field name))
    let l ← match s.get? name, described.lookup name with
      | some t, some d => encode inner t v d
      | some t, none => do encode inner t v (← describe inner t)
      | none, _ => v.literal onWorker inner.path
    return (name, l) :: (← encodeFields deeper describe onWorker place s described fields)

namespace Registry

/-- Encodes a value that is no none as the type that an optional type is over. -/
def encodeValued (describe : Conversion Descriptor)
    (encode : Value → Descriptor → Conversion Literal) (v : Value) : Conversion Literal :=
  if v.isNone then return .none else do encode v (← describe)

/-- Encodes a value by a converter, given how it is encoded as the parts of the type. -/
def encodeBy (r : Registry) (worker : Option Delegate) (levels : Nat) (deeper : Option Encoder)
    (place : Place) (c : Converter) (t : HostType)
    (parts : List (HostType × (Value → Descriptor → Conversion Literal)))
    (v : Value) (d : Descriptor) : Conversion Literal :=
  match c, t, parts with
  | .primitive kind, _, _ => match v with
    | .scalar s => match s.as? kind with
      | some s => return .scalar s
      | none => throw (place.mismatch kind.hostName v)
    | v => throw (place.mismatch kind.hostName v)
  | .reference name extent, _, _ => match v with
    | .blob b =>
      if b.type.extent = extent then return .blob b else throw (place.mismatch name v)
    | v => throw (place.mismatch name v)
  | .jsonLines, _, _ => suspend worker place fun _ ↦ JsonLines.encode place v
  | .plugin p, t, _ => (p.encode place.path t v).finish worker place fun ask t ↦ ask.encode t v
  | .sequence, .list element, _ => match d with
    | .collection d => match v with
      | .list items => .collection <$> encodeItems deeper place element d 0 items
      | .stream id => .collection <$> encodeStream deeper worker.isNone place element d id
      | v => throw (place.mismatch t.text v)
    | d => throw (place.otherShape "collection" d)
  | .mapping, .dict value, _ => match d with
    | .mapping d => match v with
      | .map entries => .mapping <$> encodeEntries deeper place value d entries
      | v => throw (place.mismatch t.text v)
    | d => throw (place.otherShape "mapping" d)
  | .optional, .optional _, [(inner, encode)] =>
    encodeValued (r.describe levels place inner) encode v
  | .union, .union members, parts =>
    match HostType.unionForm members, valued? parts with
    | .plain, some (_, encode) => encode v d
    | .optional, some (inner, encode) => encodeValued (r.describe levels place inner) encode v
    | .tagged, _ => do
      let (member, encode) ← .ofExcept <|
        firstAccepting (place.noMember t v) (fun p ↦ r.check levels place p.1 v) parts
      let d ← r.describe levels place member
      .union d <$> encode v d
    | _, _ => throw (unsupported t)
  | .record, t, _ => do
    let s ← .ofExcept (r.schemaOf t)
    let fields ← .ofExcept (r.fieldsFor place s v)
    match d with
    | .record described =>
      let describe := r.describe (levels - 1)
      .record <$> encodeFields deeper describe worker.isNone place s described fields
    | d => throw (place.otherShape "record" d)
  | _, t, _ => throw (unsupported t)

/-- Encodes a value, given how it is encoded as the parts of its type. -/
def encodeStep (r : Registry) (worker : Option Delegate) (levels : Nat) (deeper : Option Encoder)
    (place : Place) (t : HostType)
    (parts : List (HostType × (Value → Descriptor → Conversion Literal)))
    (v : Value) (d : Descriptor) : Conversion Literal := do
  r.encodeBy worker levels deeper place (← .ofExcept (r.resolve t)) t parts v d

/-- Encodes a value where so many levels are left, given how values are encoded one level further
in. -/
def encodeWith (r : Registry) (worker : Option Delegate) (levels : Nat)
    (deeper : Option Encoder) : Encoder :=
  fun place ↦ HostType.fold (r.encodeStep worker levels deeper place)

/-- Encodes a value where so many levels are left. -/
def encode (r : Registry) (worker : Option Delegate) : Nat → Encoder
  | 0 => r.encodeWith worker 0 none
  | levels + 1 => r.encodeWith worker (levels + 1) (some (r.encode worker levels))

end Registry

end Interchange
