import Interchange.Literal
import Interchange.Tlv.Descriptor

/-!
# The byte form of literals

A literal is a variant named by its shape.  Plain data stands in it directly, except for times and
spans, which are maps of seconds and nanoseconds.  A union literal holds the descriptor of the
member it was written as beside its value.

Reading passes over entries it does not know and takes the last of repeated ones, but refuses
unknown names of variants.
-/

namespace Interchange

open Tlv

namespace Literal

/-- Writes plain data. -/
def writeScalar : Scalar → Writer.Step Unit
  | .none => Writer.unit
  | .integer v => Writer.s64 v
  | .float v => Writer.f64 v
  | .string v => Writer.str v
  | .boolean v => Writer.bool v
  | .datetime v => Writer.map do
    Writer.entryS64 "seconds" (.ofInt v.seconds)
    Writer.variant "nanos" (Writer.u32 (.ofNat v.nanos))
  | .duration v => Writer.map do
    Writer.entryS64 "seconds" (.ofInt v.seconds)
    Writer.entryS64 "nanos" (.ofInt v.nanos)
  | .binary v => Writer.bytes v

mutual

/-- Writes a literal that stands at a depth of nesting. -/
def write (depth : Nat) (l : Literal) : Writer.Step Unit := do
  if maxDepth < depth then throw .nestingLimit
  Writer.variant l.shape (writeBody depth l)

/-- Writes what stands inside the variant of a literal. -/
def writeBody (depth : Nat) : Literal → Writer.Step Unit
  | scalar s => writeScalar s
  | blob b => Writer.map do
    Writer.entryStr "uri" b.uri
    Writer.blobEntries b.type
  | collection items => Writer.list (writeItems (depth + 1) items)
  | mapping entries => Writer.map (writeEntries (depth + 1) entries)
  | record fields => Writer.map (writeEntries (depth + 1) fields)
  | union type value => Writer.map do
    Writer.variant "type" (type.write (depth + 1))
    Writer.variant "value" (write (depth + 1) value)

def writeItems (depth : Nat) : List Literal → Writer.Step Unit
  | [] => pure ()
  | l :: ls => do write depth l; writeItems depth ls

def writeEntries (depth : Nat) : List (String × Literal) → Writer.Step Unit
  | [] => pure ()
  | (name, l) :: es => do
    Writer.variant name (write depth l)
    writeEntries depth es

end

/-- The bytes of a literal. -/
def toBytes (l : Literal) : Except Tlv.Fault (List UInt8) := Writer.bytesOf (l.write 0)

/-! ## Reading -/

/-- The entries of a time or a span that were read. -/
structure TimeEntries (α : Type) where
  seconds : Option Int64 := Option.none
  nanos : Option α := Option.none

/-- Takes in an entry of a time or a span, given how to read the nanoseconds. -/
def TimeEntries.add {α : Type} (readNanos : Reader α) (found : TimeEntries α) (name : String)
    (item : List UInt8) : Except Tlv.Fault (TimeEntries α) :=
  match name with
  | "seconds" => do return { found with seconds := some (← Reader.s64.outcome item) }
  | "nanos" => do return { found with nanos := some (← readNanos.outcome item) }
  | _ => do Reader.skip.outcome item; return found

/-- Reads seconds and nanoseconds from the body of a map. -/
def readTime {α : Type} (readNanos : Reader α) (body : List UInt8) :
    Except Tlv.Fault (Int64 × α) := do
  let found ← Reader.foldEntries (TimeEntries.add readNanos) {} body
  let seconds ← Descriptor.required "seconds" found.seconds
  let nanos ← Descriptor.required "nanos" found.nanos
  return (seconds, nanos)

/-- A time or a span that its parts may not make. -/
def inRange {α : Type} : Option α → Except Tlv.Fault α
  | Option.none => .error .outOfRange
  | some a => .ok a

/-- Reads plain data of a kind. -/
def readScalar (item : List UInt8) : Kind → Except Tlv.Fault Scalar
  | .none => do Reader.unit.outcome item; return .none
  | .integer => .integer <$> Reader.s64.outcome item
  | .float => .float <$> Reader.f64.outcome item
  | .string => .string <$> Reader.str.outcome item
  | .boolean => .boolean <$> Reader.bool.outcome item
  | .binary => .binary <$> Reader.bytes.outcome item
  | .datetime => do
    let (seconds, nanos) ← readTime Reader.u32 (← Reader.map.outcome item)
    .datetime <$> inRange (Timestamp.ofParts? seconds.toInt nanos.toNat)
  | .duration => do
    let (seconds, nanos) ← readTime Reader.s64 (← Reader.map.outcome item)
    .duration <$> inRange (Span.ofParts? seconds.toInt nanos.toInt)

/-- The entries of a union literal that were read. -/
structure UnionEntries where
  type : Option Descriptor := Option.none
  value : Option Literal := Option.none

/-- Takes in an entry of a union literal, given how to read its parts. -/
def UnionEntries.add (readType : List UInt8 → Except Tlv.Fault Descriptor)
    (readValue : List UInt8 → Except Tlv.Fault Literal) (found : UnionEntries)
    (name : String) (item : List UInt8) : Except Tlv.Fault UnionEntries :=
  match name with
  | "type" => do return { found with type := some (← readType item) }
  | "value" => do return { found with value := some (← readValue item) }
  | _ => do Reader.skip.outcome item; return found

/-- The union literal in the entries. -/
def UnionEntries.union (found : UnionEntries) : Except Tlv.Fault Literal := do
  let type ← Descriptor.required "type" found.type
  let value ← Descriptor.required "value" found.value
  return .union type value

/-- Reads a literal of at most so many levels. -/
def readLevels : Nat → Reader Literal
  | 0 => throw .nestingLimit
  | levels + 1 => do
    let (shape, item) ← Reader.variant
    let readItem := (readLevels levels).outcome
    let readEntries (item : List UInt8) : Except Tlv.Fault (Entries Literal) := do
      let body ← Reader.map.outcome item
      Reader.foldEntries (fun es name item ↦ do return es.insert name (← readItem item)) [] body
    .ofExcept <| match shape with
    | "blob" => do
      let body ← Reader.map.outcome item
      let (uri, type) ← Descriptor.readBlobType body
      return blob ⟨← Descriptor.required "uri" uri, type⟩
    | "collection" => do
      let body ← Reader.list.outcome item
      collection <$> Reader.foldItems (fun ls item ↦ do return ls ++ [← readItem item]) [] body
    | "mapping" => mapping <$> readEntries item
    | "record" => record <$> readEntries item
    | "union" => do
      let body ← Reader.map.outcome item
      let readType := (Descriptor.readLevels levels).outcome
      (← Reader.foldEntries (UnionEntries.add readType readItem) {} body).union
    | name => match Kind.ofName? name with
      | Option.none => throw (.unknownVariant name)
      | some kind => scalar <$> readScalar item kind

/-- Reads a literal that stands at a depth of nesting. -/
def read (depth : Nat) : Reader Literal := readLevels (maxDepth + 1 - depth)

/-- The literal of bytes that hold nothing else. -/
def ofBytes (bytes : List UInt8) : Except Tlv.Fault Literal := Reader.whole (read 0) bytes

end Literal

end Interchange
