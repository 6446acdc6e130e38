import Interchange.Descriptor
import Interchange.Tlv.Reader
import Interchange.Tlv.Writer

/-!
# The byte form of descriptors

A descriptor is a variant named by its shape.  Unions and blob types hold a map of named entries, a
record holds a list of named variants, since the order of its fields is part of the type.

Reading passes over entries it does not know and takes the last of repeated ones, but refuses
unknown names of variants.  Both sides stop at the same depth of nesting.
-/

namespace Interchange

/-- The deepest nesting that is written or read. -/
def Tlv.maxDepth : Nat := 64

namespace Tlv.Writer

/-- An entry of a map that holds a string. -/
def entryStr (name value : String) : Step Unit := variant name (str value)

/-- An entry of a map that holds an integer. -/
def entryS64 (name : String) (value : Int64) : Step Unit := variant name (s64 value)

/-- The entries of a blob type. -/
def blobEntries (type : BlobType) : Step Unit := do
  entryStr "format" type.format
  entryStr "dimensionality" type.extent.name

end Tlv.Writer

open Tlv

namespace Descriptor

mutual

/-- Writes a descriptor that stands at a depth of nesting. -/
def write (depth : Nat) (d : Descriptor) : Writer.Step Unit := do
  if maxDepth < depth then throw .nestingLimit
  Writer.variant d.shape (writeBody depth d)

/-- Writes what stands inside the variant of a descriptor. -/
def writeBody (depth : Nat) : Descriptor → Writer.Step Unit
  | primitive kind => Writer.str kind.name
  | collection element => write (depth + 1) element
  | mapping value => write (depth + 1) value
  | union members tagField => Writer.map do
    Writer.variant "members" (Writer.list (writeMembers (depth + 1) members))
    Writer.entryStr "tag_field" tagField
  | blob type => Writer.map (Writer.blobEntries type)
  | record fields => Writer.list (writeFields (depth + 1) fields)

def writeMembers (depth : Nat) : List Descriptor → Writer.Step Unit
  | [] => pure ()
  | d :: ds => do write depth d; writeMembers depth ds

def writeFields (depth : Nat) : List (String × Descriptor) → Writer.Step Unit
  | [] => pure ()
  | (name, d) :: fields => do
    Writer.variant name (write depth d)
    writeFields depth fields

end

/-- The bytes of a descriptor. -/
def toBytes (d : Descriptor) : Except Tlv.Fault (List UInt8) := Writer.bytesOf (d.write 0)

/-! ## Reading -/

/-- The entries of a blob type or of a blob reference that were read. -/
structure BlobEntries where
  uri : Option String := none
  format : Option String := none
  extent : Option Extent := none

/-- Takes in an entry of a blob type or of a blob reference. -/
def BlobEntries.add (found : BlobEntries) (name : String) (item : List UInt8) :
    Except Tlv.Fault BlobEntries :=
  match name with
  | "uri" => do return { found with uri := some (← Reader.str.outcome item) }
  | "format" => do return { found with format := some (← Reader.str.outcome item) }
  | "dimensionality" => do
    let name ← Reader.str.outcome item
    match Extent.ofName? name with
    | none => throw (.unknownVariant name)
    | some extent => return { found with extent := some extent }
  | _ => do Reader.skip.outcome item; return found

/-- An entry that has to be there. -/
def required {α : Type} (name : String) : Option α → Except Tlv.Fault α
  | none => .error (.missingEntry name)
  | some a => .ok a

/-- The type in the entries, with the URI if there is one. -/
def BlobEntries.type (found : BlobEntries) : Except Tlv.Fault (Option String × BlobType) := do
  let format ← required "format" found.format
  let extent ← required "dimensionality" found.extent
  return (found.uri, ⟨format, extent⟩)

/-- Reads the type of a blob, and its URI if there is one, from the body of a map. -/
def readBlobType (body : List UInt8) : Except Tlv.Fault (Option String × BlobType) := do
  (← Reader.foldEntries BlobEntries.add {} body).type

/-- The entries of a union that were read. -/
structure UnionEntries where
  members : Option (List Descriptor) := none
  tagField : Option String := none

/-- Takes in an entry of a union, given how to read a member. -/
def UnionEntries.add (member : List UInt8 → Except Tlv.Fault Descriptor) (found : UnionEntries)
    (name : String) (item : List UInt8) : Except Tlv.Fault UnionEntries :=
  match name with
  | "members" => do
    let body ← Reader.list.outcome item
    let members ← Reader.foldItems (fun ds item ↦ do return ds ++ [← member item]) [] body
    return { found with members := some members }
  | "tag_field" => do return { found with tagField := some (← Reader.str.outcome item) }
  | _ => do Reader.skip.outcome item; return found

/-- The union in the entries. -/
def UnionEntries.union (found : UnionEntries) : Except Tlv.Fault Descriptor := do
  let members ← required "members" found.members
  let tagField ← required "tag_field" found.tagField
  return ofMembers members tagField

/-- Reads a descriptor of at most so many levels. -/
def readLevels : Nat → Reader Descriptor
  | 0 => throw .nestingLimit
  | levels + 1 => do
    let (shape, item) ← Reader.variant
    .ofExcept <| match shape with
    | "primitive" => do
      let name ← Reader.str.outcome item
      match Kind.ofName? name with
      | none => throw (.unknownVariant name)
      | some kind => return primitive kind
    | "collection" => collection <$> (readLevels levels).outcome item
    | "mapping" => mapping <$> (readLevels levels).outcome item
    | "union" => do
      let body ← Reader.map.outcome item
      (← Reader.foldEntries (UnionEntries.add (readLevels levels).outcome) {} body).union
    | "blob" => do
      let body ← Reader.map.outcome item
      return blob (← readBlobType body).2
    | "record" => do
      let body ← Reader.list.outcome item
      let fields ← Reader.foldItems (fun fields item ↦ do
        let (name, item) ← Reader.variant.outcome item
        return fields ++ [(name, ← (readLevels levels).outcome item)]) [] body
      return record fields
    | name => throw (.unknownVariant name)

/-- Reads a descriptor that stands at a depth of nesting. -/
def read (depth : Nat) : Reader Descriptor := readLevels (maxDepth + 1 - depth)

/-- The descriptor of bytes that hold nothing else. -/
def ofBytes (bytes : List UInt8) : Except Tlv.Fault Descriptor := Reader.whole (read 0) bytes

end Descriptor

end Interchange
