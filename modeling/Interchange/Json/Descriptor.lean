import Interchange.Descriptor
import Interchange.Json.Basic

/-!
# The JSON form of descriptors

A choice between shapes is written as an object with one member, named by the shape; a choice
without content is the name as a string.  Structures are objects with their members in a fixed
order.

Reading takes a choice without content also as a member with null, and a structure also as an array
of its members in order.  A structure may have members that are not its own, but each of its own has
to be there once.
-/

namespace Interchange

open Json (Document)

namespace Json

/-- A choice with content. -/
def choice (name : String) (content : Json) : Json := object [(name, content)]

end Json

namespace Json.Document

/-- The name of a choice without content, at most so many containers deep. -/
def unitChoice? : Nat → Document → Option String
  | _, .string s => s
  | _ + 1, .object [(name, .null)] => name
  | _, _ => none

/-- The one member under a name. -/
def sole? (name : String) (members : List (Option String × Document)) : Option Document :=
  match members.filter (·.1 = some name) with
  | [(_, d)] => some d
  | _ => none

/-- The members of a structure in the order of their names. -/
def parts? (names : List String) : Document → Option (List Document)
  | .array items => if items.length = names.length then some items else none
  | .object members =>
    if members.all (·.1.isSome) then names.mapM (sole? · members) else none
  | _ => none

def text? : Document → Option String
  | .string s => s
  | _ => none

def int? : Document → Option Int
  | .number n => n.toInt?
  | _ => none

end Json.Document

/-- The extent that a document names. -/
def Extent.ofDocument? (levels : Nat) (d : Document) : Option Extent := do
  Extent.ofName? (← Document.unitChoice? levels d)

namespace Descriptor

mutual

/-- The JSON form of a descriptor. -/
def toJson : Descriptor → Json
  | primitive kind => Json.choice "primitive" (.string kind.name)
  | collection element => Json.choice "collection" (toJson element)
  | mapping value => Json.choice "mapping" (toJson value)
  | union members tagField => Json.choice "union" <|
    .object [("members", .array (membersToJson members)), ("tag_field", .string tagField)]
  | blob type => Json.choice "blob" <|
    .object [("format", .string type.format), ("dimensionality", .string type.extent.name)]
  | record fields => Json.choice "record" (.object [("fields", .array (fieldsToJson fields))])

def membersToJson : List Descriptor → List Json
  | [] => []
  | d :: ds => toJson d :: membersToJson ds

def fieldsToJson : List (String × Descriptor) → List Json
  | [] => []
  | (name, d) :: fields =>
    .object [("name", .string name), ("ty", toJson d)] :: fieldsToJson fields

end

/-- The blob type that a document writes. -/
def blobTypeOfDocument? : Nat → Document → Option BlobType
  | 0, _ => none
  | levels + 1, d => do
    match ← d.parts? ["format", "dimensionality"] with
    | [format, extent] => return ⟨← format.text?, ← Extent.ofDocument? levels extent⟩
    | _ => none

/-- The members and the tag field that a document writes, given how a member is read. -/
def unionOfDocument? (read : Nat → Document → Option Descriptor) :
    Nat → Document → Option Descriptor
  | levels + 2, d => do
    match ← d.parts? ["members", "tag_field"] with
    | [.array members, tagField] => return union (← members.mapM (read levels)) (← tagField.text?)
    | _ => none
  | _, _ => none

/-- The field of a record that a document writes, given how its type is read. -/
def fieldOfDocument? (read : Nat → Document → Option Descriptor) :
    Nat → Document → Option (String × Descriptor)
  | 0, _ => none
  | levels + 1, d => do
    match ← d.parts? ["name", "ty"] with
    | [name, type] => return (← name.text?, ← read levels type)
    | _ => none

/-- The fields that a document writes, given how their types are read. -/
def recordOfDocument? (read : Nat → Document → Option Descriptor) :
    Nat → Document → Option Descriptor
  | levels + 2, d => do
    match ← d.parts? ["fields"] with
    | [.array fields] => record <$> fields.mapM (fieldOfDocument? read levels)
    | _ => none
  | _, _ => none

/-- The descriptor that a document writes, at most so many containers deep, given how those within
it are read. -/
def shapeOfDocument? (read : Nat → Document → Option Descriptor) :
    Nat → Document → Option Descriptor
  | levels + 1, .object [(some name, d)] => match name with
    | "primitive" => do primitive <$> Kind.ofName? (← d.unitChoice? levels)
    | "collection" => collection <$> read levels d
    | "mapping" => mapping <$> read levels d
    | "union" => unionOfDocument? read levels d
    | "blob" => blob <$> blobTypeOfDocument? levels d
    | "record" => recordOfDocument? read levels d
    | _ => none
  | _, _ => none

/-- The descriptor that a document writes, of so many shapes within shapes at most. -/
def shapesOfDocument? : Nat → Nat → Document → Option Descriptor
  | 0 => fun _ _ ↦ none
  | shapes + 1 => shapeOfDocument? (shapesOfDocument? shapes)

/-- The descriptor that a document writes, at most so many containers deep.  Each shape is a
container.  Repeated members of unions stay. -/
def ofDocument? (levels : Nat) : Document → Option Descriptor := shapesOfDocument? levels levels

/-- The descriptor of a text. -/
def ofJsonText? (cs : List Char) : Option Descriptor := do
  ofDocument? Json.maxDepth (← Document.ofText? cs)

end Descriptor

end Interchange
