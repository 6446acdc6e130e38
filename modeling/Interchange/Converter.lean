import Interchange.Descriptor
import Interchange.Fault
import Interchange.Host.Value
import Interchange.Literal

/-!
# Converters

A converter takes care of some host types: it describes them, checks values against them, encodes
and decodes, and guesses a host type from a descriptor.  The library has converters for plain data,
references, the generic shapes and streams of JSON lines.  Others plug in as a record of functions.
-/

namespace Interchange

/-- What a converter is registered for: one type by name, all types of a generic shape, or whatever
nothing else takes. -/
inductive Key where
  | exact (name : String)
  | origin (origin : Origin)
  | wildcard
deriving DecidableEq, Repr

/-- The text of a key in messages. -/
def Key.text : Key → String
  | exact name => name
  | origin o => "<" ++ o.name ++ ">"
  | wildcard => "*"

/-- What is left to the worker. -/
inductive Job (α : Type) where
  | done (result : Except Fault α)
  /-- It never ends by itself, and has to be cancelled. -/
  | stalled
  /-- It asks the engine for the same conversion at another type. -/
  | delegated (type : HostType)

/-- What the conversion by a plugged-in converter comes to. -/
inductive Work (α : Type) where
  | done (result : Except Fault α)
  /-- The worker does it, and the conversion waits. -/
  | suspended (job : Job α)

/-- A claim to what another host type had claimed last. -/
structure Conflict where
  format : BlobType
  previous : String
  current : String
deriving DecidableEq, Repr

/-- What converters can read of the registry that they are used by. -/
structure Directory where
  /-- The names of the registered converters. -/
  registered : Key → Option String
  parents : List (String × List String)
  records : List Schema
  conflicts : List Conflict

/-- A converter from outside the library. -/
structure Plugin where
  name : String
  key : Key
  /-- Whether another converter may take its key. -/
  isOverridable : Bool
  /-- The types of stored payloads it stands for when a host type is guessed. -/
  formats : List BlobType
  /-- Describes a type, by nothing but the type and the registry. -/
  describe : Directory → HostType → Except Fault Descriptor
  check : Path → HostType → Value → Except Fault Unit
  encode : Path → HostType → Value → Work Literal
  /-- Decodes; the number is one that no foreign value has yet. -/
  decode : Nat → Path → HostType → Literal → Work Value
  infer : Descriptor → Except Fault HostType

/-- What takes care of some host types. -/
inductive Converter where
  | primitive (kind : Kind)
  | reference (name : String) (extent : Extent)
  | sequence | mapping | optional | union | record
  | jsonLines
  | plugin (plugin : Plugin)

/-! ## Streams of JSON lines as a type -/

namespace JsonLines

/-- The name of the host type. -/
def typeName : String := "jsonl_iterator"

/-- The type of the stored payload. -/
def blobType : BlobType := ⟨"JSONL", .single⟩

end JsonLines

namespace Converter

def name : Converter → String
  | primitive kind => kind.hostName
  | reference name _ => name
  | sequence => "sequence"
  | mapping => "mapping"
  | optional => "optional"
  | union => "union"
  | record => "record"
  | jsonLines => "JSON Lines iterator"
  | plugin p => p.name

/-- The key of its own. -/
def key : Converter → Key
  | primitive kind => .exact kind.hostName
  | reference name _ => .exact name
  | sequence => .origin .sequence
  | mapping => .origin .mapping
  | optional => .origin .optional
  | union => .origin .union
  | record => .origin .record
  | jsonLines => .exact JsonLines.typeName
  | plugin p => p.key

/-- Converters for plain data and references stay where they are. -/
def isOverridable : Converter → Bool
  | primitive _ | reference _ _ => false
  | plugin p => p.isOverridable
  | _ => true

/-- The types of stored payloads it stands for when a host type is guessed. -/
def formats : Converter → List BlobType
  | reference _ extent => [⟨"", extent⟩]
  | jsonLines => [JsonLines.blobType]
  | plugin p => p.formats
  | _ => []

end Converter

end Interchange
