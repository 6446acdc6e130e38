import Interchange.Host.Path
import Interchange.Storage.Fault
import Interchange.Tlv.Tag

/-!
# Faults of conversions

Why a conversion fails.  A fault of a value's shape carries the path to the part at fault.
-/

namespace Interchange

/-- Why a conversion fails. -/
inductive Fault where
  /-- No converter takes the host type or the descriptor. -/
  | unsupportedType (type : String)
  /-- A value does not have the shape of its type. -/
  | typeMismatch (path : Path) (expected found : String)
  /-- A record lacks a declared field. -/
  | missingField (path : Path) (field : String)
  /-- A closed record carries a field that is not declared. -/
  | unexpectedField (path : Path) (field : String)
  /-- No member of a union takes the value. -/
  | noMatchingMember (path : Path) (union found : String)
  /-- A literal does not have the shape of its type. -/
  | undecodable (path : Path) (expected found : String)
  /-- A line of a stored payload is no JSON document. -/
  | malformedDocument (path : Path)
  /-- More than one host type is described alike. -/
  | ambiguousType (descriptor : String) (candidates : List String)
  /-- A stream that has to have an item has none. -/
  | emptyStream (path : Path)
  /-- The key belongs to a converter that stays. -/
  | protectedKey (key : String)
  /-- A value nests deeper than the limit. -/
  | nestingLimit (path : Path)
  | cancelled
  /-- The worker is asked to wait for itself. -/
  | workerReentry
  | storage (fault : Storage.Fault)
  | bytes (fault : Tlv.Fault)
deriving DecidableEq, Repr

namespace Fault

/-- The text of a fault. -/
def message : Fault → String
  | unsupportedType type => String.join ["unsupported type: ", type]
  | typeMismatch path expected found =>
    String.join ["type mismatch at ", path.text, ": expected ", expected, ", found ", found]
  | missingField path field => String.join ["missing field '", field, "' at ", path.text]
  | unexpectedField path field => String.join ["undeclared field '", field, "' at ", path.text]
  | noMatchingMember path union found =>
    String.join ["no member of ", union, " accepts ", found, " at ", path.text]
  | undecodable path expected found =>
    String.join ["cannot decode ", found, " literal as ", expected, " at ", path.text]
  | malformedDocument path => String.join ["malformed JSON document at ", path.text]
  | ambiguousType descriptor candidates =>
    String.join ["no canonical host type for ", descriptor, "; candidates: [",
      ", ".intercalate candidates, "]"]
  | emptyStream path => String.join ["empty stream at ", path.text]
  | protectedKey key =>
    String.join ["transformer for '", key, "' is built in and cannot be replaced"]
  | nestingLimit path => String.join ["nesting limit exceeded at ", path.text]
  | cancelled => "conversion cancelled"
  | workerReentry => "blocking bridge call from the bridge thread"
  | storage fault => String.join ["storage error: ", fault.message]
  | bytes fault => String.join ["codec error: ", fault.message]

/-- The text of the fault behind this one, if another layer raised it. -/
def cause? : Fault → Option String
  | storage fault => some fault.message
  | bytes fault => some fault.message
  | _ => none

/-- Whether a fault only says that a value is not of a type: then another member of a union may
still take it. -/
def isRejection : Fault → Bool
  | typeMismatch _ _ _ | missingField _ _ | unexpectedField _ _ | noMatchingMember _ _ _ => true
  | _ => false

end Fault

end Interchange
