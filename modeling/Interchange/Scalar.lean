import Interchange.Number.Binary64
import Interchange.Time.Timestamp

/-!
# Scalars

The kinds of plain data that descriptors, literals and host values share, and references to
payloads that are stored elsewhere.
-/

namespace Interchange

/-- The kinds of plain data. -/
inductive Kind where
  | none | integer | float | string | boolean | datetime | duration | binary
deriving DecidableEq, Repr

namespace Kind

/-- Every kind, in the order in which they are listed. -/
def all : List Kind := [none, integer, float, string, boolean, datetime, duration, binary]

/-- The name of a kind on the wire. -/
def name : Kind → String
  | none => "none"
  | integer => "integer"
  | float => "float"
  | string => "string"
  | boolean => "boolean"
  | datetime => "datetime"
  | duration => "duration"
  | binary => "binary"

/-- The name of a kind as a host type. -/
def hostName : Kind → String
  | none => "none"
  | integer => "int"
  | float => "float"
  | string => "str"
  | boolean => "bool"
  | datetime => "datetime"
  | duration => "timedelta"
  | binary => "bytes"

def ofName? : String → Option Kind
  | "none" => some none
  | "integer" => some integer
  | "float" => some float
  | "string" => some string
  | "boolean" => some boolean
  | "datetime" => some datetime
  | "duration" => some duration
  | "binary" => some binary
  | _ => Option.none

/-- A kind is read back from its name. -/
@[simp] theorem ofName?_name (k : Kind) : ofName? k.name = some k := by cases k <;> rfl

/-- Only a kind's own name reads as it. -/
theorem name_of_ofName? {name : String} {k : Kind} (h : ofName? name = some k) : k.name = name := by
  unfold ofName? at h
  split at h <;> cases h <;> rfl

end Kind

/-- A piece of plain data. -/
inductive Scalar where
  | none
  | integer (value : Int64)
  | float (value : Binary64)
  | string (value : String)
  | boolean (value : Bool)
  | datetime (value : Timestamp)
  | duration (value : Span)
  | binary (value : List UInt8)
deriving DecidableEq

namespace Scalar

def kind : Scalar → Kind
  | none => .none
  | integer _ => .integer
  | float _ => .float
  | string _ => .string
  | boolean _ => .boolean
  | datetime _ => .datetime
  | duration _ => .duration
  | binary _ => .binary

/-- Equality of data, floats compared as numbers. -/
def equal : Scalar → Scalar → Bool
  | float x, float y => x.equal y
  | a, b => a = b

/-- An integer as the float nearest to it; other data has no such reading. -/
def widen? : Scalar → Option Scalar
  | integer v => some (float (.ofInt v.toInt))
  | _ => Option.none

/-- Data read as a kind: as it is, or an integer as a float. -/
def as? (kind : Kind) (s : Scalar) : Option Scalar :=
  if s.kind = kind then some s
  else if kind = .float then s.widen?
  else Option.none

/-- Data of the kind itself is not changed. -/
@[simp] theorem as?_kind (s : Scalar) : s.as? s.kind = some s := by simp [as?]

/-- What is read as a kind is of that kind. -/
theorem kind_of_as? {k : Kind} {s t : Scalar} (h : s.as? k = some t) : t.kind = k := by
  unfold as? at h
  split at h
  · next hk => cases h; exact hk
  · split at h
    · next hk => cases s <;> simp [widen?] at h; subst h; exact hk.symm
    · cases h

end Scalar

/-- Whether a stored payload is one object, or many under one name. -/
inductive Extent where
  | single | multipart
deriving DecidableEq, Repr

namespace Extent

def name : Extent → String
  | single => "single"
  | multipart => "multipart"

def ofName? : String → Option Extent
  | "single" => some single
  | "multipart" => some multipart
  | _ => none

/-- An extent is read back from its name. -/
@[simp] theorem ofName?_name (e : Extent) : ofName? e.name = some e := by cases e <;> rfl

/-- Only an extent's own name reads as it. -/
theorem name_of_ofName? {name : String} {e : Extent} (h : ofName? name = some e) :
    e.name = name := by
  unfold ofName? at h
  split at h <;> cases h <;> rfl

end Extent

/-- The type of a stored payload.  An empty format stands for any. -/
structure BlobType where
  format : String
  extent : Extent
deriving DecidableEq, Repr

/-- A reference to a stored payload. -/
structure Blob where
  uri : String
  type : BlobType
deriving DecidableEq, Repr

end Interchange
