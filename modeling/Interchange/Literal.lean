import Interchange.Descriptor
import Interchange.Entries

/-!
# Literals

A literal is a concrete value on the wire: plain data, a reference to a stored payload, and
collections, mappings, records and unions of these.  A union literal names the member it was written
as.

`Literal.conforms` says whether a literal has the shape that a descriptor describes.  A literal
without a union tag conforms to a union when it conforms to one of its members, which is how
optional values travel.
-/

namespace Interchange

/-- A concrete value on the wire. -/
inductive Literal where
  | scalar (value : Scalar)
  | blob (value : Blob)
  | collection (items : List Literal)
  | mapping (entries : List (String × Literal))
  | record (fields : List (String × Literal))
  | union (type : Descriptor) (value : Literal)

namespace Literal

/-- The absent value. -/
def none : Literal := scalar .none

def isNone : Literal → Bool
  | scalar .none => true
  | _ => false

/-- The shape of a literal in a word. -/
def shape : Literal → String
  | scalar s => s.kind.name
  | blob _ => "blob"
  | collection _ => "collection"
  | mapping _ => "mapping"
  | record _ => "record"
  | union _ _ => "union"

/-- The data of a literal that is plain data other than none. -/
def primitive? : Literal → Option Scalar
  | scalar .none => Option.none
  | scalar s => some s
  | _ => Option.none

def blob? : Literal → Option Blob
  | blob b => some b
  | _ => Option.none

/-! ## Order of entries -/

mutual

/-- Whether the entries of every mapping and record within are ordered by name. -/
def Ordered : Literal → Prop
  | scalar _ | blob _ => True
  | collection items => OrderedItems items
  | mapping entries => Entries.Ordered entries ∧ OrderedEntries entries
  | record fields => Entries.Ordered fields ∧ OrderedEntries fields
  | union _ value => Ordered value

def OrderedItems : List Literal → Prop
  | [] => True
  | l :: ls => Ordered l ∧ OrderedItems ls

def OrderedEntries : List (String × Literal) → Prop
  | [] => True
  | (_, l) :: es => Ordered l ∧ OrderedEntries es

end

/-! ## Equality of values -/

mutual

/-- Equality of literals, floats compared as numbers: a NaN differs from itself. -/
def equal : Literal → Literal → Bool
  | scalar a, scalar b => a.equal b
  | blob a, blob b => a = b
  | collection as, collection bs => equalItems as bs
  | mapping as, mapping bs => equalEntries as bs
  | record as, record bs => equalEntries as bs
  | union s a, union t b => s = t && equal a b
  | _, _ => false

def equalItems : List Literal → List Literal → Bool
  | [], [] => true
  | a :: as, b :: bs => equal a b && equalItems as bs
  | _, _ => false

def equalEntries : List (String × Literal) → List (String × Literal) → Bool
  | [], [] => true
  | (m, a) :: as, (n, b) :: bs => m = n && equal a b && equalEntries as bs
  | _, _ => false

end

/-! ## Conformance -/

end Literal

/-- Whether a type that is no union satisfies a predicate, or some member of a union does, at any
depth of unions. -/
def Descriptor.someMember (p : Descriptor → Bool) : Descriptor → Bool
  | .union members _ => go members
  | d => p d
where
  go : List Descriptor → Bool
    | [] => false
    | d :: ds => someMember p d || go ds

namespace Literal

mutual

/-- Whether a literal has the shape that a descriptor describes. -/
def conforms : Literal → Descriptor → Bool
  | scalar s => Descriptor.someMember fun d ↦ match d with
    | .primitive kind => s.kind = kind
    | _ => false
  | blob b => Descriptor.someMember fun d ↦ match d with
    | .blob type => b.type.extent = type.extent && (type.format = "" || b.type.format = type.format)
    | _ => false
  | collection items => Descriptor.someMember fun d ↦ match d with
    | .collection element => conformAll items element
    | _ => false
  | mapping entries => Descriptor.someMember fun d ↦ match d with
    | .mapping value => conformEntries entries value
    | _ => false
  | record fields => Descriptor.someMember fun d ↦ match d with
    | .record types => types.all fun (name, type) ↦ conformsField fields name type
    | _ => false
  | union type value => fun d ↦ match d with
    | .union members _ => members.contains type && conforms value type
    | _ => false

def conformAll : List Literal → Descriptor → Bool
  | [], _ => true
  | l :: ls, d => conforms l d && conformAll ls d

def conformEntries : List (String × Literal) → Descriptor → Bool
  | [], _ => true
  | (_, l) :: es, d => conforms l d && conformEntries es d

/-- Whether the item under a name conforms. -/
def conformsField : List (String × Literal) → String → Descriptor → Bool
  | [], _, _ => false
  | (n, l) :: es, name, d => if name = n then conforms l d else conformsField es name d

end

/-- A literal that carries no union tag. -/
def isUntagged : Literal → Bool
  | union _ _ => false
  | _ => true

theorem someMember_union (p : Descriptor → Bool) (members : List Descriptor) (tagField : String) :
    Descriptor.someMember p (.union members tagField) = members.any (Descriptor.someMember p) := by
  simp only [Descriptor.someMember]
  induction members with
  | nil => simp [Descriptor.someMember.go]
  | cons d ds ih => simp [Descriptor.someMember.go, ih]

/-- An untagged literal conforms to a union when it conforms to some member. -/
theorem conforms_union_of_isUntagged {l : Literal} (h : l.isUntagged = true)
    (members : List Descriptor) (tagField : String) :
    l.conforms (.union members tagField) = members.any l.conforms := by
  cases l with
  | union => simp [isUntagged] at h
  | _ => simp only [conforms, someMember_union]

/-- A tagged literal conforms to a union that has its tag among the members. -/
@[simp] theorem conforms_union_union (type : Descriptor) (value : Literal)
    (members : List Descriptor) (tagField : String) :
    (union type value).conforms (.union members tagField) =
      (members.contains type && value.conforms type) := by
  simp only [conforms]

end Literal

end Interchange
