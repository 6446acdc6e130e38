import Interchange.Scalar

/-!
# Host types

A host type says what a value is meant to be: a type known by name, or one of the generic shapes
over other host types.  A record type carries its fields; one that is open takes further fields
beside the declared ones.
-/

namespace Interchange

/-- What a value is meant to be. -/
inductive HostType where
  | named (name : String)
  | list (element : HostType)
  | dict (value : HostType)
  | optional (inner : HostType)
  | union (members : List HostType)
  | record (name : String) (fields : List (String × HostType)) (isOpen : Bool)
deriving Repr

namespace HostType

/-! ## Equality -/

mutual

/-- Whether two host types are the same. -/
def decEq : (a b : HostType) → Decidable (a = b)
  | named m, named n => if h : m = n then isTrue (by rw [h]) else isFalse (by simp [h])
  | list a, list b => match decEq a b with
    | isTrue h => isTrue (by rw [h])
    | isFalse h => isFalse (by simp [h])
  | dict a, dict b => match decEq a b with
    | isTrue h => isTrue (by rw [h])
    | isFalse h => isFalse (by simp [h])
  | optional a, optional b => match decEq a b with
    | isTrue h => isTrue (by rw [h])
    | isFalse h => isFalse (by simp [h])
  | union as, union bs => match decEqMembers as bs with
    | isTrue h => isTrue (by rw [h])
    | isFalse h => isFalse (by simp [h])
  | record m as s, record n bs t => match decEqFields as bs with
    | isTrue h =>
      if g : m = n ∧ s = t then isTrue (by rw [h, g.1, g.2])
      else isFalse (by simp; intro e _ f; exact g ⟨e, f⟩)
    | isFalse h => isFalse (by simp [h])
  | named _, list _ | named _, dict _ | named _, optional _ | named _, union _
  | named _, record _ _ _
  | list _, named _ | list _, dict _ | list _, optional _ | list _, union _ | list _, record _ _ _
  | dict _, named _ | dict _, list _ | dict _, optional _ | dict _, union _ | dict _, record _ _ _
  | optional _, named _ | optional _, list _ | optional _, dict _ | optional _, union _
  | optional _, record _ _ _
  | union _, named _ | union _, list _ | union _, dict _ | union _, optional _
  | union _, record _ _ _
  | record _ _ _, named _ | record _ _ _, list _ | record _ _ _, dict _ | record _ _ _, optional _
  | record _ _ _, union _ => isFalse (by simp)

def decEqMembers : (as bs : List HostType) → Decidable (as = bs)
  | [], [] => isTrue rfl
  | a :: as, b :: bs => match decEq a b, decEqMembers as bs with
    | isTrue h, isTrue g => isTrue (by rw [h, g])
    | isFalse h, _ => isFalse (by simp [h])
    | _, isFalse h => isFalse (by simp [h])
  | [], _ :: _ | _ :: _, [] => isFalse (by simp)

def decEqFields : (as bs : List (String × HostType)) → Decidable (as = bs)
  | [], [] => isTrue rfl
  | (m, a) :: as, (n, b) :: bs => match decEq a b, decEqFields as bs with
    | isTrue h, isTrue g => if e : m = n then isTrue (by rw [h, g, e]) else isFalse (by simp [e])
    | isFalse h, _ => isFalse (by simp [h])
    | _, isFalse h => isFalse (by simp [h])
  | [], _ :: _ | _ :: _, [] => isFalse (by simp)

end

instance : DecidableEq HostType := decEq

end HostType

/-- The fields of a record type under its name. -/
structure Schema where
  name : String
  fields : List (String × HostType)
  isOpen : Bool
deriving DecidableEq, Repr

namespace Schema

/-- The type of the first field of that name. -/
def get? (s : Schema) (name : String) : Option HostType := s.fields.lookup name

/-- The record type that carries the schema itself. -/
def type (s : Schema) : HostType := .record s.name s.fields s.isOpen

/-- The name given to record types that are rebuilt from a descriptor alone. -/
def anonymousName : String := "record"

end Schema

/-- The generic shapes of host types. -/
inductive Origin where
  | sequence | mapping | optional | union | record
deriving DecidableEq, Repr

def Origin.name : Origin → String
  | sequence => "sequence"
  | mapping => "mapping"
  | optional => "optional"
  | union => "union"
  | record => "record"

namespace HostType

/-- The generic shape of a type that is not known by name. -/
def origin? : HostType → Option Origin
  | named _ => none
  | list _ => some .sequence
  | dict _ => some .mapping
  | optional _ => some .optional
  | union _ => some .union
  | record _ _ _ => some .record

def name? : HostType → Option String
  | named name => some name
  | _ => none

/-- The type of plain data of a kind. -/
def ofKind (k : Kind) : HostType := named k.hostName

/-- Whether a type is that of the absent value. -/
def isNone (t : HostType) : Bool := t = ofKind .none

@[simp] theorem isNone_ofKind_none : (ofKind .none).isNone = true := by simp [isNone]

/-! ## Parts -/

/-- The types that a generic type is over and that stand at its own level; the fields of a record
stand one level further in. -/
def parts : HostType → List HostType
  | named _ | record _ _ _ => []
  | list t | dict t | optional t => [t]
  | union members => members

section

variable {α : Type}

mutual

/-- Works on a type from what the same work gives for its parts. -/
def fold (step : HostType → List (HostType × α) → α) : HostType → α
  | named name => step (named name) []
  | list t => step (list t) [(t, fold step t)]
  | dict t => step (dict t) [(t, fold step t)]
  | optional t => step (optional t) [(t, fold step t)]
  | union members => step (union members) (foldEach step members)
  | record name fields isOpen => step (record name fields isOpen) []

def foldEach (step : HostType → List (HostType × α) → α) : List HostType → List (HostType × α)
  | [] => []
  | t :: ts => (t, fold step t) :: foldEach step ts

end

theorem foldEach_eq_map (step : HostType → List (HostType × α) → α) (ts : List HostType) :
    foldEach step ts = ts.map fun t ↦ (t, fold step t) := by
  induction ts with
  | nil => rfl
  | cons t ts ih => rw [foldEach, ih, List.map_cons]

/-- One step of the work on a type. -/
theorem fold_eq (step : HostType → List (HostType × α) → α) (t : HostType) :
    fold step t = step t (t.parts.map fun t ↦ (t, fold step t)) := by
  cases t <;> simp [fold, parts, foldEach_eq_map]

end

/-! ## Text -/

mutual

/-- The text of a host type in messages. -/
def text : HostType → String
  | named name => name
  | list element => "list[" ++ text element ++ "]"
  | dict value => "dict[str, " ++ text value ++ "]"
  | optional inner => "Optional[" ++ text inner ++ "]"
  | union members => "Union[" ++ ", ".intercalate (texts members) ++ "]"
  | record name _ _ => name

def texts : List HostType → List String
  | [] => []
  | t :: ts => text t :: texts ts

end

end HostType

end Interchange
