import Interchange.Scalar
import Interchange.Text.Quoted

/-!
# Descriptors

A descriptor says what shape a literal has, without reference to any host language.  Two
descriptors are equal exactly when their shapes are, the order of record fields and of union
members included.
-/

namespace Interchange

/-- The type of a literal. -/
inductive Descriptor where
  | primitive (kind : Kind)
  | collection (element : Descriptor)
  | mapping (value : Descriptor)
  | union (members : List Descriptor) (tagField : String)
  | blob (type : BlobType)
  | record (fields : List (String × Descriptor))
deriving Repr

namespace Descriptor

/-! ## Equality -/

mutual

/-- Whether two descriptors are the same shape. -/
def decEq : (a b : Descriptor) → Decidable (a = b)
  | primitive k, primitive l => if h : k = l then isTrue (by rw [h]) else isFalse (by simp [h])
  | collection a, collection b => match decEq a b with
    | isTrue h => isTrue (by rw [h])
    | isFalse h => isFalse (by simp [h])
  | mapping a, mapping b => match decEq a b with
    | isTrue h => isTrue (by rw [h])
    | isFalse h => isFalse (by simp [h])
  | union as s, union bs t => match decEqMembers as bs with
    | isTrue h => if g : s = t then isTrue (by rw [h, g]) else isFalse (by simp [g])
    | isFalse h => isFalse (by simp [h])
  | blob s, blob t => if h : s = t then isTrue (by rw [h]) else isFalse (by simp [h])
  | record as, record bs => match decEqFields as bs with
    | isTrue h => isTrue (by rw [h])
    | isFalse h => isFalse (by simp [h])
  | primitive _, collection _ | primitive _, mapping _ | primitive _, union _ _
  | primitive _, blob _ | primitive _, record _
  | collection _, primitive _ | collection _, mapping _ | collection _, union _ _
  | collection _, blob _ | collection _, record _
  | mapping _, primitive _ | mapping _, collection _ | mapping _, union _ _
  | mapping _, blob _ | mapping _, record _
  | union _ _, primitive _ | union _ _, collection _ | union _ _, mapping _
  | union _ _, blob _ | union _ _, record _
  | blob _, primitive _ | blob _, collection _ | blob _, mapping _ | blob _, union _ _
  | blob _, record _
  | record _, primitive _ | record _, collection _ | record _, mapping _ | record _, union _ _
  | record _, blob _ => isFalse (by simp)

def decEqMembers : (as bs : List Descriptor) → Decidable (as = bs)
  | [], [] => isTrue rfl
  | a :: as, b :: bs => match decEq a b, decEqMembers as bs with
    | isTrue h, isTrue g => isTrue (by rw [h, g])
    | isFalse h, _ => isFalse (by simp [h])
    | _, isFalse h => isFalse (by simp [h])
  | [], _ :: _ | _ :: _, [] => isFalse (by simp)

def decEqFields : (as bs : List (String × Descriptor)) → Decidable (as = bs)
  | [], [] => isTrue rfl
  | (m, a) :: as, (n, b) :: bs => match decEq a b, decEqFields as bs with
    | isTrue h, isTrue g => if e : m = n then isTrue (by rw [h, g, e]) else isFalse (by simp [e])
    | isFalse h, _ => isFalse (by simp [h])
    | _, isFalse h => isFalse (by simp [h])
  | [], _ :: _ | _ :: _, [] => isFalse (by simp)

end

instance : DecidableEq Descriptor := decEq

/-! ## Unions -/

/-- The tag field of unions that do not name one. -/
def defaultTagField : String := "tag"

/-- A union without repeated members; of equal ones the first stays. -/
def ofMembers (members : List Descriptor) (tagField : String) : Descriptor :=
  union members.eraseDups tagField

/-- The members of a union with none added at the end, or the type itself with none. -/
def orNone : Descriptor → Descriptor
  | union members tagField => ofMembers (members ++ [primitive .none]) tagField
  | d => ofMembers [d, primitive .none] defaultTagField

/-- The other member of a two-member union with none. -/
def optionalInner? : Descriptor → Option Descriptor
  | union [a, b] _ =>
    if a = primitive .none then if b = primitive .none then none else some b
    else if b = primitive .none then some a
    else none
  | _ => none

/-! ## Parts -/

/-- The descriptors that a descriptor is over. -/
def parts : Descriptor → List Descriptor
  | primitive _ | blob _ => []
  | collection d | mapping d => [d]
  | union members _ => members
  | record fields => fields.map (·.2)

section

variable {α : Type}

mutual

/-- Works on a descriptor from what the same work gives for its parts. -/
def fold (step : Descriptor → List (Descriptor × α) → α) : Descriptor → α
  | primitive kind => step (primitive kind) []
  | collection d => step (collection d) [(d, fold step d)]
  | mapping d => step (mapping d) [(d, fold step d)]
  | union members tagField => step (union members tagField) (foldEach step members)
  | blob type => step (blob type) []
  | record fields => step (record fields) (foldFields step fields)

def foldEach (step : Descriptor → List (Descriptor × α) → α) :
    List Descriptor → List (Descriptor × α)
  | [] => []
  | d :: ds => (d, fold step d) :: foldEach step ds

def foldFields (step : Descriptor → List (Descriptor × α) → α) :
    List (String × Descriptor) → List (Descriptor × α)
  | [] => []
  | (_, d) :: fields => (d, fold step d) :: foldFields step fields

end

theorem foldEach_eq_map (step : Descriptor → List (Descriptor × α) → α) (ds : List Descriptor) :
    foldEach step ds = ds.map fun d ↦ (d, fold step d) := by
  induction ds with
  | nil => rfl
  | cons d ds ih => rw [foldEach, ih, List.map_cons]

theorem foldFields_eq_map (step : Descriptor → List (Descriptor × α) → α)
    (fields : List (String × Descriptor)) :
    foldFields step fields = fields.map fun f ↦ (f.2, fold step f.2) := by
  induction fields with
  | nil => rfl
  | cons f fields ih => rw [foldFields, ih, List.map_cons]

/-- One step of the work on a descriptor. -/
theorem fold_eq (step : Descriptor → List (Descriptor × α) → α) (d : Descriptor) :
    fold step d = step d (d.parts.map fun d ↦ (d, fold step d)) := by
  cases d <;> simp [fold, parts, foldEach_eq_map, foldFields_eq_map, Function.comp_def]

end

/-! ## Lookup and text -/

/-- The shape of a descriptor in a word. -/
def shape : Descriptor → String
  | primitive _ => "primitive"
  | collection _ => "collection"
  | mapping _ => "mapping"
  | union _ _ => "union"
  | blob _ => "blob"
  | record _ => "record"

/-- The type of a record's first field of that name. -/
def field? (name : String) : Descriptor → Option Descriptor
  | record fields => fields.lookup name
  | _ => none

mutual

/-- The text of a descriptor in messages. -/
def text : Descriptor → String
  | primitive kind => kind.name
  | collection element => "collection<" ++ text element ++ ">"
  | mapping value => "mapping<" ++ text value ++ ">"
  | union members _ => "union<" ++ " | ".intercalate (memberTexts members) ++ ">"
  | blob type => "blob<" ++ Text.quoted type.format ++ ", " ++ type.extent.name ++ ">"
  | record fields => "record\x7b" ++ ", ".intercalate (fieldTexts fields) ++ "\x7d"

def memberTexts : List Descriptor → List String
  | [] => []
  | d :: ds => text d :: memberTexts ds

def fieldTexts : List (String × Descriptor) → List String
  | [] => []
  | (name, d) :: fields => (name ++ ": " ++ text d) :: fieldTexts fields

end

end Descriptor

end Interchange
