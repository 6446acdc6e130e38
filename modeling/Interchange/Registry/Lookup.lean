import Interchange.Registry.Basic

/-!
# Looking up converters

The ancestors of a type are the types that its declared parents lead to, depth first and from left
to right, each at its first occurrence.

A type known by name is converted by what is registered under its name, or as a record if one is
declared under its name, or as its first ancestor that has either.  A generic type is converted by
what is registered for its shape.  What finds nothing goes to the wildcard.
-/

namespace Interchange.Registry

/-! ## Ancestors -/

/-- The direct parents of a type. -/
def parentsOf (r : Registry) (name : String) : List String := (r.parents.lookup name).getD []

/-- A table without what it holds for a name. -/
def without (table : List (String × List String)) (name : String) :
    List (String × List String) :=
  table.filter (·.1 ≠ name)

/-- A table gets shorter without a name that it holds. -/
theorem length_without_lt {table : List (String × List String)} {name : String}
    {parents : List String} (h : table.lookup name = some parents) :
    (without table name).length < table.length := by
  unfold without
  induction table with
  | nil => simp at h
  | cons p table ih =>
    by_cases hp : p.1 = name
    · simp [hp, Nat.lt_succ_of_le (List.length_filter_le _ _)]
    · have hp' : (name == p.1) = false := by simpa using fun e ↦ hp e.symm
      rw [List.lookup_cons] at h
      simp only [hp'] at h
      simpa [hp] using ih h

/-- The types that pending ones lead to, without those already seen.  Each type whose parents are
followed leaves the table, so the walk ends also where parents lead in a circle. -/
def walk (table : List (String × List String)) (seen : List String) :
    List String → List String
  | [] => []
  | name :: pending =>
    if name ∈ seen then walk table seen pending
    else match _held : table.lookup name with
      | none => name :: walk table (name :: seen) pending
      | some parents =>
        name :: walk (without table name) (name :: seen) (parents ++ pending)
termination_by pending => (table.length, pending.length)
decreasing_by
  · exact Prod.Lex.right _ (Nat.lt_succ_self _)
  · exact Prod.Lex.right _ (Nat.lt_succ_self _)
  · exact Prod.Lex.left _ _ (length_without_lt (by assumption))

/-- The ancestors of a type, itself left out. -/
def ancestors (r : Registry) (name : String) : List String :=
  walk r.parents [name] (r.parentsOf name)

/-- Whether a type is another one, or has it as an ancestor. -/
def isSubtype (r : Registry) (child ancestor : String) : Bool :=
  child = ancestor || (r.ancestors child).contains ancestor

/-! ## Records -/

/-- The record declared under a name. -/
def schema? (r : Registry) (name : String) : Option Schema := r.records.find? (·.name = name)

/-- The record declared for a type, or for its first ancestor that has one. -/
def nearestSchema? (r : Registry) (name : String) : Option Schema :=
  (name :: r.ancestors name).findSome? r.schema?

/-! ## Resolution -/

/-- What converts a type by its name, or as a record declared under its name. -/
def byName? (r : Registry) (name : String) : Option Converter :=
  match r.exact name with
  | some entry => some entry.converter
  | none => do
    let _ ← r.schema? name
    return (← r.origins .record).converter

/-- What converts a type. -/
def resolve (r : Registry) (t : HostType) : Except Fault Converter :=
  let found := match t with
    | .named name => (name :: r.ancestors name).findSome? r.byName?
    | t => do return (← r.origins (← t.origin?)).converter
  match found.or (r.wildcard.map (·.converter)) with
  | some c => .ok c
  | none => .error (.unsupportedType t.text)

/-! ## Converters for descriptors -/

/-- What guesses the host type of a stored payload: the latest claim to its very type, or the only
claim to any format of its extent. -/
def claimant (r : Registry) (type : BlobType) : Except Fault Converter :=
  match r.claimOf? type with
  | some claim => .ok claim.converter
  | none =>
    let candidates := r.claims.filter (·.format.extent = type.extent)
    match candidates.filter (·.format.format = "") with
    | [claim] => .ok claim.converter
    | _ =>
      let text := (Descriptor.blob type).text
      if candidates.isEmpty then .error (.unsupportedType text)
      else .error (.ambiguousType text (candidates.map (·.host)).eraseDups)

/-- What guesses the host type of a descriptor. -/
def guesser (r : Registry) (d : Descriptor) : Except Fault Converter :=
  let shaped (o : Origin) : Option Converter := (r.origins o).map (·.converter)
  let found : Except Fault (Option Converter) := match d with
    | .primitive kind => .ok ((r.exact kind.hostName).map (·.converter))
    | .collection _ => .ok (shaped .sequence)
    | .mapping _ => .ok (shaped .mapping)
    | .union _ _ =>
      .ok (if d.optionalInner?.isSome then (shaped .optional).or (shaped .union)
        else shaped .union)
    | .record _ => .ok (shaped .record)
    | .blob type => some <$> r.claimant type
  match found with
  | .error e => .error e
  | .ok (some c) => .ok c
  | .ok none => .error (.unsupportedType d.text)

end Interchange.Registry
