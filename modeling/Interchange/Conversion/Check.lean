import Interchange.Conversion.Describe
import Interchange.Json.Value

/-!
# Checking values

Whether a value fits a host type, without writing anything.  The items of a stream are not looked
at, since they can only be taken once.
-/

namespace Interchange

/-- Checks a value against a host type at a place. -/
abbrev Checker := Place → HostType → Value → Except Fault Unit

/-- The fault of a value that no member of a union takes. -/
def Place.noMember (p : Place) (union : HostType) (v : Value) : Fault :=
  .noMatchingMember p.path union.text v.describe

/-- The first candidate that passes a check.  A fault that is no rejection ends the search. -/
def firstAccepting {α : Type} (otherwise : Fault) (check : α → Except Fault Unit) :
    List α → Except Fault α
  | [] => .error otherwise
  | a :: as => match check a with
    | .ok _ => .ok a
    | .error e => if e.isRejection then firstAccepting otherwise check as else .error e

/-- Checks items one level further in, from a position on. -/
def checkItems (deeper : Option Checker) (place : Place) (element : HostType) :
    Nat → List Value → Except Fault Unit
  | _, [] => .ok ()
  | i, v :: vs => do
    let (check, inner) ← enter deeper place (.index i)
    check inner element v
    checkItems deeper place element (i + 1) vs

/-- Checks the items of a map one level further in. -/
def checkEntries (deeper : Option Checker) (place : Place) (value : HostType) :
    List (String × Value) → Except Fault Unit
  | [] => .ok ()
  | (key, v) :: es => do
    let (check, inner) ← enter deeper place (.key key)
    check inner value v
    checkEntries deeper place value es

/-- Checks the declared fields of a record that carries them, one level further in. -/
def checkFields (deeper : Option Checker) (place : Place) (carried : List (String × Value)) :
    List (String × HostType) → Except Fault Unit
  | [] => .ok ()
  | (name, t) :: fields => do
    match Entries.get? name carried with
    | none => checkFields deeper place carried fields
    | some v =>
      let (check, inner) ← enter deeper place (.field name)
      check inner t v
      checkFields deeper place carried fields

namespace Registry

/-- The fields of a record value that fits a schema as a whole: its type is that of the schema or
has it as an ancestor, no declared field is missing, and a closed schema has all its fields. -/
def fieldsFor (r : Registry) (place : Place) (s : Schema) (v : Value) :
    Except Fault (List (String × Value)) :=
  match v with
  | .record name fields => do
    if (name.map fun n ↦ r.isSubtype n s.name) = some false then throw (place.mismatch s.name v)
    match s.fields.find? fun f ↦ (Entries.get? f.1 fields).isNone with
    | some (missing, _) => throw (.missingField place.path missing)
    | none => pure ()
    match fields.find? fun f ↦ !s.isOpen && (s.get? f.1).isNone with
    | some (extra, _) => throw (.unexpectedField place.path extra)
    | none => return fields
  | v => .error (place.mismatch s.name v)

/-- Checks a value by a converter, given how it is checked against the parts of the type. -/
def checkBy (r : Registry) (deeper : Option Checker) (place : Place) (c : Converter)
    (t : HostType) (parts : List (HostType × (Value → Except Fault Unit))) (v : Value) :
    Except Fault Unit :=
  match c, t, parts with
  | .primitive kind, _, _ => match v with
    | .scalar s => if (s.as? kind).isSome then .ok () else .error (place.mismatch kind.hostName v)
    | v => .error (place.mismatch kind.hostName v)
  | .reference name extent, _, _ => match v with
    | .blob b => if b.type.extent = extent then .ok () else .error (place.mismatch name v)
    | v => .error (place.mismatch name v)
  | .jsonLines, _, _ => match v with
    | .stream _ => .ok ()
    | .list items => (Value.itemsToJson place.path 0 items).map fun _ ↦ ()
    | v => .error (place.mismatch JsonLines.typeName v)
  | .plugin p, t, _ => p.check place.path t v
  | .sequence, .list element, _ => match v with
    | .list items => checkItems deeper place element 0 items
    | .stream _ => .ok ()
    | v => .error (place.mismatch t.text v)
  | .mapping, .dict value, _ => match v with
    | .map entries => checkEntries deeper place value entries
    | v => .error (place.mismatch t.text v)
  | .optional, .optional _, [(_, check)] => if v.isNone then .ok () else check v
  | .union, .union members, parts => match HostType.unionForm members, valued? parts with
    | .plain, some (_, check) => check v
    | .optional, some (_, check) => if v.isNone then .ok () else check v
    | .tagged, _ =>
      (firstAccepting (place.noMember t v) (fun p ↦ p.2 v) parts).map fun _ ↦ ()
    | _, _ => .error (unsupported t)
  | .record, t, _ => do
    let s ← r.schemaOf t
    let fields ← r.fieldsFor place s v
    checkFields deeper place fields s.fields
  | _, t, _ => .error (unsupported t)

/-- Checks a value, given how it is checked against the parts of its type. -/
def checkStep (r : Registry) (deeper : Option Checker) (place : Place) (t : HostType)
    (parts : List (HostType × (Value → Except Fault Unit))) (v : Value) : Except Fault Unit := do
  r.checkBy deeper place (← r.resolve t) t parts v

/-- Checks a value, given how values are checked one level further in. -/
def checkWith (r : Registry) (deeper : Option Checker) : Checker :=
  fun place ↦ HostType.fold (r.checkStep deeper place)

/-- Checks a value where so many levels are left. -/
def check (r : Registry) : Nat → Checker
  | 0 => r.checkWith none
  | levels + 1 => r.checkWith (some (r.check levels))

end Registry

end Interchange
