import Interchange.Registry.Lookup
import Interchange.Session

/-!
# Describing host types

The descriptor of a host type, by the converter that the registry resolves the type to.

Generic types are described from the descriptors of their parameters, at the same level.  The fields
of a record stand one level further in, and there is a limit to the levels, so that also a record
that contains itself is described in finite time, by a refusal.  Descriptors are remembered by their
types, whatever the level at which they were found.
-/

namespace Interchange

/-- What is offered one level further in, at the place there; a refusal if no level is left. -/
def enter {α : Type} (deeper : Option α) (place : Place) (s : Segment) :
    Except Fault (α × Place) :=
  match deeper with
  | none => .error (.nestingLimit (place.path.child s))
  | some a => .ok (a, place.child s)

@[simp] theorem enter_none {α : Type} (place : Place) (s : Segment) :
    enter (none : Option α) place s = .error (.nestingLimit (place.path.child s)) := rfl

@[simp] theorem enter_some {α : Type} (a : α) (place : Place) (s : Segment) :
    enter (some a) place s = .ok (a, place.child s) := rfl

/-- How a union is handled. -/
inductive UnionForm where
  /-- It has no members, and no values. -/
  | void
  /-- It has one member and is that type. -/
  | plain
  /-- It is one type or none, and carries no tag. -/
  | optional
  | tagged
deriving DecidableEq, Repr

namespace HostType

/-- How a union of these members is handled. -/
def unionForm (members : List HostType) : UnionForm :=
  match members with
  | [] => .void
  | members => match members.filter (!·.isNone) with
    | [_] => if members.any (·.isNone) then .optional else .plain
    | _ => .tagged

@[simp] theorem unionForm_nil : unionForm [] = .void := rfl

end HostType

/-- The fault of a type that a converter does not take. -/
def unsupported (t : HostType) : Fault := .unsupportedType t.text

/-- Describes a host type at a place. -/
abbrev Describer := Place → HostType → Conversion Descriptor

/-- The first member that is not the type of the absent value. -/
def valued? {α : Type} (parts : List (HostType × α)) : Option (HostType × α) :=
  parts.find? (!·.1.isNone)

/-- Remembers the descriptor of a type, or takes the one that is remembered. -/
def remembering (t : HostType) (describe : Conversion Descriptor) : Conversion Descriptor := do
  match (← get).described? t with
  | some d => return d
  | none =>
    let d ← describe
    modify (·.remember t d)
    return d

/-- Refuses a member that is described like an earlier one. -/
def checkDistinct (seen : List (HostType × Descriptor)) (t : HostType) (d : Descriptor) :
    Except Fault Unit :=
  match seen.find? (·.2 = d) with
  | some (other, _) => .error (.ambiguousType d.text [other.text, t.text])
  | none => .ok ()

/-- Describes the members of a tagged union, after those already seen. -/
def describeMembers (seen : List (HostType × Descriptor)) :
    List (HostType × Conversion Descriptor) → Conversion Descriptor
  | [] => return .ofMembers (seen.map (·.2)) Descriptor.defaultTagField
  | (t, describe) :: parts => do
    let d ← describe
    .ofExcept (checkDistinct seen t d)
    describeMembers (seen ++ [(t, d)]) parts

/-- Describes the fields of a record, one level further in. -/
def describeFields (deeper : Option Describer) (place : Place) :
    List (String × HostType) → Conversion (List (String × Descriptor))
  | [] => return []
  | (name, t) :: fields => do
    let (describe, inner) ← .ofExcept (enter deeper place (.field name))
    let d ← describe inner t
    return (name, d) :: (← describeFields deeper place fields)

namespace Registry

/-- The fields that a record type has by itself or by its name. -/
def schemaOf (r : Registry) : HostType → Except Fault Schema
  | .record name fields isOpen => .ok ⟨name, fields, isOpen⟩
  | .named name => match r.nearestSchema? name with
    | some s => .ok s
    | none => .error (unsupported (.named name))
  | t => .error (unsupported t)

/-- Describes a host type by a converter, given how its parts are described. -/
def describeBy (r : Registry) (deeper : Option Describer) (place : Place) (c : Converter)
    (t : HostType) (parts : List (HostType × Conversion Descriptor)) : Conversion Descriptor :=
  match c, t, parts with
  | .primitive kind, _, _ => return .primitive kind
  | .reference _ extent, _, _ => return .blob ⟨"", extent⟩
  | .jsonLines, _, _ => return .blob JsonLines.blobType
  | .plugin p, t, _ => .ofExcept (p.describe r.directory t)
  | .sequence, .list _, [(_, element)] => .collection <$> element
  | .mapping, .dict _, [(_, value)] => .mapping <$> value
  | .optional, .optional _, [(_, inner)] => Descriptor.orNone <$> inner
  | .union, .union members, parts => match HostType.unionForm members, valued? parts with
    | .plain, some (_, only) => only
    | .optional, some (_, inner) => Descriptor.orNone <$> inner
    | .tagged, _ => describeMembers [] parts
    | _, _ => throw (unsupported t)
  | .record, t, _ => do
    let s ← .ofExcept (r.schemaOf t)
    return .record (← describeFields deeper place s.fields)
  | _, t, _ => throw (unsupported t)

/-- Describes a host type, given how its parts are described. -/
def describeStep (r : Registry) (deeper : Option Describer) (place : Place) (t : HostType)
    (parts : List (HostType × Conversion Descriptor)) : Conversion Descriptor :=
  remembering t do
    let c ← .ofExcept (r.resolve t)
    r.describeBy deeper place c t parts

/-- Describes a host type, given how types are described one level further in. -/
def describeWith (r : Registry) (deeper : Option Describer) : Describer :=
  fun place ↦ HostType.fold (r.describeStep deeper place)

/-- Describes a host type where so many levels are left. -/
def describe (r : Registry) : Nat → Describer
  | 0 => r.describeWith none
  | levels + 1 => r.describeWith (some (r.describe levels))

end Registry

end Interchange
