import Interchange.Conversion.Describe
import Interchange.Conversion.JsonLines
import Interchange.Conversion.Untyped

/-!
# Decoding literals

The value of a literal at a host type, level by level as values are encoded.

A tagged literal of a union is read as the member that is described like its tag.  An untagged one
is read as the only member that it conforms to, if there is just one.
-/

namespace Interchange

/-- Decodes a literal at a place. -/
abbrev Decoder := Place → HostType → Literal → Conversion Value

/-- Decodes items one level further in, from a position on. -/
def decodeItems (deeper : Option Decoder) (place : Place) (element : HostType) :
    Nat → List Literal → Conversion (List Value)
  | _, [] => return []
  | i, l :: ls => do
    let (decode, inner) ← .ofExcept (enter deeper place (.index i))
    let v ← decode inner element l
    return v :: (← decodeItems deeper place element (i + 1) ls)

/-- Decodes the items of a mapping one level further in. -/
def decodeEntries (deeper : Option Decoder) (place : Place) (value : HostType) :
    List (String × Literal) → Conversion (List (String × Value))
  | [] => return []
  | (key, l) :: es => do
    let (decode, inner) ← .ofExcept (enter deeper place (.key key))
    let v ← decode inner value l
    return (key, v) :: (← decodeEntries deeper place value es)

/-- The fault of an item that is not there. -/
def Place.nothing (p : Place) (t : HostType) : Fault := .undecodable p.path t.text "nothing"

/-- Decodes the declared fields of a record one level further in, into those already decoded. -/
def decodeFields (deeper : Option Decoder) (place : Place) (carried : List (String × Literal))
    (decoded : Entries Value) : List (String × HostType) → Conversion (Entries Value)
  | [] => return decoded
  | (name, t) :: fields => do
    let (decode, inner) ← .ofExcept (enter deeper place (.field name))
    match Entries.get? name carried with
    | none => throw (inner.nothing t)
    | some l =>
      let v ← decode inner t l
      decodeFields deeper place carried (Entries.insert name v decoded) fields

/-- Adds the fields that an open record does not declare; a closed one drops them. -/
def Schema.addUndeclared (s : Schema) (carried : List (String × Literal))
    (decoded : Entries Value) : Entries Value :=
  carried.foldl (fun es (name, l) ↦
    if s.isOpen && (s.get? name).isNone then Entries.insert name l.value es else es) decoded

/-- What belongs to the first member that is described as a tag says. -/
def memberDescribed {α : Type} (otherwise : Fault) (tag : Descriptor)
    (describe : HostType → Conversion Descriptor) : List (HostType × α) → Conversion α
  | [] => throw otherwise
  | (t, a) :: parts => do
    if (← describe t) = tag then return a
    memberDescribed otherwise tag describe parts

/-- What belongs to the members that a literal conforms to. -/
def membersFitting {α : Type} (l : Literal) (describe : HostType → Conversion Descriptor) :
    List (HostType × α) → Conversion (List α)
  | [] => return []
  | (t, a) :: parts => do
    let d ← describe t
    let rest ← membersFitting l describe parts
    return if l.conforms d then a :: rest else rest

namespace Registry

/-- Decodes a literal that may be none. -/
def decodeValued (decode : Literal → Conversion Value) (l : Literal) : Conversion Value :=
  if l.isNone then return .none else decode l

/-- Decodes a literal as a member of a tagged union. -/
def decodeMember (r : Registry) (levels : Nat) (place : Place) (t : HostType)
    (parts : List (HostType × (Literal → Conversion Value))) (l : Literal) : Conversion Value :=
  match l with
  | .union tag l => do
    let decode ← memberDescribed
      (.undecodable place.path t.text ("union member " ++ tag.text)) tag
      (r.describe levels place) parts
    decode l
  | l => do
    match ← membersFitting l (r.describe levels place) parts with
    | [decode] => decode l
    | _ => throw (place.undecodable t.text l)

/-- The name of a record that is decoded as a type. -/
def recordName (s : Schema) : HostType → String
  | .named name => name
  | _ => s.name

/-- Decodes a literal by a converter, given how it is decoded as the parts of the type. -/
def decodeBy (r : Registry) (worker : Option Delegate) (levels : Nat) (deeper : Option Decoder)
    (place : Place) (c : Converter) (t : HostType)
    (parts : List (HostType × (Literal → Conversion Value))) (l : Literal) : Conversion Value :=
  match c, t, parts with
  | .primitive kind, _, _ => match l with
    | .scalar s => match s.as? kind with
      | some s => return .scalar s
      | none => throw (place.undecodable kind.hostName l)
    | l => throw (place.undecodable kind.hostName l)
  | .reference name extent, _, _ => match l with
    | .blob b =>
      if b.type.extent = extent then return .blob b else throw (place.undecodable name l)
    | l => throw (place.undecodable name l)
  | .jsonLines, _, _ => suspend worker place fun _ ↦ JsonLines.decode place l
  | .plugin p, t, _ => do
    let number ← modifyGet fun s ↦ (s.foreigns, { s with foreigns := s.foreigns + 1 })
    (p.decode number place.path t l).finish worker place fun ask t ↦ ask.decode t l
  | .sequence, .list element, _ => match l with
    | .collection items => .list <$> decodeItems deeper place element 0 items
    | l => throw (place.undecodable t.text l)
  | .mapping, .dict value, _ => match l with
    | .mapping entries => .map <$> decodeEntries deeper place value entries
    | l => throw (place.undecodable t.text l)
  | .optional, .optional _, [(_, decode)] => decodeValued decode l
  | .union, .union members, parts =>
    match HostType.unionForm members, valued? parts with
    | .plain, some (_, decode) => decode l
    | .optional, some (_, decode) => decodeValued decode l
    | .tagged, _ => r.decodeMember levels place t parts l
    | _, _ => throw (unsupported t)
  | .record, t, _ => do
    let s ← .ofExcept (r.schemaOf t)
    match l with
    | .record carried =>
      let decoded ← decodeFields deeper place carried [] s.fields
      return .record (recordName s t) (s.addUndeclared carried decoded)
    | l => throw (place.undecodable s.name l)
  | _, t, _ => throw (unsupported t)

/-- Decodes a literal, given how it is decoded as the parts of its type. -/
def decodeStep (r : Registry) (worker : Option Delegate) (levels : Nat) (deeper : Option Decoder)
    (place : Place) (t : HostType) (parts : List (HostType × (Literal → Conversion Value)))
    (l : Literal) : Conversion Value := do
  r.decodeBy worker levels deeper place (← .ofExcept (r.resolve t)) t parts l

/-- Decodes a literal where so many levels are left, given how literals are decoded one level
further in. -/
def decodeWith (r : Registry) (worker : Option Delegate) (levels : Nat)
    (deeper : Option Decoder) : Decoder :=
  fun place ↦ HostType.fold (r.decodeStep worker levels deeper place)

/-- Decodes a literal where so many levels are left. -/
def decode (r : Registry) (worker : Option Delegate) : Nat → Decoder
  | 0 => r.decodeWith worker 0 none
  | levels + 1 => r.decodeWith worker (levels + 1) (some (r.decode worker levels))

end Registry

end Interchange
