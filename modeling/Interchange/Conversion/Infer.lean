import Interchange.Conversion.Describe

/-!
# Guessing host types

A host type that is described by a given descriptor, by the converter that the registry picks for
it.  Of records, the one declared last that is described so is the guess, and if none is, a closed
record of the guesses for the fields.
-/

namespace Interchange

/-- Guesses the host type of a descriptor at a place. -/
abbrev Guesser := Place → Descriptor → Conversion HostType

/-- The fault of a descriptor that a converter does not take. -/
def Descriptor.unsupported (d : Descriptor) : Fault := .unsupportedType d.text

/-- Guesses all the parts of a descriptor. -/
def guessAll : List (Descriptor × Conversion HostType) → Conversion (List HostType)
  | [] => return []
  | (_, guess) :: parts => do
    let t ← guess
    return t :: (← guessAll parts)

namespace Registry

/-- The first of some records that is described by a descriptor, if any.  Records that cannot be
described are passed over. -/
def recordDescribed? (describe : HostType → Conversion Descriptor) (d : Descriptor) :
    List Schema → Conversion (Option HostType)
  | [] => return none
  | s :: rest => do
    let isDescribed ← tryCatch ((decide <| · = d) <$> describe (.named s.name)) fun _ ↦ pure false
    if isDescribed then return some (.named s.name)
    recordDescribed? describe d rest

/-- Guesses a host type by a converter, given the guesses for the parts of the descriptor. -/
def inferBy (r : Registry) (levels : Nat) (place : Place) (c : Converter) (d : Descriptor)
    (parts : List (Descriptor × Conversion HostType)) : Conversion HostType :=
  match c, d, parts with
  | .primitive kind, d, _ =>
    if d = .primitive kind then return .ofKind kind else throw d.unsupported
  | .reference name extent, d, _ => match d with
    | .blob type => if type.extent = extent then return .named name else throw d.unsupported
    | d => throw d.unsupported
  | .jsonLines, d, _ =>
    if d = .blob JsonLines.blobType then return .named JsonLines.typeName
    else throw d.unsupported
  | .plugin p, d, _ => .ofExcept (p.infer d)
  | .sequence, .collection _, [(_, element)] => .list <$> element
  | .mapping, .mapping _, [(_, value)] => .dict <$> value
  | .optional, d, parts => match d.optionalInner?.bind (parts.lookup ·) with
    | some inner => .optional <$> inner
    | none => throw d.unsupported
  | .union, .union members tagField, parts =>
    match (Descriptor.union members tagField).optionalInner?.bind (parts.lookup ·) with
    | some inner => .optional <$> inner
    | none => .union <$> guessAll parts
  | .record, .record fields, parts => do
    match ← recordDescribed? (r.describe levels place) d r.records with
    | some t => return t
    | none =>
      let types ← guessAll parts
      return .record Schema.anonymousName ((fields.map (·.1)).zip types) false
  | _, d, _ => throw d.unsupported

/-- Guesses a host type, given the guesses for the parts of the descriptor. -/
def inferStep (r : Registry) (levels : Nat) (place : Place) (d : Descriptor)
    (parts : List (Descriptor × Conversion HostType)) : Conversion HostType := do
  r.inferBy levels place (← .ofExcept (r.guesser d)) d parts

/-- Guesses a host type where so many levels are left. -/
def infer (r : Registry) (levels : Nat) : Guesser :=
  fun place ↦ Descriptor.fold (r.inferStep levels place)

/-- Guesses a host type by a given converter, and the host types of the parts as usual. -/
def inferAs (r : Registry) (levels : Nat) (c : Converter) (place : Place) (d : Descriptor) :
    Conversion HostType :=
  r.inferBy levels place c d (d.parts.map fun part ↦ (part, r.infer levels place part))

end Registry

end Interchange
