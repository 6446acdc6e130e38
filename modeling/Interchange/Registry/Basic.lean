import Interchange.Converter

/-!
# The registry

The tables that conversions look up: which converter is registered for which key, which host types
claim which formats of stored payloads, the declared parents of types, and the declared records.

A key holds one converter; a later one replaces it, unless the earlier is there to stay.  What is
registered under a type's name claims its formats for that name, and gives up what the name claimed
before.
-/

namespace Interchange

/-- What is registered for a key. -/
structure Registration where
  converter : Converter
  isDefault : Bool

/-- A host type's claim to a type of stored payloads. -/
structure Claim where
  format : BlobType
  host : String
  converter : Converter

/-- The tables that conversions look up. -/
structure Registry where
  exact : String → Option Registration
  origins : Origin → Option Registration
  wildcard : Option Registration
  /-- The types with declared parents, each once. -/
  parents : List (String × List String)
  /-- The declared records, the latest first, each name once. -/
  records : List Schema
  /-- The claims in the order in which they were made. -/
  claims : List Claim
  conflicts : List Conflict

namespace Registry

def empty : Registry := ⟨fun _ ↦ none, fun _ ↦ none, none, [], [], [], []⟩

/-! ## Registrations -/

/-- What is registered for a key. -/
def get? (r : Registry) : Key → Option Registration
  | .exact name => r.exact name
  | .origin o => r.origins o
  | .wildcard => r.wildcard

@[simp] theorem get?_empty (k : Key) : empty.get? k = none := by cases k <;> rfl

/-- Puts something or nothing under a key. -/
def put (r : Registry) (k : Key) (entry : Option Registration) : Registry :=
  match k with
  | .exact name => { r with exact := fun n ↦ if n = name then entry else r.exact n }
  | .origin origin => { r with origins := fun o ↦ if o = origin then entry else r.origins o }
  | .wildcard => { r with wildcard := entry }

@[simp] theorem get?_put_self (r : Registry) (k : Key) (entry : Option Registration) :
    (r.put k entry).get? k = entry := by cases k <;> simp [get?, put]

/-- Other keys keep what they have. -/
theorem get?_put_of_ne (r : Registry) {k l : Key} (h : l ≠ k) (entry : Option Registration) :
    (r.put k entry).get? l = r.get? l := by
  cases k <;> cases l <;> simp_all [get?, put]

/-- What converters can read of it. -/
def directory (r : Registry) : Directory where
  registered k := (r.get? k).map (·.converter.name)
  parents := r.parents
  records := r.records
  conflicts := r.conflicts

/-- Whether the key is free or may be taken. -/
def isFree (r : Registry) (k : Key) : Bool :=
  match r.get? k with
  | none => true
  | some entry => entry.converter.isOverridable

/-! ## Claims -/

/-- Gives up the claims of a host type. -/
def dropClaims (r : Registry) (host : String) : Registry :=
  { r with claims := r.claims.filter (·.host ≠ host) }

/-- The latest claim to a type of stored payloads. -/
def claimOf? (r : Registry) (format : BlobType) : Option Claim :=
  r.claims.reverse.find? (·.format = format)

/-- Claims a type of stored payloads.  An earlier claim stays, but the later one counts. -/
def addClaim (host : String) (c : Converter) (r : Registry) (format : BlobType) : Registry :=
  let conflict := match r.claimOf? format with
    | none => []
    | some claim => [⟨format, claim.host, host⟩]
  { r with claims := r.claims ++ [⟨format, host, c⟩], conflicts := r.conflicts ++ conflict }

/-- Makes the claims of a converter for a host type, instead of those it had. -/
def claimFormats (r : Registry) (host : String) (c : Converter) : Registry :=
  c.formats.foldl (addClaim host c) (r.dropClaims host)

/-! ## Changes -/

/-- Registers a converter under a key, and names the one it replaces. -/
def register (r : Registry) (k : Key) (c : Converter) (isDefault : Bool) :
    Except Fault (Option Converter × Registry) :=
  if r.isFree k then
    let r' := r.put k (some ⟨c, isDefault⟩)
    let r' := match k with
      | .exact host => r'.claimFormats host c
      | _ => r'
    .ok ((r.get? k).map (·.converter), r')
  else .error (.protectedKey k.text)

/-- Removes what is registered under a key, and its claims. -/
def unregister (r : Registry) (k : Key) : Except Fault (Option Converter × Registry) :=
  match r.get? k with
  | none => .ok (none, r)
  | some entry =>
    if entry.converter.isOverridable then
      let r' := r.put k none
      let r' := match k with
        | .exact host => r'.dropClaims host
        | _ => r'
      .ok (some entry.converter, r')
    else .error (.protectedKey k.text)

/-- Declares the direct parents of a type, instead of those it had. -/
def declareParents (r : Registry) (child : String) (parents : List String) : Registry :=
  { r with parents := (child, parents) :: r.parents.filter (·.1 ≠ child) }

/-- Declares a record type, instead of one with its name. -/
def declareRecord (r : Registry) (s : Schema) : Registry :=
  { r with records := s :: r.records.filter (·.name ≠ s.name) }

/-! ## The built-in converters -/

/-- Every built-in converter, in the order in which they are registered: plain data and references,
which stay, and the generic shapes. -/
def builtins : List Converter :=
  Kind.all.map .primitive ++ [.reference "file" .single, .reference "directory" .multipart,
    .sequence, .mapping, .optional, .union, .record]

/-- Registers a converter under its own key, if it is free. -/
def install (r : Registry) (c : Converter) : Registry :=
  match r.register c.key c true with
  | .ok (_, r') => r'
  | .error _ => r

/-- The registry of the built-in converters. -/
def defaults : Registry := builtins.foldl install empty

end Registry

end Interchange
