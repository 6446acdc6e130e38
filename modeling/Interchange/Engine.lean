import Interchange.Conversion.Decode
import Interchange.Conversion.Encode
import Interchange.Conversion.Infer
import Interchange.Native
import Interchange.Settings
import Interchange.Worker

/-!
# Engines

The front door: conversions between values and literals by settings and a registry, and engines,
which keep a session for them.

An engine forgets the descriptors it remembers whenever its registry changes.
-/

namespace Interchange

/-- What conversions go by. -/
structure Setup where
  settings : Settings
  registry : Registry

namespace Setup

variable (u : Setup)

/-! ## Places -/

/-- How many steps further in a value may still nest. -/
def levels (place : Place) : Nat := u.settings.maxDepth - place.path.length

/-- The place that a path leads to, unless a step on the way is beyond the limit. -/
def reach (token : Option String) (path : Path) : Except Fault Place :=
  if path.length ≤ u.settings.maxDepth then .ok ⟨path, token⟩
  else .error (.nestingLimit (path.take (u.settings.maxDepth + 1)))

@[simp] theorem reach_root (token : Option String) : u.reach token .root = .ok ⟨.root, token⟩ := by
  simp [reach, Path.root]

/-! ## Parts of conversions -/

/-- The descriptor of a host type. -/
def describe (place : Place) (t : HostType) : Conversion Descriptor :=
  u.registry.describe (u.levels place) place t

/-- Whether a value fits a host type. -/
def check (place : Place) (t : HostType) (v : Value) : Except Fault Unit :=
  u.registry.check (u.levels place) place t v

/-- The host type that is guessed for a descriptor. -/
def infer (place : Place) (d : Descriptor) : Conversion HostType :=
  u.registry.infer (u.levels place) place d

/-- The host type that the converter of a host type guesses for a descriptor. -/
def inferAs (t : HostType) (d : Descriptor) : Conversion HostType := do
  let c ← .ofExcept (u.registry.resolve t)
  u.registry.inferAs (u.levels .root) c .root d

/-- A literal that has the shape it was encoded for, if that is to be verified. -/
def verified (place : Place) (d : Descriptor) (l : Literal) : Except Fault Literal :=
  if u.settings.verify && !l.conforms d then
    .error (.typeMismatch place.path d.text (l.shape ++ " literal"))
  else .ok l

/-- The literal of a value, on the worker if there is no delegate. -/
def toLiteralBy (worker : Option Delegate) (place : Place) (t : HostType) (v : Value) :
    Conversion Literal := do
  let d ← u.describe place t
  let l ← u.registry.encode worker (u.levels place) place t v d
  .ofExcept (u.verified place d l)

/-- The value of a literal, on the worker if there is no delegate. -/
def toValueBy (worker : Option Delegate) (place : Place) (t : HostType) (l : Literal) :
    Conversion Value :=
  u.registry.decode worker (u.levels place) place t l

/-- What the worker can ask for: whole conversions, which cannot suspend again. -/
def delegate : Delegate where
  encode := u.toLiteralBy none .root
  decode := u.toValueBy none .root

/-- Encodes a value as it is described, without verification. -/
def encode (place : Place) (t : HostType) (v : Value) (d : Descriptor) : Conversion Literal :=
  u.registry.encode (some u.delegate) (u.levels place) place t v d

/-! ## Conversions -/

/-- The literal of a value at a host type. -/
def toLiteral (place : Place) (t : HostType) (v : Value) : Conversion Literal :=
  u.toLiteralBy (some u.delegate) place t v

/-- The value of a literal at a host type. -/
def toValue (place : Place) (t : HostType) (l : Literal) : Conversion Value :=
  u.toValueBy (some u.delegate) place t l

/-- The place of a named input. -/
def namedPlace (name : String) : Except Fault Place := u.reach none [.field name]

/-- The descriptors of named inputs. -/
def describeNamed : List (String × HostType) → Conversion (Entries Descriptor)
  | [] => return []
  | (name, t) :: types => do
    let place ← .ofExcept (u.namedPlace name)
    let d ← u.describe place t
    return (name, d) :: (← describeNamed types)

/-- The literals of values under the names of their types. -/
def toLiteralsOf (values : Entries Value) :
    List (String × HostType) → Conversion (Entries Literal)
  | [] => return []
  | (name, t) :: types => do
    match Entries.get? name values with
    | none => throw (.missingField .root name)
    | some v =>
      let place ← .ofExcept (u.namedPlace name)
      let l ← u.toLiteral place t v
      return (name, l) :: (← toLiteralsOf values types)

/-- The literals of named values, which have to be just those that have a type. -/
def toLiterals (types : Entries HostType) (values : Entries Value) :
    Conversion (Entries Literal) :=
  match values.find? fun e ↦ (Entries.get? e.1 types).isNone with
  | some (extra, _) => throw (.unexpectedField .root extra)
  | none => u.toLiteralsOf values types

/-- The values of literals under the names of their types, each of which has to be there. -/
def toValues (literals : Entries Literal) :
    List (String × HostType) → Conversion (Entries Value)
  | [] => return []
  | (name, t) :: types => do
    let place ← .ofExcept (u.namedPlace name)
    match Entries.get? name literals with
    | none => throw (place.nothing t)
    | some l =>
      let v ← u.toValue place t l
      return (name, v) :: (← toValues literals types)

/-- The literal of an element of a native type. -/
def toLiteralNative (n : Native) (x : n.Carrier) : Conversion Literal :=
  u.toLiteral .root n.hostType (n.toValue x)

/-- The element of a native type that a literal stands for. -/
def toNative (n : Native) (l : Literal) : Conversion n.Carrier := do
  n.ofValue (← u.toValue .root n.hostType l)

end Setup

/-! ## Engines -/

/-- Conversions and what changes under them. -/
structure Engine where
  setup : Setup
  /-- What does suspended work. -/
  worker : Worker
  session : Session

/-- A request to an engine. -/
abbrev Request := Attempt Engine Fault

namespace Engine

/-- An engine that has done nothing. -/
def start (settings : Settings) (registry : Registry) (worker : Worker) (store : Storage.Store) :
    Engine :=
  ⟨⟨settings, registry⟩, worker, .start store⟩

/-- Converts in the engine's session. -/
def convert {α : Type} (conversion : Setup → Conversion α) : Request α := fun e ↦
  (Attempt.focus Engine.session (fun session e ↦ { e with session })
    (conversion e.setup)).run e

/-- Changes the registry, and forgets what was described by the one before. -/
def setRegistry (r : Registry) (e : Engine) : Engine :=
  { e with setup := { e.setup with registry := r }, session := e.session.forget }

@[simp] theorem registry_setRegistry (r : Registry) (e : Engine) :
    (e.setRegistry r).setup.registry = r := rfl

@[simp] theorem described?_setRegistry (r : Registry) (e : Engine) (t : HostType) :
    (e.setRegistry r).session.described? t = none := rfl

/-- Registers a converter under a key, and gives the one it replaces. -/
def register (k : Key) (c : Converter) : Request (Option Converter) := do
  let (previous, r) ← .ofExcept ((← get).setup.registry.register k c false)
  modify (·.setRegistry r)
  return previous

/-- Removes what is registered under a key, and gives it. -/
def unregister (k : Key) : Request (Option Converter) := do
  match ← .ofExcept ((← get).setup.registry.unregister k) with
  | (none, _) => return none
  | (some removed, r) =>
    modify (·.setRegistry r)
    return some removed

/-- Declares the direct parents of a type. -/
def declareParents (child : String) (parents : List String) : Request Unit :=
  modify fun e ↦ e.setRegistry (e.setup.registry.declareParents child parents)

/-- Declares a record type, and gives its host type. -/
def declareRecord (s : Schema) : Request HostType := do
  modify fun e ↦ e.setRegistry (e.setup.registry.declareRecord s)
  return .named s.name

end Engine

end Interchange
