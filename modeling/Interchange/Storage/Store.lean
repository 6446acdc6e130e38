import Interchange.Attempt
import Interchange.Entries
import Interchange.Storage.Fault
import Interchange.Storage.Tree

/-!
# Stores

Objects by their URIs, kept in memory or as files under a root directory.

In memory an object is published whole: what is written goes to a draft, and the object under the
URI changes when the draft is published.  A file is made when it is opened for writing and grows
with what is written.

A file's URI has to lead under the root, by whole components and without steps to a parent.
-/

namespace Interchange.Storage

/-- Where objects are kept. -/
inductive Medium where
  | memory (objects : List (String × List UInt8))
  | files (root : Location) (tree : Tree)

/-- Objects by their URIs. -/
structure Store where
  medium : Medium
  /-- Where new URIs lead. -/
  area : String

/-- An object that is being written. -/
structure Draft where
  uri : String
  /-- The place of the file, if it is one. -/
  place : Option (List FileName)
  written : List UInt8

namespace Store

def inMemory (area : String) : Store := ⟨.memory [], area⟩

/-- Files under a root directory, which is there and empty. -/
def inFiles (root : Location) (area : String) : Store := ⟨.files root (.rooted root), area⟩

/-! ## URIs -/

def memoryScheme : List Char := ['m', 'e', 'm', 'o', 'r', 'y', ':', '/', '/']

def fileScheme : List Char := ['f', 'i', 'l', 'e', ':', '/', '/']

/-- The URI of a new object, given the part that tells it from others. -/
def newUri (s : Store) (segment hint : String) : String :=
  match s.medium with
  | .memory _ => String.ofList memoryScheme ++ s.area ++ "/" ++ segment ++ "/" ++ hint
  | .files root _ =>
    String.ofList <| fileScheme ++
      Location.join (Location.join (Location.join root s.area.toList) segment.toList) hint.toList

/-- The rest of a text after its start. -/
def after? (start cs : List Char) : Option (List Char) :=
  if start.isPrefixOf cs then some (cs.drop start.length) else none

/-- The location of a URI, if it leads under the root. -/
def locate (root : Location) (uri : String) : Except Fault Location :=
  match after? fileScheme uri.toList with
  | none => .error (.invalidUri uri)
  | some l =>
    if Component.parent ∈ Location.components l ∨ ¬ root.components <+: Location.components l then
      .error (.invalidUri uri)
    else .ok l

/-- Whether the URI is one of objects in memory. -/
def checkMemory (uri : String) : Except Fault Unit :=
  if memoryScheme.isPrefixOf uri.toList then .ok () else .error (.invalidUri uri)

/-! ## Writing -/

/-- Puts an object into memory. -/
def put (s : Store) (uri : String) (bytes : List UInt8) : Store :=
  match s.medium with
  | .memory objects => { s with medium := .memory (Entries.insert uri bytes objects) }
  | .files _ _ => s

/-- Starts to write an object. -/
def openForWrite (uri : String) : Attempt Store Fault Draft := fun s ↦
  match s.medium with
  | .memory _ => ((checkMemory uri).map fun _ ↦ ⟨uri, none, []⟩, s)
  | .files root tree => match locate root uri with
    | .error e => (.error e, s)
    | .ok l => match tree.create l with
      | (.error e, tree) => (.error (.io e.message), { s with medium := .files root tree })
      | (.ok place, tree) => (.ok ⟨uri, some place, []⟩, { s with medium := .files root tree })

/-- Writes to a draft.  A file has the bytes at once. -/
def write (s : Store) (d : Draft) (bytes : List UInt8) : Store × Draft :=
  let d := { d with written := d.written ++ bytes }
  match s.medium, d.place with
  | .files root tree, some place =>
    ({ s with medium := .files root (tree.put place (.file d.written)) }, d)
  | _, _ => (s, d)

/-- Publishes a draft.  An object in memory has the bytes from now on. -/
def publish (s : Store) (d : Draft) : Store := s.put d.uri d.written

/-! ## Reading -/

/-- What is read from: bytes as they were when it was opened, or a file as it is. -/
inductive Source where
  | bytes (rest : List UInt8)
  | file (place : List FileName) (offset : Nat)

/-- Starts to read an object. -/
def openForRead (s : Store) (uri : String) : Except Fault Source :=
  match s.medium with
  | .memory objects => do
    checkMemory uri
    match Entries.get? uri objects with
    | none => .error (.notFound uri)
    | some bytes => .ok (.bytes bytes)
  | .files root tree => do
    let l ← locate root uri
    match tree.find l with
    | .error .noEntry => .error (.notFound uri)
    | .error e => .error (.io e.message)
    | .ok (place, _) => .ok (.file place 0)

/-- The most bytes that are taken from a file at once. -/
def chunk : Nat := 8192

/-- The next bytes of an open object; none are left when none come. -/
def fetch (s : Store) : Source → Except Fault (List UInt8 × Source)
  | .bytes rest => .ok (rest, .bytes [])
  | .file place offset => match s.medium with
    | .memory _ => .ok ([], .file place offset)
    | .files _ tree => match tree.node? place with
      | some (.file bytes) =>
        let next := (bytes.drop offset).take chunk
        .ok (next, .file place (offset + next.length))
      | _ => .error (.io Refusal.isDirectory.message)

/-- All bytes that are left of an open object. -/
def readAll (s : Store) : Source → Except Fault (List UInt8)
  | .bytes rest => .ok rest
  | .file place offset => match s.medium with
    | .memory _ => .ok []
    | .files _ tree => match tree.node? place with
      | some (.file bytes) => .ok (bytes.drop offset)
      | _ => .error (.io Refusal.isDirectory.message)

/-- The bytes of an object. -/
def read (s : Store) (uri : String) : Except Fault (List UInt8) := do
  s.readAll (← s.openForRead uri)

/-- Whether something is stored under a URI. -/
def exists? (s : Store) (uri : String) : Except Fault Bool :=
  match s.medium with
  | .memory objects => do
    checkMemory uri
    return (Entries.get? uri objects).isSome
  | .files root tree => do
    let l ← locate root uri
    match tree.find l with
    | .error .noEntry => .ok false
    | .error e => .error (.io e.message)
    | .ok _ => .ok true

/-- The object in memory under a URI, whatever its scheme. -/
def get? (s : Store) (uri : String) : Option (List UInt8) :=
  match s.medium with
  | .memory objects => Entries.get? uri objects
  | .files _ _ => none

/-- The number of objects in memory. -/
def size (s : Store) : Nat :=
  match s.medium with
  | .memory objects => objects.length
  | .files _ _ => 0

/-- An object put into memory is the one found. -/
theorem get?_put_inMemory (objects : List (String × List UInt8)) (area uri : String)
    (bytes : List UInt8) :
    ((Store.mk (.memory objects) area).put uri bytes).get? uri = some bytes := by
  simp [get?, put, Entries.get?_insert_self]

end Store

end Interchange.Storage
