import Interchange.Conversion.Worker

/-!
# Streams of JSON lines

A stream, or a list, is stored as one object with a JSON document on each line, and read back as a
stream that reads one line for each item it is asked for.

An object is written only if there is an item and the first one is a document.  Items are pulled
from a stream in chunks, so a stream that fails ends the work before the items of that chunk are
written.
-/

namespace Interchange.JsonLines

/-- The last part of the URIs of stored streams. -/
def hint : String := "data.jsonl"

/-- How many items are pulled from a stream at once. -/
def chunk : Nat := 64

/-- The line of an item. -/
def line (path : Path) (position : Nat) (v : Value) : Except Fault (List UInt8) := do
  let j ← v.toJson (path.child (.index position))
  return Text.bytes (String.ofList (j.text ++ ['\n']))

/-- Writes to a draft. -/
def writeBytes (d : Storage.Draft) (bytes : List UInt8) : Conversion Storage.Draft := do
  let s ← get
  let (store, d) := s.store.write d bytes
  set { s with store }
  return d

/-- Writes the lines of items, from a position on. -/
def writeItems (path : Path) (d : Storage.Draft) : Nat → List Value → Conversion Storage.Draft
  | _, [] => return d
  | position, v :: vs => do
    let d ← writeBytes d (← .ofExcept (line path position v))
    writeItems path d (position + 1) vs

/-- Writes the lines of all further chunks, of which there are at most so many. -/
def writeChunks (path : Path) (next : Conversion (List Value)) :
    Nat → Storage.Draft → Nat → Conversion Storage.Draft
  | 0, d, _ => return d
  | fuel + 1, d, position => do
    match ← next with
    | [] => return d
    | items =>
      let d ← writeItems path d position items
      writeChunks path next fuel d (position + items.length)

/-- Stores items, the first chunk of them and what comes with further chunks, of which there are at
most so many. -/
def store (path : Path) (next : Conversion (List Value)) (fuel : Nat) :
    List Value → Conversion Literal
  | [] => throw (.emptyStream path)
  | v :: vs => do
    let first ← .ofExcept (line path 0 v)
    let uri ← Session.newUri hint
    let d ← Session.onStore (Storage.Store.openForWrite uri)
    let d ← writeBytes d first
    let d ← writeItems path d 1 vs
    let d ← writeChunks path next fuel d (vs.length + 1)
    modify fun s ↦ { s with store := s.store.publish d }
    return .blob ⟨uri, blobType⟩

/-- Encodes a list or a stream. -/
def encode (place : Place) (v : Value) : Conversion Literal :=
  match v with
  | .list items => store place.path (pure []) 0 items
  | .stream id => do
    let fuel := (← get).remaining id
    let next := Session.pullUpTo false id chunk
    store place.path next fuel (← next)
  | v => throw (place.mismatch typeName v)

/-- Decodes a reference to a stored stream. -/
def decode (place : Place) (l : Literal) : Conversion Value :=
  match l with
  | .blob ⟨uri, ⟨_, .single⟩⟩ => do
    let source ← Session.lookStore (·.openForRead uri)
    modifyGet (·.addStream (.lines ⟨source, []⟩ place 0))
  | l => throw (place.undecodable typeName l)

end Interchange.JsonLines
