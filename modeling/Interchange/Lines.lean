import Interchange.Storage.Store
import Interchange.Text.Blank

/-!
# Lines of a stored object

An open object read line by line.  A line ends before a line feed, or a carriage return and a line
feed, or with the object; nothing is a line after the last line feed.
-/

namespace Interchange

open Storage (Store)

/-- An open object, with bytes that were taken from it and not read yet. -/
structure LineReader where
  source : Store.Source
  buffer : List UInt8

namespace LineReader

def lineFeed : UInt8 := 10

def carriageReturn : UInt8 := 13

/-- A line that a line feed ended, without the carriage return before it. -/
def chomp (line : List UInt8) : List UInt8 :=
  if line.getLast? = some carriageReturn then line.dropLast else line

/-- The bytes of the next line, without those that end it, if there is one; at most so many chunks
are taken for it. -/
def lineBytes? (s : Store) :
    Nat → LineReader → Except Storage.Fault (Option (List UInt8) × LineReader)
  | 0, r => .ok (none, r)
  | fuel + 1, r =>
    match r.buffer.dropWhile (· ≠ lineFeed) with
    | _ :: rest =>
      .ok (some (chomp (r.buffer.takeWhile (· ≠ lineFeed))), { r with buffer := rest })
    | [] => do
      let (next, source) ← s.fetch r.source
      if next = [] then
        return (if r.buffer = [] then none else some r.buffer, ⟨source, []⟩)
      else lineBytes? s fuel ⟨source, r.buffer ++ next⟩

/-- The next line that is not blank, if there is one; at most so many lines are passed over. -/
def next? (s : Store) : Nat → LineReader → Except Storage.Fault (Option (List Char) × LineReader)
  | 0, r => .ok (none, r)
  | fuel + 1, r => do
    let size := (← s.readAll r.source).length
    match ← lineBytes? s (size + 2) r with
    | (none, r) => return (none, r)
    | (some bytes, r) =>
      let text ← (Text.read bytes).mapError fun b ↦ .io b.message
      if Text.allBlank text.toList then next? s fuel r else return (some text.toList, r)

/-- The number of bytes that are left. -/
def size (s : Store) (r : LineReader) : Except Storage.Fault Nat := do
  return r.buffer.length + (← s.readAll r.source).length

/-- The next line that is not blank, if there is one. -/
def nextLine? (s : Store) (r : LineReader) :
    Except Storage.Fault (Option (List Char) × LineReader) := do
  next? s ((← r.size s) + 1) r

end LineReader

end Interchange
