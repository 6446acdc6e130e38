import Interchange.Attempt
import Interchange.Number.Binary64
import Interchange.Text.Utf8
import Interchange.Tlv.Tag

/-!
# Reading items

A reader holds the bytes that are not read yet.  A read that fails has consumed what it looked at
before the failure: a tag that was the right one, and a length.  A container is read by taking its
body whole; its items are then read from the body alone.
-/

namespace Interchange.Tlv

/-- Reads from the bytes that remain. -/
abbrev Reader := Attempt (List UInt8) Fault

namespace Reader

variable {α β : Type}

/-- The tag of the next item. -/
def peek : Reader Tag := do
  match ← get with
  | [] => throw .unexpectedEnd
  | b :: _ => match Tag.ofByte? b with
    | none => throw (.invalidTag b)
    | some tag => return tag

/-- So many bytes. -/
def take (n : Nat) : Reader (List UInt8) := do
  let bs ← get
  if bs.length < n then throw .unexpectedEnd
  set (bs.drop n)
  return bs.take n

/-- Passes over a tag, which has to be this one. -/
def expect (tag : Tag) : Reader Unit := do
  let found ← peek
  if found ≠ tag then throw (.invalidTag found.byte)
  modify List.tail

/-- A number of so many bytes. -/
def number (width : Nat) : Reader Nat := ofLittleEndian <$> take width

/-- A length, and so many bytes. -/
def body : Reader (List UInt8) := do take (← number 4)

/-- Passes over an item and all that it holds. -/
def skip : Reader Unit := do
  let tag ← peek
  modify List.tail
  match tag with
  | .true | .false | .unit => return
  | .u32 => discard (take 4)
  | .s64 | .f64 => discard (take 8)
  | .string | .bytes | .list | .map | .variant => discard body

def bool : Reader Bool := do
  match ← peek with
  | .true => modify List.tail; return true
  | .false => modify List.tail; return false
  | tag => throw (.invalidTag tag.byte)

def u32 : Reader UInt32 := do
  expect .u32
  return .ofNat (← number 4)

def s64 : Reader Int64 := do
  expect .s64
  return (UInt64.ofNat (← number 8)).toInt64

def f64 : Reader Binary64 := do
  expect .f64
  return ⟨.ofNat (← number 8)⟩

def unit : Reader Unit := expect .unit

def str : Reader String := do
  expect .string
  match Text.ofBytes? (← body) with
  | none => throw .invalidUtf8
  | some s => return s

def bytes : Reader (List UInt8) := do
  expect .bytes
  body

/-- The body of a list. -/
def list : Reader (List UInt8) := do
  expect .list
  body

/-- The body of a map. -/
def map : Reader (List UInt8) := do
  expect .map
  body

/-- The name of a variant, and the bytes of its item. -/
def variant : Reader (String × List UInt8) := do
  expect .variant
  let (name, rest) := str.run (← body)
  return (← .ofExcept name, rest)

/-! ## Items of a body -/

/-- Off a list's body: the bytes of the first item, or nothing at its end. -/
def nextItem : Reader (Option (List UInt8)) := do
  let bs ← get
  if bs = [] then return none
  match skip.run bs with
  | (.error e, _) => throw e
  | (.ok _, rest) =>
    set rest
    return some (bs.take (bs.length - rest.length))

/-- Off a map's body: the name and the bytes of the first entry's item, or nothing at its end. -/
def nextEntry : Reader (Option (String × List UInt8)) := do
  if (← get) = [] then return none
  let tag ← peek
  if tag ≠ .variant then throw (.invalidTag tag.byte)
  some <$> variant

/-- Goes through a body of at most so many items. -/
def foldBody (next : Reader (Option α)) (step : β → α → Except Fault β) :
    Nat → β → List UInt8 → Except Fault β
  | 0, b, _ => .ok b
  | fuel + 1, b, bs => match next.run bs with
    | (.error e, _) => .error e
    | (.ok none, _) => .ok b
    | (.ok (some a), rest) => do foldBody next step fuel (← step b a) rest

/-- Goes through the items of a list's body.  Every item takes a byte at least. -/
def foldItems (step : β → List UInt8 → Except Fault β) (b : β) (bs : List UInt8) :
    Except Fault β :=
  foldBody nextItem step bs.length b bs

/-- Goes through the entries of a map's body.  Every entry takes a byte at least. -/
def foldEntries (step : β → String → List UInt8 → Except Fault β) (b : β) (bs : List UInt8) :
    Except Fault β :=
  foldBody nextEntry (fun b (name, item) ↦ step b name item) bs.length b bs

/-- What a reader of one item makes of bytes that hold nothing else. -/
def whole (reader : Reader α) (bs : List UInt8) : Except Fault α :=
  match reader.run bs with
  | (.error e, _) => .error e
  | (.ok a, []) => .ok a
  | (.ok _, b :: _) => .error (.invalidTag b)

end Reader

end Interchange.Tlv
