import Interchange.Attempt
import Interchange.Number.Binary64
import Interchange.Text.Utf8
import Interchange.Tlv.Tag

/-!
# Writing items

A writer is a stack of open containers over the root.  Each holds the bytes of the items already
closed in it; closing a container puts its tag, the length of its body and the body into the
container around it.  So lengths are known when they are written, and what is written so far never
has to be changed.

A map takes variants only, a variant takes one item, and a refused item fails.
-/

namespace Interchange.Tlv

/-- An open container, or the root. -/
structure Frame where
  scope : Scope
  /-- The number of items closed in it. -/
  count : Nat
  body : Array UInt8
deriving DecidableEq, Repr

namespace Frame

/-- A container just opened. -/
def opened (scope : Scope) : Frame := ⟨scope, 0, #[]⟩

/-- Whether an item with this tag may go in, and why not. -/
def admits (f : Frame) (tag : Tag) : Except Fault Unit :=
  match f.scope with
  | .root | .list => .ok ()
  | .map => if tag = .variant then .ok () else .error .invalidMapEntry
  | .variant => if 1 ≤ f.count then .error .tooManyItems else .ok ()

/-- Puts bytes in that are no item of their own. -/
def append (f : Frame) (bytes : List UInt8) : Frame := { f with body := f.body ++ bytes }

/-- Puts the bytes of an item in. -/
def push (f : Frame) (bytes : List UInt8) : Frame :=
  { f with count := f.count + 1, body := f.body ++ bytes }

@[simp] theorem scope_push (f : Frame) (bytes : List UInt8) : (f.push bytes).scope = f.scope := rfl

@[simp] theorem count_push (f : Frame) (bytes : List UInt8) :
    (f.push bytes).count = f.count + 1 := rfl

@[simp] theorem toList_body_push (f : Frame) (bytes : List UInt8) :
    (f.push bytes).body.toList = f.body.toList ++ bytes := by simp [push]

end Frame

/-- The innermost open container, and those around it; the last one is the root. -/
structure Writer where
  top : Frame
  below : List Frame
deriving DecidableEq, Repr

namespace Writer

/-- Nothing is written and nothing is open. -/
def empty : Writer := ⟨.opened .root, []⟩

/-- A step of writing. -/
abbrev Step := Attempt Writer Fault

/-- Lengths below this fit four bytes. -/
def lengthLimit : Nat := UInt32.size

/-- The bytes of an item with a length. -/
def sized (tag : Tag) (body : List UInt8) : List UInt8 :=
  tag.byte :: littleEndian 4 body.length ++ body

/-- Writes an item whole. -/
def put (tag : Tag) (payload : List UInt8) : Step Unit := do
  let w ← get
  .ofExcept (w.top.admits tag)
  set { w with top := w.top.push (tag.byte :: payload) }

/-- Writes an item with a length whole. -/
def putSized (tag : Tag) (body : List UInt8) : Step Unit := do
  if lengthLimit ≤ body.length then throw (.tooLarge body.length)
  let w ← get
  .ofExcept (w.top.admits tag)
  set { w with top := w.top.push (sized tag body) }

def bool (v : Bool) : Step Unit := put (if v then .true else .false) []

def u32 (v : UInt32) : Step Unit := put .u32 (littleEndian 4 v.toNat)

def s64 (v : Int64) : Step Unit := put .s64 (littleEndian 8 v.toUInt64.toNat)

def f64 (v : Binary64) : Step Unit := put .f64 (littleEndian 8 v.bits.toNat)

def unit : Step Unit := put .unit []

def str (v : String) : Step Unit := putSized .string (Text.bytes v)

def bytes (v : List UInt8) : Step Unit := putSized .bytes v

/-- Opens a container. -/
def openScope (tag : Tag) (scope : Scope) : Step Unit := do
  let w ← get
  .ofExcept (w.top.admits tag)
  set ({ top := .opened scope, below := w.top :: w.below } : Writer)

/-- Closes the innermost container, which has to be of this kind.  A body that is too long is left
in the container around it, as no item and under a length of zero. -/
def closeScope (tag : Tag) (scope : Scope) : Step Unit := do
  let w ← get
  match w.below with
  | [] => throw .scopeUnderflow
  | outer :: below =>
    if w.top.scope ≠ scope then throw (.scopeMismatch scope w.top.scope)
    if scope = .variant ∧ w.top.count = 0 then throw .emptyVariant
    let body := w.top.body.toList
    if lengthLimit ≤ body.length then
      set ({ top := outer.append (tag.byte :: littleEndian 4 0 ++ body), below } : Writer)
      throw (.tooLarge body.length)
    set ({ top := outer.push (sized tag body), below } : Writer)

def listBegin : Step Unit := openScope .list .list

def listEnd : Step Unit := closeScope .list .list

def mapBegin : Step Unit := openScope .map .map

def mapEnd : Step Unit := closeScope .map .map

/-- Opens a variant.  The name goes in first and does not count as its item. -/
def variantBegin (name : String) : Step Unit := do
  openScope .variant .variant
  str name
  modify fun w ↦ { w with top := { w.top with count := 0 } }

def variantEnd : Step Unit := closeScope .variant .variant

/-- A list around what is written inside. -/
def list (inside : Step Unit) : Step Unit := do listBegin; inside; listEnd

/-- A map around what is written inside. -/
def map (inside : Step Unit) : Step Unit := do mapBegin; inside; mapEnd

/-- A variant around what is written inside. -/
def variant (name : String) (inside : Step Unit) : Step Unit := do
  variantBegin name; inside; variantEnd

/-- All bytes, once every container is closed. -/
def finish (w : Writer) : Except Fault (List UInt8) :=
  if w.below = [] then .ok w.top.body.toList else .error .scopeStillOpen

@[simp] theorem finish_empty : empty.finish = .ok [] := rfl

/-- The bytes of a step that starts with nothing. -/
def bytesOf (step : Step Unit) : Except Fault (List UInt8) :=
  match step.run empty with
  | (.ok _, w) => w.finish
  | (.error e, _) => .error e

end Writer

end Interchange.Tlv
