import Interchange.Attempt
import Interchange.Fault
import Interchange.Json.Value
import Interchange.Lines
import Interchange.Literal

/-!
# Sessions

What changes while an engine converts: the descriptors it remembers, the streams and what is left in
them, the stored objects, and the marks by which work is cancelled.

A stream gives its items once.  A source that fails ends with its failure.
-/

namespace Interchange

/-- Where a conversion stands: the path to the value, and the mark that cancels its work. -/
structure Place where
  path : Path
  token : Option String
deriving DecidableEq, Repr

namespace Place

/-- The outermost value, under no mark. -/
def root : Place := ⟨.root, none⟩

/-- One step further. -/
def child (p : Place) (s : Segment) : Place := { p with path := p.path.child s }

@[simp] theorem path_child (p : Place) (s : Segment) : (p.child s).path = p.path.child s := rfl

/-- The fault of a value that does not have the shape of its type. -/
def mismatch (p : Place) (expected : String) (v : Value) : Fault :=
  .typeMismatch p.path expected v.describe

/-- The fault of a literal that does not have the shape of its type. -/
def undecodable (p : Place) (expected : String) (l : Literal) : Fault :=
  .undecodable p.path expected l.shape

end Place

/-- What gives the items of a stream. -/
inductive Source where
  /-- Items that are there, or fail. -/
  | items (rest : List (Except Fault Value))
  /-- Documents on the lines of a stored object, each read when it is asked for.  They stand at
  positions after a place; so many were read. -/
  | lines (reader : LineReader) (place : Place) (read : Nat)
  /-- Nothing more. -/
  | over

/-- A mark by which work can be cancelled. -/
inductive Mark where
  | cancelled
  /-- It will be set while something waits for it. -/
  | pending
deriving DecidableEq, Repr

/-- What changes while an engine converts. -/
structure Session where
  /-- The descriptors of host types that are remembered. -/
  described : List (HostType × Descriptor)
  /-- The sources of streams, by the streams' numbers. -/
  streams : List Source
  /-- The number of the next foreign value. -/
  foreigns : Nat
  store : Storage.Store
  /-- How many URIs were made. -/
  minted : Nat
  marks : List (String × Mark)

/-- A step of a conversion. -/
abbrev Conversion := Attempt Session Fault

namespace Session

/-- A session in which nothing has happened. -/
def start (store : Storage.Store) : Session := ⟨[], [], 0, store, 0, []⟩

/-! ## Descriptors -/

/-- The descriptor of a host type that is remembered. -/
def described? (s : Session) (t : HostType) : Option Descriptor := s.described.lookup t

def remember (s : Session) (t : HostType) (d : Descriptor) : Session :=
  { s with described := (t, d) :: s.described }

@[simp] theorem described?_remember_self (s : Session) (t : HostType) (d : Descriptor) :
    (s.remember t d).described? t = some d := by simp [described?, remember]

/-- Forgets all descriptors. -/
def forget (s : Session) : Session := { s with described := [] }

@[simp] theorem described?_forget (s : Session) (t : HostType) : s.forget.described? t = none := rfl

/-! ## Objects -/

/-- A new stream. -/
def addStream (s : Session) (source : Source) : Value × Session :=
  (.stream s.streams.length, { s with streams := s.streams ++ [source] })

/-- A new foreign value. -/
def addForeign (s : Session) (key : String) (payload : Binary64) : Value × Session :=
  (.foreign key payload s.foreigns, { s with foreigns := s.foreigns + 1 })

/-- What is left in a stream. -/
def source (s : Session) (id : Nat) : Source := s.streams[id]?.getD .over

def setSource (s : Session) (id : Nat) (source : Source) : Session :=
  { s with streams := s.streams.set id source }

/-! ## Marks -/

def mark? (s : Session) (token : Option String) : Option Mark := do s.marks.lookup (← token)

/-- Sets a mark, now or while something waits for it. -/
def setMark (s : Session) (token : String) (m : Mark) : Session :=
  if s.mark? (some token) = some .cancelled then s else { s with marks := (token, m) :: s.marks }

/-- Whether work under a mark is cancelled before it starts. -/
def isCancelled (s : Session) (token : Option String) : Bool := s.mark? token = some .cancelled

/-! ## URIs -/

/-- The number of a new object, as text of fixed width. -/
def segment (n : Nat) : String := String.ofList (Text.hexPadded 16 n)

/-- A new URI. -/
def newUri (hint : String) : Conversion String := do
  let s ← get
  let n := s.minted + 1
  set { s with minted := n }
  return s.store.newUri (segment n) hint

/-- A step on the stored objects. -/
def onStore {α : Type} (step : Attempt Storage.Store Storage.Fault α) : Conversion α :=
  (step.focus store fun store s ↦ { s with store }).mapError .storage

/-- A look at the stored objects. -/
def lookStore {α : Type} (look : Storage.Store → Except Storage.Fault α) : Conversion α := do
  .ofExcept ((look (← get).store).mapError .storage)

/-! ## Streams -/

/-- The document on the next line, if there is one, at its position. -/
def nextDocument (reader : LineReader) (place : Place) (read : Nat) (id : Nat) :
    Conversion (Option Value) := do
  match ← lookStore fun store ↦ reader.nextLine? store with
  | (none, _) => return none
  | (some line, reader) => match Json.ofText? line with
    | none => throw (.malformedDocument (place.path.child (.index read)))
    | some j =>
      modify (·.setSource id (.lines reader place (read + 1)))
      return some (.ofJson j)

/-- The next item of a stream, if there is one.  A source that reads from storage has its work done
by the worker, which cannot ask this of itself. -/
def pull (onWorker : Bool) (id : Nat) : Conversion (Option Value) := do
  let source := (← get).source id
  modify (·.setSource id .over)
  match source with
  | .over | .items [] => return none
  | .items (.error e :: _) => throw e
  | .items (.ok v :: rest) =>
    modify (·.setSource id (.items rest))
    return some v
  | .lines reader place read =>
    if onWorker then throw .workerReentry
    if (← get).isCancelled place.token then throw .cancelled
    nextDocument reader place read id

/-- How many items a stream can still give. -/
def remaining (s : Session) (id : Nat) : Nat :=
  match s.source id with
  | .over => 0
  | .items rest => rest.length
  | .lines reader _ _ => match reader.size s.store with
    | .ok n => n
    | .error _ => 0

/-- So many items of a stream at most, fewer if it ends. -/
def pullUpTo (onWorker : Bool) (id : Nat) : Nat → Conversion (List Value)
  | 0 => return []
  | n + 1 => do
    match ← pull onWorker id with
    | none => return []
    | some v => return v :: (← pullUpTo onWorker id n)

/-- All items that are left in a stream. -/
def drain (onWorker : Bool) (id : Nat) : Conversion (List Value) := do
  pullUpTo onWorker id ((← get).remaining id + 1)

end Session

end Interchange
