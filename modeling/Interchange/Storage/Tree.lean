import Interchange.Storage.Location
import Interchange.Text.Utf8

/-!
# A tree of files

A tree is a file with its bytes, or a directory with trees under names.

A location is followed piece by piece, and each piece, an empty one too, needs a directory before
it.  Its text is looked at before: one with a NUL or one that is too long leads nowhere.  A file is
written after the directories that lead to it are made; those stay, also where the file itself is
refused.
-/

namespace Interchange.Storage

/-- Why a tree refuses. -/
inductive Refusal where
  | noEntry | fileExists | notDirectory | isDirectory | nameTooLong
  /-- A name with a NUL in it. -/
  | nulInName
deriving DecidableEq, Repr

/-- The reason of a refusal in messages. -/
def Refusal.message : Refusal → String
  | noEntry => "No such file or directory (os error 2)"
  | fileExists => "File exists (os error 17)"
  | notDirectory => "Not a directory (os error 20)"
  | isDirectory => "Is a directory (os error 21)"
  | nameTooLong => "File name too long (os error 36)"
  | nulInName => "file name contained an unexpected NUL byte"

/-- A file, or a directory with trees under names. -/
inductive Tree where
  | file (bytes : List UInt8)
  | directory (entries : List (FileName × Tree))

namespace Tree

/-- A directory with nothing in it. -/
def empty : Tree := directory []

/-! ## Nodes -/

/-- What stands under a name in a directory. -/
def child? (name : FileName) : Tree → Option Tree
  | file _ => none
  | directory entries => entries.lookup name

/-- Puts something under a name in a directory. -/
def setChild (name : FileName) : Tree → Tree → Tree
  | file bytes, _ => file bytes
  | directory entries, new => directory ((name, new) :: entries.filter (·.1 ≠ name))

@[simp] theorem child?_setChild_self (name : FileName) (entries : List (FileName × Tree))
    (new : Tree) : ((directory entries).setChild name new).child? name = some new := by
  simp [child?, setChild]

/-- What names lead to. -/
def node? : List FileName → Tree → Option Tree
  | [], t => some t
  | name :: names, t => (t.child? name).bind (node? names)

@[simp] theorem node?_nil (t : Tree) : t.node? [] = some t := rfl

/-- Puts something where names lead to. -/
def put : List FileName → Tree → Tree → Tree
  | [], _, new => new
  | name :: names, t, new => t.setChild name (put names ((t.child? name).getD empty) new)

/-- What is put into a directory is found there. -/
theorem node?_put_self {names : List FileName} {t : Tree} {entries : List (FileName × Tree)}
    (h : t.node? names = some (directory entries)) (name : FileName) (new : Tree) :
    (t.put (names ++ [name]) new).node? (names ++ [name]) = some new := by
  induction names generalizing t with
  | nil =>
    obtain rfl : t = directory entries := by simpa using h
    simp [put, node?]
  | cons n names ih =>
    cases t with
    | file => simp [node?, child?] at h
    | directory es =>
      obtain ⟨below, hb, h⟩ := Option.bind_eq_some_iff.1 h
      simpa [put, node?, hb] using ih h

/-! ## Locations -/

/-- The longest name, in bytes. -/
def maxName : Nat := 255

/-- The longest text of a location, in bytes. -/
def maxText : Nat := 4095

def isTooLong (most : Nat) (text : List Char) : Bool :=
  most < (Text.bytes (String.ofList text)).length

/-- Whether a location can be asked for. -/
def checkText (l : Location) : Except Refusal Unit :=
  if l.contains '\x00' then .error .nulInName
  else if isTooLong maxText l then .error .nameTooLong
  else .ok ()

/-- Follows pieces of a location from a place, given what is there. -/
def follow (place : List FileName) (there : Option Tree) :
    List (List Char) → Except Refusal (List FileName × Option Tree)
  | [] => .ok (place, there)
  | piece :: pieces => match there with
    | none => .error .noEntry
    | some (file _) => .error .notDirectory
    | some (directory entries) =>
      if piece = [] ∨ piece = ['.'] then follow place there pieces
      else if isTooLong maxName piece then .error .nameTooLong
      else follow (place ++ [piece]) (entries.lookup piece) pieces

/-- The place that a location leads to, and what is there. -/
def find (t : Tree) (l : Location) : Except Refusal (List FileName × Tree) := do
  checkText l
  match ← follow [] (some t) l.pieces with
  | (_, none) => throw .noEntry
  | (place, some found) => return (place, found)

/-! ## Writing -/

/-- Makes the directories that names lead through, as far as they are missing. -/
def makeDirectories : List FileName → Tree → Except Refusal Unit × Tree
  | [], directory entries => (.ok (), directory entries)
  | [], file bytes => (.error .fileExists, file bytes)
  | _ :: _, file bytes => (.error .notDirectory, file bytes)
  | name :: names, directory entries =>
    if isTooLong maxName name then (.error .nameTooLong, directory entries)
    else
      let (outcome, below) := makeDirectories names ((entries.lookup name).getD empty)
      (outcome, (directory entries).setChild name below)

/-- The place of a file that is to be written. -/
def target (t : Tree) (l : Location) : Except Refusal (List FileName) := do
  checkText l
  let (place, there) ← follow [] (some t) <| match l.pieces.reverse with
    | [] :: pieces => match pieces.dropWhile (· = []) with
      | ['.'] :: _ => l.pieces
      | pieces => pieces.tail.reverse
    | _ => l.pieces
  match l.getLast?, there with
  | some '/', _ | _, some (directory _) => throw .isDirectory
  | _, _ => return place

/-- Makes a file empty, and the directories that lead to it. -/
def create (t : Tree) (l : Location) : Except Refusal (List FileName) × Tree :=
  match checkText l.parent with
  | .error e => (.error e, t)
  | .ok _ => match t.makeDirectories l.names.dropLast with
    | (.error e, t) => (.error e, t)
    | (.ok _, t) => match t.target l with
      | .error e => (.error e, t)
      | .ok place => (.ok place, t.put place (.file []))

/-- A tree that holds only the directories that a location leads through. -/
def rooted (l : Location) : Tree := (empty.makeDirectories l.names).2

end Tree

end Interchange.Storage
