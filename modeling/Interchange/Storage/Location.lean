/-!
# Locations of files

A location is text, in pieces between slashes.  What it names is given by its components: empty
pieces and single dots do not count, except that a leading slash is the root and a leading dot the
current directory; two dots are the parent directory.

Joining puts a slash between two locations where there is none, and an absolute location takes the
place of what is before it.
-/

namespace Interchange.Storage

/-- A location as text. -/
abbrev Location := List Char

/-- The name of a file in its directory. -/
abbrev FileName := List Char

/-- A step of a location. -/
inductive Component where
  | root | current | parent
  | normal (name : FileName)
deriving DecidableEq, Repr

namespace Location

/-- The pieces between slashes. -/
def pieces : Location → List (List Char)
  | [] => [[]]
  | '/' :: cs => [] :: pieces cs
  | c :: cs => match pieces cs with
    | [] => [[c]]
    | p :: ps => (c :: p) :: ps

/-- What a piece stands for after the start. -/
def component? (piece : List Char) : Option Component :=
  if piece = [] ∨ piece = ['.'] then none
  else if piece = ['.', '.'] then some .parent
  else some (.normal piece)

/-- Whether a location starts at the root. -/
def isAbsolute : Location → Bool
  | '/' :: _ => true
  | _ => false

/-- The components of a location. -/
def components (l : Location) : List Component :=
  let rest := l.pieces.filterMap component?
  if l.isAbsolute then .root :: rest
  else if l.pieces.head? = some ['.'] then .current :: rest
  else rest

/-- The names among the components. -/
def names (l : Location) : List FileName :=
  l.pieces.filterMap fun p ↦ match component? p with
    | some (.normal name) => some name
    | _ => none

/-- The location of the directory that holds what a location names: its text up to the last
component but one. -/
def parent (l : Location) : Location :=
  let skip (pieces : List (List Char)) := pieces.dropWhile fun p ↦ (component? p).isNone
  ['/'].intercalate (skip (skip l.pieces.reverse).tail).reverse

/-- One location inside another. -/
def join (base l : Location) : Location :=
  if l.isAbsolute then l
  else if base = [] ∨ base.getLast? = some '/' then base ++ l
  else base ++ '/' :: l

@[simp] theorem join_nil (l : Location) : join [] l = l := by
  simp [join]

/-- An absolute location does not depend on where it is joined. -/
theorem join_of_isAbsolute {l : Location} (h : l.isAbsolute = true) (base : Location) :
    join base l = l := by simp [join, h]

end Location

end Interchange.Storage
