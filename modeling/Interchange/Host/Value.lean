import Interchange.Entries
import Interchange.Host.Type
import Interchange.Text.Quoted

/-!
# Host values

The values that conversions take and give.  A record knows the name of its own type, if any, so that
it can stand where an ancestor of that type is expected.  Streams and foreign values are objects:
two of them are equal when they are the same object.
-/

namespace Interchange

/-- A value on the host's side. -/
inductive Value where
  | scalar (value : Scalar)
  | blob (value : Blob)
  | list (items : List Value)
  | map (entries : List (String × Value))
  | record (name : Option String) (fields : List (String × Value))
  /-- Items that are pulled once; which are left is known by the session. -/
  | stream (id : Nat)
  /-- An object of a converter outside the library, with what it holds. -/
  | foreign (key : String) (payload : Binary64) (id : Nat)

namespace Value

/-- The absent value. -/
def none : Value := scalar .none

def isNone : Value → Bool
  | scalar .none => true
  | _ => false

/-- What a value is, in messages. -/
def describe : Value → String
  | scalar s => s.kind.hostName
  | blob b => "blob " ++ Text.quoted b.type.format
  | list _ => "list"
  | map _ => "dict"
  | record (some name) _ => "record " ++ name
  | record Option.none _ => "record"
  | stream _ => "stream"
  | foreign key _ _ => "opaque " ++ key

mutual

/-- Whether the entries of every map and record within are ordered by name. -/
def Ordered : Value → Prop
  | list items => OrderedItems items
  | map entries => Entries.Ordered entries ∧ OrderedEntries entries
  | record _ fields => Entries.Ordered fields ∧ OrderedEntries fields
  | scalar _ | blob _ | stream _ | foreign _ _ _ => True

def OrderedItems : List Value → Prop
  | [] => True
  | v :: vs => Ordered v ∧ OrderedItems vs

def OrderedEntries : List (String × Value) → Prop
  | [] => True
  | (_, v) :: es => Ordered v ∧ OrderedEntries es

end

mutual

/-- Whether no stream occurs in a value. -/
def StreamFree : Value → Prop
  | stream _ => False
  | list items => StreamFreeItems items
  | map entries => StreamFreeEntries entries
  | record _ fields => StreamFreeEntries fields
  | scalar _ | blob _ | foreign _ _ _ => True

def StreamFreeItems : List Value → Prop
  | [] => True
  | v :: vs => StreamFree v ∧ StreamFreeItems vs

def StreamFreeEntries : List (String × Value) → Prop
  | [] => True
  | (_, v) :: es => StreamFree v ∧ StreamFreeEntries es

end

mutual

/-- Equality of values: floats compared as numbers, streams and foreign values as objects. -/
def equal : Value → Value → Bool
  | scalar a, scalar b => a.equal b
  | blob a, blob b => a = b
  | list as, list bs => equalItems as bs
  | map as, map bs => equalEntries as bs
  | record m as, record n bs => m = n && equalEntries as bs
  | stream a, stream b => a = b
  | foreign _ _ a, foreign _ _ b => a = b
  | _, _ => false

def equalItems : List Value → List Value → Bool
  | [], [] => true
  | a :: as, b :: bs => equal a b && equalItems as bs
  | _, _ => false

def equalEntries : List (String × Value) → List (String × Value) → Bool
  | [], [] => true
  | (m, a) :: as, (n, b) :: bs => m = n && equal a b && equalEntries as bs
  | _, _ => false

end

end Value

end Interchange
