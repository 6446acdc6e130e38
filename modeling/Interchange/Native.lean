import Interchange.Conversion.Describe

/-!
# Native types

Types that know their host type and how their elements are values.  A native type is a code; its
elements are those of `Native.Carrier`.
-/

namespace Interchange

/-- The code of a type whose elements are read from values and written to them. -/
inductive Native where
  | int64 | int32 | binary64 | bool | string | unit | timestamp | span
  | list (element : Native)
  | option (inner : Native)
  /-- Items under names, in order of the names. -/
  | entries (item : Native)
deriving DecidableEq, Repr

namespace Native

/-- The elements of a native type. -/
abbrev Carrier : Native → Type
  | int64 => Int64
  | int32 => Int32
  | binary64 => Binary64
  | bool => Bool
  | string => String
  | unit => Unit
  | timestamp => Timestamp
  | span => Span
  | list n => List n.Carrier
  | option n => Option n.Carrier
  | entries n => Entries n.Carrier

/-- The host type of a native type. -/
def hostType : Native → HostType
  | int64 | int32 => .ofKind .integer
  | binary64 => .ofKind .float
  | bool => .ofKind .boolean
  | string => .ofKind .string
  | unit => .ofKind .none
  | timestamp => .ofKind .datetime
  | span => .ofKind .duration
  | list n => .list n.hostType
  | option n => .optional n.hostType
  | entries n => .dict n.hostType

/-- The value of an element. -/
def toValue : (n : Native) → n.Carrier → Value
  | int64, x => .scalar (.integer x)
  | int32, x => .scalar (.integer x.toInt64)
  | binary64, x => .scalar (.float x)
  | bool, x => .scalar (.boolean x)
  | string, x => .scalar (.string x)
  | unit, _ => .none
  | timestamp, x => .scalar (.datetime x)
  | span, x => .scalar (.duration x)
  | list n, xs => .list (xs.map n.toValue)
  | option _, none => .none
  | option n, some x => n.toValue x
  | entries n, es => .map (es.map fun e ↦ (e.1, n.toValue e.2))

/-- The fault of a value that is no element. -/
def mismatch (n : Native) (v : Value) : Fault := Place.root.mismatch n.hostType.text v

/-- Reads each of some values. -/
def readEach {α : Type} (read : Value → Conversion α) : List Value → Conversion (List α)
  | [] => return []
  | v :: vs => do
    let x ← read v
    return x :: (← readEach read vs)

/-- Reads each of some named values. -/
def readEntries {α : Type} (read : Value → Conversion α) :
    List (String × Value) → Conversion (Entries α)
  | [] => return []
  | (name, v) :: es => do
    let x ← read v
    return (name, x) :: (← readEntries read es)

/-- The integer as one of half the width. -/
def narrow? (x : Int64) : Option Int32 :=
  if x.toInt32.toInt64 = x then some x.toInt32 else none

/-- The element that a value is.  A stream is drained where a list is read. -/
def ofValue : (n : Native) → Value → Conversion n.Carrier
  | int64, .scalar (.integer x) => return x
  | int32, .scalar (.integer x) => match narrow? x with
    | some y => return y
    | none => throw (.typeMismatch .root "i32" ("int " ++ toString x.toInt))
  | binary64, .scalar (.float x) => return x
  | binary64, .scalar (.integer x) => return .ofInt x.toInt
  | bool, .scalar (.boolean x) => return x
  | string, .scalar (.string x) => return x
  | unit, .scalar .none => return ()
  | timestamp, .scalar (.datetime x) => return x
  | span, .scalar (.duration x) => return x
  | list n, .list vs => readEach n.ofValue vs
  | list n, .stream id => do readEach n.ofValue (← Session.drain false id)
  | option _, .scalar .none => return none
  | option n, v => some <$> n.ofValue v
  | entries n, .map es => readEntries n.ofValue es
  | n, v => throw (n.mismatch v)

end Native

end Interchange
