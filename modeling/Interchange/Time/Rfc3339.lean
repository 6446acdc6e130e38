import Interchange.Text.Blank
import Interchange.Time.Calendar
import Interchange.Time.Timestamp

/-!
# Dates and times in text

A timestamp is written as date, `T`, time and `Z`, with no fraction or one of three, six or nine
digits, the fewest that are exact; a leap second is second 60.  Years outside 0 to 9999 carry a
sign.

Reading is more generous.  It takes white space before each number and around the separators, a
space or a lower-case `t` for the `T`, signed years of any length, fractions of any length, and
offsets from UTC with or without a colon.
-/

namespace Interchange.Rfc3339

/-- A number in decimal digits, filled with zeros to a width. -/
def padded (width n : Nat) : List Char :=
  let ds := Nat.toDigits 10 n
  List.replicate (width - ds.length) '0' ++ ds

def writeYear (year : Int) : List Char :=
  if 0 ≤ year ∧ year ≤ 9999 then padded 4 year.toNat
  else (if year < 0 then '-' else '+') :: padded 4 year.natAbs

/-- The fewest digits of three, six or nine that a fraction needs. -/
def writeFraction (nanos : Nat) : List Char :=
  if nanos = 0 then []
  else if nanos % 1000000 = 0 then '.' :: padded 3 (nanos / 1000000)
  else if nanos % 1000 = 0 then '.' :: padded 6 (nanos / 1000)
  else '.' :: padded 9 nanos

/-- The text of a timestamp. -/
def write (t : Timestamp) : List Char :=
  let date := Date.ofDays (t.seconds / 86400)
  let second := (t.seconds % 86400).toNat
  let extra := if 1000000000 ≤ t.nanos then 1 else 0
  writeYear date.year ++ ['-'] ++ padded 2 date.month ++ ['-'] ++ padded 2 date.day ++ ['T'] ++
    padded 2 (second / 3600) ++ [':'] ++ padded 2 (second / 60 % 60) ++ [':'] ++
    padded 2 (second % 60 + extra) ++ writeFraction (t.nanos % 1000000000) ++ ['Z']

/-! ## Reading -/

/-- The value of decimal digits. -/
def valueOf (ds : List Char) : Nat := ds.foldl (fun n d ↦ 10 * n + (d.toNat - '0'.toNat)) 0

/-- At least one and at most so many digits, and what follows. -/
def digits? (most : Nat) (cs : List Char) : Option (Nat × List Char) :=
  let ds := (cs.take most).takeWhile Char.isDigit
  if ds.isEmpty then none else some (valueOf ds, cs.drop ds.length)

/-- A number in a range, after white space. -/
def number? (most low high : Nat) (cs : List Char) : Option (Nat × List Char) := do
  let (n, rest) ← digits? most (Text.trimLeft cs)
  guard (low ≤ n ∧ n ≤ high)
  return (n, rest)

/-- A year: up to four digits, or a sign and any number of digits. -/
def year? (cs : List Char) : Option (Int × List Char) :=
  match Text.trimLeft cs with
  | '-' :: cs => (digits? cs.length cs).map fun (n, rest) ↦ (-n, rest)
  | '+' :: cs => (digits? cs.length cs).map fun (n, rest) ↦ (n, rest)
  | cs => (digits? 4 cs).map fun (n, rest) ↦ (n, rest)

/-- A separator, after white space. -/
def separator? (c : Char) (cs : List Char) : Option (List Char) :=
  match Text.trimLeft cs with
  | d :: rest => if d = c then some rest else none
  | [] => none

/-- A fraction of a second in nanoseconds, if a point starts one; digits past the ninth are
passed over. -/
def fraction? (cs : List Char) : Option (Nat × List Char) :=
  match cs with
  | '.' :: cs => do
    let (n, rest) ← digits? 9 cs
    return (n * Nat.pow 10 (9 - (cs.length - rest.length)), rest.dropWhile Char.isDigit)
  | cs => some (0, cs)

/-- Minutes of an hour, in exactly two digits. -/
def minutes? : List Char → Option (Nat × List Char)
  | a :: b :: rest =>
    if '0' ≤ a ∧ a ≤ '5' ∧ b.isDigit then some (valueOf [a, b], rest) else none
  | _ => none

/-- An offset from UTC in seconds. -/
def offset? (cs : List Char) : Option (Int × List Char) :=
  match cs with
  | 'Z' :: rest | 'z' :: rest => some (0, rest)
  | sign :: a :: b :: rest => do
    let negative ← match sign with
      | '+' => some false
      | '-' | '−' => some true
      | _ => none
    guard (a.isDigit ∧ b.isDigit)
    let (minutes, rest) ← minutes? (rest.dropWhile fun c ↦ c = ':' || Text.isBlank c)
    let seconds : Int := valueOf [a, b] * 3600 + minutes * 60
    return (if negative then -seconds else seconds, rest)
  | _ => none

/-- The zone: three letters for UTC in any case, or an offset. -/
def zone? (cs : List Char) : Option (Int × List Char) :=
  let cs := Text.trimLeft cs
  if (cs.take 3).map Char.toUpper = ['U', 'T', 'C'] then some (0, cs.drop 3) else offset? cs

/-- The timestamp that a text names. -/
def read? (cs : List Char) : Option Timestamp := do
  let (year, cs) ← year? cs
  let cs ← separator? '-' cs
  let (month, cs) ← number? 2 1 12 cs
  let cs ← separator? '-' cs
  let (day, cs) ← number? 2 1 31 cs
  let cs ← match cs with
    | 'T' :: cs | 't' :: cs | ' ' :: cs => some cs
    | _ => none
  let (hour, cs) ← number? 2 0 23 cs
  let cs ← separator? ':' cs
  let (minute, cs) ← number? 2 0 59 cs
  let cs ← separator? ':' cs
  let (second, cs) ← number? 2 0 60 cs
  let (nanos, cs) ← fraction? cs
  let (offset, cs) ← zone? cs
  guard (Text.trimLeft cs = [])
  let date : Date := ⟨year, month, day⟩
  guard (date.Valid ∧ offset.natAbs < 86400)
  let leap := if second = 60 then 1 else 0
  let seconds := date.toDays * 86400 + hour * 3600 + minute * 60 + (second - leap : Nat)
  guard (-8334601228800 ≤ seconds ∧ seconds ≤ 8210266876799)
  Timestamp.ofParts? (seconds - offset) (nanos + leap * 1000000000)

end Interchange.Rfc3339
