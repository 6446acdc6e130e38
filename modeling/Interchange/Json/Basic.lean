import Interchange.Entries
import Interchange.Json.Document
import Interchange.Text.Quoted

/-!
# JSON values

What a document says: numbers are integers or floats, and an object holds its members in the order
in which they are to be written.  Values are written compactly.
-/

namespace Interchange

/-- What a JSON document says. -/
inductive Json where
  | null
  | bool (value : Bool)
  | integer (value : Int)
  | float (value : Binary64)
  | string (value : String)
  | array (items : List Json)
  | object (members : List (String × Json))

namespace Json

/-! ## Writing -/

/-- One character of a string.  Controls have an escape each, and what text needs no escape for
stands as it is. -/
def escape (c : Char) : List Char :=
  if c = '"' then ['\\', '"']
  else if c = '\\' then ['\\', '\\']
  else if c = '\x08' then ['\\', 'b']
  else if c = '\x0c' then ['\\', 'f']
  else if c = '\n' then ['\\', 'n']
  else if c = '\r' then ['\\', 'r']
  else if c = '\t' then ['\\', 't']
  else if c.toNat < 0x20 then '\\' :: 'u' :: Text.hexPadded 4 c.toNat
  else [c]

/-- A string between quotes. -/
def quote (s : String) : List Char := '"' :: s.toList.flatMap escape ++ ['"']

mutual

/-- The text of a value.  Floats that are not finite have no numeral and are written as null. -/
def text : Json → List Char
  | null => ['n', 'u', 'l', 'l']
  | bool true => ['t', 'r', 'u', 'e']
  | bool false => ['f', 'a', 'l', 's', 'e']
  | integer i => (Numeral.ofInt i).text
  | float x => if x.isFinite then (Numeral.ofFloat x).text else ['n', 'u', 'l', 'l']
  | string s => quote s
  | array items => '[' :: itemTexts items ++ [']']
  | object members => '\x7b' :: memberTexts members ++ ['\x7d']

def itemTexts : List Json → List Char
  | [] => []
  | [j] => text j
  | j :: js => text j ++ ',' :: itemTexts js

def memberTexts : List (String × Json) → List Char
  | [] => []
  | [(name, j)] => quote name ++ ':' :: text j
  | (name, j) :: ms => quote name ++ ':' :: text j ++ ',' :: memberTexts ms

end

/-! ## Reading -/

/-- A number, as an integer if the numeral is whole and 64 bits hold it. -/
def ofNumeral? (n : Numeral) : Option Json :=
  match n.toInt? with
  | some i => some (integer i)
  | none => n.toFloat?.map float

mutual

/-- What a document says, at most so many containers deep.  Of members with one name the last
counts. -/
def ofDocument? : Nat → Document → Option Json
  | _, .null => some null
  | _, .bool b => some (bool b)
  | _, .number n => ofNumeral? n
  | _, .string s => s.map string
  | 0, .array _ => none
  | levels + 1, .array items => array <$> ofItems? levels items
  | 0, .object _ => none
  | levels + 1, .object members => object <$> ofMembers? levels members []

def ofItems? : Nat → List Document → Option (List Json)
  | _, [] => some []
  | levels, d :: ds => do return (← ofDocument? levels d) :: (← ofItems? levels ds)

def ofMembers? : Nat → List (Option String × Document) → Entries Json → Option (Entries Json)
  | _, [], es => some es
  | levels, (name, d) :: ms, es => do
    let name ← name
    ofMembers? levels ms (es.insert name (← ofDocument? levels d))

end

/-- Containers deeper than this are not read. -/
def maxDepth : Nat := 127

/-- What a text says, if it is a document that can be read. -/
def ofText? (cs : List Char) : Option Json := do ofDocument? maxDepth (← Document.ofText? cs)

end Json

end Interchange
