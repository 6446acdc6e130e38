import Interchange.Json.Numeral

/-!
# Documents

A document is JSON text as it is written: numbers are numerals, and the members of an object stand
in their order, repeated names included.  Text is a document if it follows the grammar; whether
numbers are in range, how deep containers nest and which members count is left to those who read the
document as something.

A string can be written that is no text, by an escape that names half of a surrogate pair without
the other half.  Such a string stands in the document as `none`.
-/

namespace Interchange.Json

/-- JSON text as it is written. -/
inductive Document where
  | null
  | bool (value : Bool)
  | number (value : Numeral)
  | string (value : Option String)
  | array (items : List Document)
  | object (members : List (Option String × Document))

namespace Document

/-- The white space of JSON. -/
def isSpace (c : Char) : Bool := c = ' ' || c = '\n' || c = '\t' || c = '\r'

def skipSpace (cs : List Char) : List Char := cs.dropWhile isSpace

/-! ## Numbers -/

/-- Digits, at least one. -/
def digits? (cs : List Char) : Option (List Char × List Char) :=
  match cs.takeWhile Char.isDigit with
  | [] => none
  | ds => some (ds, cs.dropWhile Char.isDigit)

/-- Whole digits: a zero stands alone. -/
def whole? (cs : List Char) : Option (List Char × List Char) := do
  let (ds, rest) ← digits? cs
  match ds with
  | '0' :: _ :: _ => none
  | _ => some (ds, rest)

/-- The digits after a point, if one stands here. -/
def fraction? : List Char → Option (List Char × List Char)
  | '.' :: cs => digits? cs
  | cs => some ([], cs)

/-- The digits of an exponent, with its sign. -/
def signedDigits? : List Char → Option ((Bool × List Char) × List Char)
  | '-' :: cs => (digits? cs).map fun (ds, rest) ↦ ((true, ds), rest)
  | '+' :: cs => (digits? cs).map fun (ds, rest) ↦ ((false, ds), rest)
  | cs => (digits? cs).map fun (ds, rest) ↦ ((false, ds), rest)

/-- An exponent, if one stands here. -/
def exponent? : List Char → Option (Option (Bool × List Char) × List Char)
  | 'e' :: cs | 'E' :: cs => (signedDigits? cs).map fun (e, rest) ↦ (some e, rest)
  | cs => some (none, cs)

/-- A number. -/
def numeral? (cs : List Char) : Option (Numeral × List Char) := do
  let (negative, cs) := match cs with
    | '-' :: cs => (true, cs)
    | cs => (false, cs)
  let (whole, cs) ← whole? cs
  let (fraction, cs) ← fraction? cs
  let (exponent, cs) ← exponent? cs
  return (⟨negative, whole, fraction, exponent⟩, cs)

/-! ## Strings -/

/-- The value of a hexadecimal digit. -/
def hexValue? (c : Char) : Option Nat :=
  if '0' ≤ c ∧ c ≤ '9' then some (c.toNat - '0'.toNat)
  else if 'a' ≤ c ∧ c ≤ 'f' then some (c.toNat - 'a'.toNat + 10)
  else if 'A' ≤ c ∧ c ≤ 'F' then some (c.toNat - 'A'.toNat + 10)
  else none

/-- The value of four hexadecimal digits. -/
def hex4? (a b c d : Char) : Option Nat := do
  return 4096 * (← hexValue? a) + 256 * (← hexValue? b) + 16 * (← hexValue? c) + (← hexValue? d)

/-- The characters that a letter after a backslash stands for. -/
def escaped? : Char → Option Char
  | '"' => some '"'
  | '\\' => some '\\'
  | '/' => some '/'
  | 'b' => some '\x08'
  | 'f' => some '\x0c'
  | 'n' => some '\n'
  | 'r' => some '\r'
  | 't' => some '\t'
  | _ => none

/-- A piece of a string: a character, or half of a surrogate pair. -/
inductive Piece where
  | char (c : Char)
  | half (unit : Nat)

/-- The pieces of a string up to its closing quote. -/
def pieces? : List Char → Option (List Piece × List Char)
  | '"' :: rest => some ([], rest)
  | '\\' :: 'u' :: a :: b :: c :: d :: rest => do
    let n ← hex4? a b c d
    let (ps, rest) ← pieces? rest
    return ((if 0xD800 ≤ n ∧ n < 0xE000 then .half n else .char (.ofNat n)) :: ps, rest)
  | '\\' :: c :: rest => do
    let c ← escaped? c
    let (ps, rest) ← pieces? rest
    return (.char c :: ps, rest)
  | c :: rest => do
    guard (0x20 ≤ c.toNat)
    let (ps, rest) ← pieces? rest
    return (.char c :: ps, rest)
  | [] => none

/-- The characters of pieces, if every half has its other half right after it. -/
def assemble? : List Piece → Option (List Char)
  | [] => some []
  | .char c :: ps => (c :: ·) <$> assemble? ps
  | .half high :: .half low :: ps =>
    if high < 0xDC00 ∧ 0xDC00 ≤ low then
      (Char.ofNat (0x10000 + (high - 0xD800) * 0x400 + (low - 0xDC00)) :: ·) <$> assemble? ps
    else none
  | .half _ :: _ => none

/-- A string after its opening quote. -/
def string? (cs : List Char) : Option (Option String × List Char) :=
  (pieces? cs).map fun (ps, rest) ↦ ((assemble? ps).map String.ofList, rest)

/-! ## Values -/

/-- What follows a word that has to stand here. -/
def word? (word : List Char) (cs : List Char) : Option (List Char) :=
  if word.isPrefixOf cs then some (cs.drop word.length) else none

mutual

/-- A value, after white space. -/
def value? : Nat → List Char → Option (Document × List Char)
  | 0, _ => none
  | fuel + 1, cs => match skipSpace cs with
    | 'n' :: rest => (word? ['u', 'l', 'l'] rest).map fun rest ↦ (null, rest)
    | 't' :: rest => (word? ['r', 'u', 'e'] rest).map fun rest ↦ (bool true, rest)
    | 'f' :: rest => (word? ['a', 'l', 's', 'e'] rest).map fun rest ↦ (bool false, rest)
    | '"' :: rest => (string? rest).map fun (s, rest) ↦ (string s, rest)
    | '[' :: rest => match skipSpace rest with
      | ']' :: rest => some (array [], rest)
      | _ => (items? fuel rest).map fun (ds, rest) ↦ (array ds, rest)
    | '\x7b' :: rest => match skipSpace rest with
      | '\x7d' :: rest => some (object [], rest)
      | _ => (members? fuel rest).map fun (ms, rest) ↦ (object ms, rest)
    | rest => (numeral? rest).map fun (n, rest) ↦ (number n, rest)

/-- The items of an array up to its end, one at least. -/
def items? : Nat → List Char → Option (List Document × List Char)
  | 0, _ => none
  | fuel + 1, cs => do
    let (d, rest) ← value? fuel cs
    match skipSpace rest with
    | ',' :: rest => do
      let (ds, rest) ← items? fuel rest
      return (d :: ds, rest)
    | ']' :: rest => some ([d], rest)
    | _ => none

/-- The members of an object up to its end, one at least. -/
def members? : Nat → List Char → Option (List (Option String × Document) × List Char)
  | 0, _ => none
  | fuel + 1, cs => do
    let rest ← word? ['"'] (skipSpace cs)
    let (name, rest) ← string? rest
    let rest ← word? [':'] (skipSpace rest)
    let (d, rest) ← value? fuel rest
    match skipSpace rest with
    | ',' :: rest => do
      let (ms, rest) ← members? fuel rest
      return ((name, d) :: ms, rest)
    | '\x7d' :: rest => some ([(name, d)], rest)
    | _ => none

end

/-- The document that a text writes.  Two steps inward take a character at least. -/
def ofText? (cs : List Char) : Option Document := do
  let (d, rest) ← value? (2 * cs.length + 2) cs
  if skipSpace rest = [] then some d else none

end Document

end Interchange.Json
