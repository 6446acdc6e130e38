import Interchange.Text.Printable

/-!
# Quoted text

Text between double quotes, as messages show names whose characters are not under the program's
control.  A double quote and a backslash get a backslash, NUL, tab, line feed and carriage return
have their short forms, and any other character that is not printable is written by its code point.
-/

namespace Interchange.Text

/-- Lower-case hexadecimal digits, without leading zeros. -/
def hex (n : Nat) : List Char := Nat.toDigits 16 n

/-- Lower-case hexadecimal digits, filled with zeros to a width. -/
def hexPadded (width n : Nat) : List Char :=
  let ds := hex n
  List.replicate (width - ds.length) '0' ++ ds

/-- One character between quotes. -/
def quoteChar (c : Char) : List Char :=
  if c = '"' then ['\\', '"']
  else if c = '\\' then ['\\', '\\']
  else if c = '\x00' then ['\\', '0']
  else if c = '\t' then ['\\', 't']
  else if c = '\r' then ['\\', 'r']
  else if c = '\n' then ['\\', 'n']
  else if isPrintable c then [c]
  else ['\\', 'u', '\x7b'] ++ hex c.toNat ++ ['\x7d']

/-- The text between quotes. -/
def quoted (s : String) : String :=
  String.ofList ('"' :: s.toList.flatMap quoteChar ++ ['"'])

@[simp] theorem toList_quoted (s : String) :
    (quoted s).toList = '"' :: s.toList.flatMap quoteChar ++ ['"'] := by
  simp [quoted]

end Interchange.Text
