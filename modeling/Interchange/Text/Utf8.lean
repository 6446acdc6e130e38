/-!
# Text as bytes

The UTF-8 bytes of a text, and the text of bytes that are valid UTF-8.  Where bytes are not, the
first place is told: the start of a character that goes no further, and how many of its bytes were
taken before the one that does not follow.
-/

namespace Interchange.Text

/-- The UTF-8 bytes of a text. -/
def bytes (s : String) : List UInt8 := s.toByteArray.data.toList

/-- The text of bytes that are valid UTF-8. -/
def ofBytes? (bs : List UInt8) : Option String := String.fromUTF8? ⟨bs.toArray⟩

/-- Text is read back from its bytes. -/
@[simp] theorem ofBytes?_bytes (s : String) : ofBytes? (bytes s) = some s := by
  have h : (⟨(bytes s).toArray⟩ : ByteArray) = s.toByteArray := by simp [bytes]
  rw [ofBytes?, h, String.fromUTF8?, dif_pos s.isValidUTF8]
  rfl

/-- Bytes that are text are the bytes of that text. -/
theorem bytes_of_ofBytes? {bs : List UInt8} {s : String} (h : ofBytes? bs = some s) :
    bytes s = bs := by
  unfold ofBytes? String.fromUTF8? at h
  split at h
  · cases h; simp [bytes, String.fromUTF8]
  · cases h

/-! ## Where bytes are no text -/

/-- The first place where bytes are no text. -/
structure Break where
  /-- The position of the character's first byte. -/
  position : Nat
  /-- How many bytes were taken before one that does not follow; none if the bytes ended. -/
  taken : Option Nat
deriving DecidableEq, Repr

/-- The text of a break in messages. -/
def Break.message (b : Break) : String :=
  match b.taken with
  | some n =>
    "invalid utf-8 sequence of " ++ toString n ++ " bytes from index " ++ toString b.position
  | none => "incomplete utf-8 byte sequence from index " ++ toString b.position

/-- The least and the greatest byte of a range. -/
abbrev ByteRange := UInt8 × UInt8

/-- The bytes that carry on a character. -/
def carry : ByteRange := (0x80, 0xBF)

/-- The ranges that the bytes after a character's first byte are in. -/
def following? (b : UInt8) : Option (List ByteRange) :=
  if b < 0x80 then some []
  else if b < 0xC2 then none
  else if b < 0xE0 then some [carry]
  else if b = 0xE0 then some [(0xA0, 0xBF), carry]
  else if b = 0xED then some [(0x80, 0x9F), carry]
  else if b < 0xF0 then some [carry, carry]
  else if b = 0xF0 then some [(0x90, 0xBF), carry, carry]
  else if b < 0xF4 then some [carry, carry, carry]
  else if b = 0xF4 then some [(0x80, 0x8F), carry, carry]
  else none

/-- The first break from inside a character: where it starts, how many of its bytes were taken, and
the ranges of those still to come. -/
def breakFrom? (start taken : Nat) : List ByteRange → List UInt8 → Option Break
  | [], [] => none
  | _ :: _, [] => some ⟨start, none⟩
  | [], b :: bs => match following? b with
    | none => some ⟨start + taken, some 1⟩
    | some ranges => breakFrom? (start + taken) 1 ranges bs
  | (low, high) :: ranges, b :: bs =>
    if low ≤ b ∧ b ≤ high then breakFrom? start (taken + 1) ranges bs
    else some ⟨start, some taken⟩

/-- The first break of bytes. -/
def break? (bs : List UInt8) : Option Break := breakFrom? 0 0 [] bs

/-- The text of bytes, or where they break. -/
def read (bs : List UInt8) : Except Break String :=
  match ofBytes? bs with
  | some s => .ok s
  | none => .error ((break? bs).getD ⟨bs.length, none⟩)

/-- What a text is written as reads as the text. -/
@[simp] theorem read_bytes (s : String) : read (bytes s) = .ok s := by simp [read]

end Interchange.Text
