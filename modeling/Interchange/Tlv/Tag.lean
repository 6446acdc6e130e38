import Interchange.Text.Quoted

/-!
# Tags and faults of the byte form

Every item of the byte form starts with a tag byte.  Plain items have a payload of fixed size.
Strings, byte strings and containers have a length of four bytes and a body of that length.  Numbers
are written with their lowest byte first.
-/

namespace Interchange.Tlv

/-- What an item is. -/
inductive Tag where
  | true | false | u32 | s64 | f64 | unit | string | bytes | list | map | variant
deriving DecidableEq, Repr

namespace Tag

/-- The byte of a tag. -/
def byte : Tag → UInt8
  | true => 0x01
  | false => 0x02
  | u32 => 0x05
  | s64 => 0x0A
  | f64 => 0x0C
  | unit => 0x0E
  | string => 0x10
  | bytes => 0x11
  | list => 0x20
  | map => 0x21
  | variant => 0x33

/-- The tag of a byte. -/
def ofByte? (b : UInt8) : Option Tag :=
  [true, false, u32, s64, f64, unit, string, bytes, list, map, variant].find? (·.byte = b)

/-- A tag is read back from its byte. -/
@[simp] theorem ofByte?_byte (t : Tag) : ofByte? t.byte = some t := by cases t <;> decide

/-- Only a tag's own byte reads as it. -/
theorem byte_of_ofByte? {b : UInt8} {t : Tag} (h : ofByte? b = some t) : t.byte = b := by
  simpa using List.find?_some h

end Tag

/-- The kinds of containers that can be open, and the root, which takes any items. -/
inductive Scope where
  | root | list | map | variant
deriving DecidableEq, Repr

def Scope.name : Scope → String
  | root => "Root"
  | list => "List"
  | map => "Map"
  | variant => "Variant"

/-- Why bytes cannot be written or read. -/
inductive Fault where
  /-- The bytes end inside an item. -/
  | unexpectedEnd
  /-- A byte that is no tag, or not the tag of what is read. -/
  | invalidTag (byte : UInt8)
  | invalidUtf8
  /-- A container is closed as another kind than it was opened. -/
  | scopeMismatch (expected actual : Scope)
  /-- Nothing is open that could be closed. -/
  | scopeUnderflow
  /-- The bytes are asked for while a container is open. -/
  | scopeStillOpen
  /-- A second item goes into a variant. -/
  | tooManyItems
  /-- A variant is closed without an item. -/
  | emptyVariant
  /-- Something else than a variant goes into a map. -/
  | invalidMapEntry
  /-- A body whose length does not fit four bytes. -/
  | tooLarge (size : Nat)
  | unknownVariant (name : String)
  | missingEntry (name : String)
  /-- Nesting beyond the limit. -/
  | nestingLimit
  /-- A time or a span outside its range. -/
  | outOfRange
deriving DecidableEq, Repr

/-- The text of a fault. -/
def Fault.message : Fault → String
  | unexpectedEnd => "UnexpectedEnd"
  | invalidTag byte =>
    String.join ["invalid tag byte: 0x", String.ofList (Text.hexPadded 2 byte.toNat)]
  | invalidUtf8 => "InvalidUtf8"
  | scopeMismatch expected actual =>
    String.join ["scope mismatch: expected ", expected.name, ", found ", actual.name]
  | scopeUnderflow => "ScopeUnderflow"
  | scopeStillOpen => "ScopeStillOpen"
  | tooManyItems => "TooManyItems"
  | emptyVariant => "EmptyVariant"
  | invalidMapEntry => "InvalidMapEntry"
  | tooLarge size => String.join ["BlobTooLarge(", toString size, ")"]
  | unknownVariant name => String.join ["unknown variant: ", name]
  | missingEntry name => String.join ["missing map entry: ", name]
  | nestingLimit => "RecursionLimitExceeded"
  | outOfRange => "OutOfRange"

/-! ## Numbers as bytes -/

/-- The lowest bytes of a number, the lowest one first. -/
def littleEndian : Nat → Nat → List UInt8
  | 0, _ => []
  | width + 1, n => UInt8.ofNat n :: littleEndian width (n / 256)

@[simp] theorem length_littleEndian (width n : Nat) : (littleEndian width n).length = width := by
  induction width generalizing n with
  | zero => rfl
  | succ w ih => simp [littleEndian, ih]

/-- The number of bytes with the lowest one first. -/
def ofLittleEndian : List UInt8 → Nat
  | [] => 0
  | b :: bs => b.toNat + 256 * ofLittleEndian bs

/-- A number that fits is read back from its bytes. -/
theorem ofLittleEndian_littleEndian {width n : Nat} (h : n < Nat.pow 256 width) :
    ofLittleEndian (littleEndian width n) = n := by
  induction width generalizing n with
  | zero => simp_all [littleEndian, ofLittleEndian]
  | succ w ih =>
    have hw : n / 256 < Nat.pow 256 w := by
      have h : n < Nat.pow 256 w * 256 := h
      omega
    simp only [littleEndian, ofLittleEndian, ih hw, UInt8.toNat_ofNat']
    omega

theorem ofLittleEndian_lt (bs : List UInt8) : ofLittleEndian bs < Nat.pow 256 bs.length := by
  induction bs with
  | nil => exact Nat.one_pos
  | cons b bs ih =>
    have hb := b.toNat_lt
    have hpow : Nat.pow 256 (bs.length + 1) = Nat.pow 256 bs.length * 256 := rfl
    rw [List.length_cons, hpow, ofLittleEndian]
    omega

/-- Bytes are the bytes of the number that they are read as. -/
theorem littleEndian_ofLittleEndian (bs : List UInt8) :
    littleEndian bs.length (ofLittleEndian bs) = bs := by
  induction bs with
  | nil => rfl
  | cons b bs ih =>
    have hb := b.toNat_lt
    have hlow : UInt8.ofNat (b.toNat + 256 * ofLittleEndian bs) = b := by
      apply UInt8.toNat_inj.mp
      rw [UInt8.toNat_ofNat']
      omega
    have hhigh : (b.toNat + 256 * ofLittleEndian bs) / 256 = ofLittleEndian bs := by omega
    rw [List.length_cons, littleEndian, ofLittleEndian, hlow, hhigh, ih]

end Interchange.Tlv
