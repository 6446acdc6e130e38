/-!
# Blank characters

The characters with the White_Space property, and trimming by them.
-/

namespace Interchange.Text

/-- The characters of white space: the ASCII ones, no-break and fixed-width spaces, and the line
and paragraph separators. -/
def isBlank (c : Char) : Bool :=
  let n := c.toNat
  (0x09 ≤ n && n ≤ 0x0D) || n = 0x20 || n = 0x85 || n = 0xA0 || n = 0x1680 ||
    (0x2000 ≤ n && n ≤ 0x200A) || n = 0x2028 || n = 0x2029 || n = 0x202F || n = 0x205F ||
    n = 0x3000

/-- A space is blank. -/
@[simp] theorem isBlank_space : isBlank ' ' = true := by decide

theorem toNat_of_isDigit {c : Char} (h : c.isDigit = true) : 48 ≤ c.toNat ∧ c.toNat ≤ 57 := by
  simpa [Char.isDigit, UInt32.le_iff_toNat_le] using h

/-- Digits are not blank. -/
theorem isBlank_of_isDigit {c : Char} (h : c.isDigit = true) : isBlank c = false := by
  have hrange := toNat_of_isDigit h
  simp only [isBlank, Bool.or_eq_false_iff, Bool.and_eq_false_iff, decide_eq_false_iff_not]
  omega

def trimLeft (cs : List Char) : List Char := cs.dropWhile isBlank

def trimRight (cs : List Char) : List Char := (cs.reverse.dropWhile isBlank).reverse

/-- Without the blank characters at both ends. -/
def trim (cs : List Char) : List Char := trimRight (trimLeft cs)

@[simp] theorem trim_nil : trim [] = [] := rfl

/-- Whether nothing is left after trimming. -/
def allBlank (cs : List Char) : Bool := cs.all isBlank

theorem trimLeft_eq_nil_iff (cs : List Char) : trimLeft cs = [] ↔ allBlank cs = true := by
  induction cs with
  | nil => simp [trimLeft, allBlank]
  | cons c cs ih =>
    simp only [trimLeft, allBlank, List.dropWhile_cons, List.all_cons, Bool.and_eq_true] at ih ⊢
    by_cases h : isBlank c <;> simp [h, ih]

end Interchange.Text
