import Interchange.Proofs.Time.Calendar
import Interchange.Proofs.Time.Regular
import Interchange.Time.Rfc3339
import Mathlib.Data.Option.Basic

/-!
# Times read back

A timestamp is read back from its text, whatever its year and also in a leap second that ends its
minute.  One in another leap second is written as the second that comes next, and that is what is
read.  Each part of the text is read as what it was written for, and ends where a character stands
that is no digit.
-/

namespace Interchange.Rfc3339

/-! ## Digits -/

variable {c : Char} {ds cs : List Char}

theorem guard_of {p : Prop} [Decidable p] (h : p) : (guard p : Option Unit) = some () := if_pos h

theorem some_bind {α β : Type} (a : α) (f : α → Option β) : (some a >>= f) = f a := rfl

theorem trimLeft_of_not_isBlank (h : Text.isBlank c = false) (cs : List Char) :
    Text.trimLeft (c :: cs) = c :: cs := List.dropWhile_cons_of_neg (by simp [h])

/-- Digits end where a character stands that is none, if there may be so many of them. -/
theorem digits?_append (hne : ds ≠ []) (hds : ∀ d ∈ ds, d.isDigit = true) {most : Nat}
    (hlength : ds.length ≤ most) (hc : c.isDigit = false) (cs : List Char) :
    digits? most (ds ++ c :: cs) = some (valueOf ds, c :: cs) := by
  have hrest : ((c :: cs).take (most - ds.length)).takeWhile Char.isDigit = [] := by
    cases most - ds.length with
    | zero => rfl
    | succ n => rw [List.take_succ_cons, List.takeWhile_cons_of_neg (by simp [hc])]
  have htake : ((ds ++ c :: cs).take most).takeWhile Char.isDigit = ds := by
    rw [List.take_append, List.take_of_length_le hlength, List.takeWhile_append_of_pos hds, hrest,
      List.append_nil]
  unfold digits?
  simp only [htake, List.drop_left, List.isEmpty_iff, if_neg hne]

theorem isDigit_padded (width n : Nat) : ∀ d ∈ padded width n, d.isDigit = true := by
  intro d hd
  rcases List.mem_append.mp hd with hd | hd
  · rw [List.eq_of_mem_replicate hd]
    rfl
  · exact Nat.isDigit_of_mem_toDigits (by decide) (by decide) hd

theorem padded_ne_nil (width n : Nat) : padded width n ≠ [] :=
  List.append_ne_nil_of_right_ne_nil _ Nat.toDigits_ne_nil

/-- Zeros in front do not count. -/
theorem valueOf_padded (width n : Nat) : valueOf (padded width n) = n := by
  show Nat.ofDigitChars 10 (padded width n) 0 = n
  rw [padded, Nat.ofDigitChars_append, Nat.ofDigitChars_replicate_zero]
  simp

/-- What fits the width has the width. -/
theorem length_padded {width n : Nat} (hpos : 0 < width) (hlt : n < Nat.pow 10 width) :
    (padded width n).length = width := by
  have hle := (Nat.length_toDigits_le_iff (by decide) hpos).mpr hlt
  rw [padded, List.length_append, List.length_replicate]
  omega

variable {width n most : Nat}

theorem digits?_padded (hlength : (padded width n).length ≤ most) (hc : c.isDigit = false)
    (cs : List Char) : digits? most (padded width n ++ c :: cs) = some (n, c :: cs) := by
  rw [digits?_append (padded_ne_nil width n) (isDigit_padded width n) hlength hc, valueOf_padded]

/-- Digits do not start with white space or a sign. -/
theorem exists_padded_append (width n : Nat) (cs : List Char) :
    ∃ d ds, padded width n ++ cs = d :: ds ∧ d.isDigit = true := by
  obtain ⟨d, ds, hds⟩ := List.exists_cons_of_ne_nil (padded_ne_nil width n)
  refine ⟨d, ds ++ cs, by rw [hds, List.cons_append], isDigit_padded width n d ?_⟩
  rw [hds]
  exact List.mem_cons_self

theorem trimLeft_padded (width n : Nat) (cs : List Char) :
    Text.trimLeft (padded width n ++ cs) = padded width n ++ cs := by
  obtain ⟨d, ds, heq, hd⟩ := exists_padded_append width n cs
  rw [heq, trimLeft_of_not_isBlank (Text.isBlank_of_isDigit hd)]

/-! ## The parts of a time -/

/-- A number in its range and width is read back. -/
theorem number?_padded {low high : Nat} (hlow : low ≤ n) (hhigh : n ≤ high)
    (hwidth : high < 100) (hc : c.isDigit = false) (cs : List Char) :
    number? 2 low high (padded 2 n ++ c :: cs) = some (n, c :: cs) := by
  have hlength : (padded 2 n).length = 2 :=
    length_padded (by decide) (Nat.lt_of_le_of_lt hhigh hwidth)
  unfold number?
  rw [trimLeft_padded, digits?_padded (Nat.le_of_eq hlength) hc, some_bind]
  show (guard (low ≤ n ∧ n ≤ high) >>= _) = _
  rw [guard_of ⟨hlow, hhigh⟩]
  rfl

theorem separator?_cons (h : Text.isBlank c = false) (cs : List Char) :
    separator? c (c :: cs) = some cs := by
  simp [separator?, trimLeft_of_not_isBlank h]

/-- A year without a sign. -/
theorem year?_of_isDigit {d : Char} (hd : d.isDigit = true) (ds : List Char) :
    year? (d :: ds) = (digits? 4 (d :: ds)).map fun p ↦ ((p.1 : Int), p.2) := by
  unfold year?
  rw [trimLeft_of_not_isBlank (Text.isBlank_of_isDigit hd)]
  split
  · next heq => cases heq; exact absurd hd (by decide)
  · next heq => cases heq; exact absurd hd (by decide)
  · rfl

theorem year?_minus (cs : List Char) : year? ('-' :: cs) =
    (digits? cs.length cs).map fun p ↦ (-(p.1 : Int), p.2) := rfl

theorem year?_plus (cs : List Char) : year? ('+' :: cs) =
    (digits? cs.length cs).map fun p ↦ ((p.1 : Int), p.2) := rfl

/-- A year is read back: in four digits, or with a sign in as many as it has. -/
theorem year?_writeYear (year : Int) (hc : c.isDigit = false) (cs : List Char) :
    year? (writeYear year ++ c :: cs) = some (year, c :: cs) := by
  unfold writeYear
  split
  · next hyear =>
    have hlt : year.toNat < 10000 := by omega
    have hlength : (padded 4 year.toNat).length = 4 := length_padded (by decide) hlt
    have hdigits := digits?_padded (Nat.le_of_eq hlength) hc cs
    obtain ⟨d, ds, heq, hd⟩ := exists_padded_append 4 year.toNat (c :: cs)
    rw [heq] at hdigits ⊢
    rw [year?_of_isDigit hd, hdigits]
    show some ((year.toNat : Int), c :: cs) = _
    rw [Int.toNat_of_nonneg hyear.1]
  · have hdigits : digits? (padded 4 year.natAbs ++ c :: cs).length
        (padded 4 year.natAbs ++ c :: cs) = some (year.natAbs, c :: cs) :=
      digits?_padded (by rw [List.length_append]; exact Nat.le_add_right _ _) hc cs
    split
    · next hneg =>
      rw [List.cons_append, year?_minus, hdigits]
      show some (-(year.natAbs : Int), c :: cs) = _
      rw [Int.ofNat_natAbs_of_nonpos (Int.le_of_lt hneg), Int.neg_neg]
    · next hnonneg =>
      rw [List.cons_append, year?_plus, hdigits]
      show some ((year.natAbs : Int), c :: cs) = _
      rw [Int.natAbs_of_nonneg (Int.not_lt.mp hnonneg)]

/-- A fraction of as many digits as its unit leaves, in nanoseconds. -/
theorem fraction?_padded {width n : Nat} (hpos : 0 < width) (hle : width ≤ 9)
    (hlt : n < Nat.pow 10 width) (hc : c.isDigit = false) (cs : List Char) :
    fraction? ('.' :: padded width n ++ c :: cs) = some (n * Nat.pow 10 (9 - width), c :: cs) := by
  have hlength := length_padded hpos hlt
  have hdigits : digits? 9 (padded width n ++ c :: cs) = some (n, c :: cs) :=
    digits?_padded (by omega) hc cs
  show (digits? 9 (padded width n ++ c :: cs)).bind _ = _
  rw [hdigits, Option.bind_some]
  simp [hlength, hc]

/-- A fraction is read back, with none written for zero. -/
theorem fraction?_writeFraction {nanos : Nat} (hlt : nanos < 1000000000) :
    fraction? (writeFraction nanos ++ ['Z']) = some (nanos, ['Z']) := by
  unfold writeFraction
  split
  · next hzero =>
    rw [hzero]
    rfl
  · split
    · next hmilli =>
      have hlt' : nanos / 1000000 < 1000 := by omega
      have hvalue : nanos / 1000000 * 1000000 = nanos :=
        Nat.div_mul_cancel (Nat.dvd_of_mod_eq_zero hmilli)
      rw [fraction?_padded (by decide) (by decide) hlt' rfl]
      exact congrArg (fun n ↦ some (n, ['Z'])) hvalue
    · split
      · next hmicro =>
        have hlt' : nanos / 1000 < 1000000 := by omega
        have hvalue : nanos / 1000 * 1000 = nanos :=
          Nat.div_mul_cancel (Nat.dvd_of_mod_eq_zero hmicro)
        rw [fraction?_padded (by decide) (by decide) hlt' rfl]
        exact congrArg (fun n ↦ some (n, ['Z'])) hvalue
      · rw [fraction?_padded (by decide) (by decide) hlt rfl]
        exact congrArg (fun n ↦ some (n, ['Z'])) (Nat.mul_one nanos)

/-- The digits of the seconds end where their fraction starts, or the zone. -/
theorem exists_writeFraction_append (nanos : Nat) :
    ∃ c cs, writeFraction nanos ++ ['Z'] = c :: cs ∧ c.isDigit = false := by
  unfold writeFraction
  split
  · exact ⟨'Z', [], rfl, rfl⟩
  · split
    · exact ⟨'.', _, rfl, rfl⟩
    · split <;> exact ⟨'.', _, rfl, rfl⟩

/-! ## Timestamps -/

/-- The parts of a settled timestamp in those of its text.  A leap second shows as second 60 if it
ends its minute, and otherwise as the second that comes next. -/
theorem settled_parts {t : Timestamp} {second extra leap : Nat}
    (hsecond : t.seconds % 86400 = second) (hextra : extra = t.nanos / 1000000000)
    (hleap : leap = if second % 60 + extra = 60 then 1 else 0) :
    t.seconds / 86400 * 86400 + (second / 3600 : Nat) * 3600 + (second / 60 % 60 : Nat) * 60 +
      (second % 60 + extra - leap : Nat) = t.settled.seconds ∧
    t.nanos % 1000000000 + leap * 1000000000 = t.settled.nanos := by
  have hnanos := t.nanos_lt
  by_cases hregular : t.Regular
  · rw [Timestamp.settled_of_regular hregular]
    unfold Timestamp.Regular at hregular
    have hsixty : leap = extra := by
      rw [hleap]
      split <;> omega
    omega
  · rw [Timestamp.seconds_settled hregular, Timestamp.nanos_settled hregular]
    unfold Timestamp.Regular at hregular
    have hsixty : leap = 0 := by
      rw [hleap, if_neg]
      omega
    omega

/-- From the text of a timestamp the settled one is read. -/
theorem read?_write (t : Timestamp) : read? (write t) = some t.settled := by
  have hnanos := t.nanos_lt
  have hvalid := Date.valid_ofDays (t.seconds / 86400)
  have hdays := Date.toDays_ofDays (t.seconds / 86400)
  obtain ⟨second, hsecond⟩ := Int.eq_ofNat_of_zero_le (Int.emod_nonneg t.seconds
    (show (86400 : Int) ≠ 0 by decide))
  have hextra : (if 1000000000 ≤ t.nanos then 1 else 0) = t.nanos / 1000000000 := by
    split <;> omega
  obtain ⟨c, cs, hfraction, hc⟩ := exists_writeFraction_append (t.nanos % 1000000000)
  unfold read? write
  simp only [hsecond, hextra, Int.toNat_natCast, List.append_assoc, List.cons_append,
    List.nil_append]
  obtain ⟨hsettled, hsettled'⟩ := settled_parts hsecond rfl rfl
  generalize Date.ofDays (t.seconds / 86400) = date at *
  obtain ⟨hmonth, hmonth', hday, -⟩ := id hvalid
  -- the date
  rw [year?_writeYear date.year rfl, some_bind, separator?_cons rfl, some_bind,
    number?_padded hmonth hmonth' (by decide) rfl, some_bind, separator?_cons rfl, some_bind,
    number?_padded hday hvalid.day_le (by decide) rfl, some_bind]
  -- the time of the day
  show (some _ >>= _) = _
  rw [some_bind, number?_padded (Nat.zero_le _) (by omega) (by decide) rfl, some_bind,
    separator?_cons rfl, some_bind,
    number?_padded (Nat.zero_le _) (by omega) (by decide) rfl, some_bind,
    separator?_cons rfl, some_bind, hfraction,
    number?_padded (Nat.zero_le _) (by omega) (by decide) hc, some_bind, ← hfraction,
    fraction?_writeFraction (Nat.mod_lt _ (by decide)), some_bind]
  have hzone : zone? ['Z'] = some (0, []) := by decide
  have hblank : Text.trimLeft [] = [] := rfl
  rw [hzone, some_bind, guard_of hblank, some_bind, guard_of ⟨hvalid, by decide⟩, some_bind]
  dsimp only
  rw [hdays, hsettled, hsettled', guard_of t.settled.inRange, some_bind, Int.sub_zero,
    Timestamp.ofParts?_parts, if_pos t.regular_settled]

end Interchange.Rfc3339
