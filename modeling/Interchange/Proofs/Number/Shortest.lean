import Interchange.Number.Shortest

/-!
# Digits of shortest decimals

The decimal that is written for a number has digits other than zeros, unless the number is a zero:
the interval of decimals that read back to a number that is no zero does not reach down to zero.
-/

namespace Interchange

/-- Moving zeros into the exponent leaves digits that are no zeros. -/
theorem Decimal.digits_strip_ne_zero {d : Decimal} (h : d.digits ≠ 0) (fuel : Nat) :
    (strip fuel d).digits ≠ 0 := by
  induction fuel generalizing d with
  | zero => exact h
  | succ fuel ih =>
    unfold strip
    split
    · next htens =>
      apply ih
      show d.digits / 10 ≠ 0
      omega
    · exact h

namespace Binary64

variable {x : Binary64}

theorem significand_ne_zero (hx : x.isZero = false) : x.significand ≠ 0 := by
  have hmagnitude : x.magnitude ≠ 0 := by simpa [isZero] using hx
  have hsplit : leadingBit * x.exponent + x.fraction = x.magnitude := Nat.div_add_mod _ _
  unfold significand
  split
  · next hexponent =>
    rw [hexponent] at hsplit
    omega
  · have hleading : 0 < leadingBit := by decide
    omega

namespace Interval

variable {i : Interval}

theorem rescale_low_pos (h : 0 < i.low) (exponent : Int) : 0 < (i.rescale exponent).low := by
  unfold rescale
  split
  · exact h
  · exact Nat.mul_pos h (Nat.pow_pos (by decide))

theorem holds_zero (h : 0 < i.low) : i.holds 0 = false := by
  simp [holds, Nat.not_le.mpr h]

theorem ne_zero_of_neighbour? {n : Nat} (h : 0 < i.low) (hn : i.neighbour? = some n) : n ≠ 0 := by
  have hholds {c : Nat} (hc : i.holds c = true) : c ≠ 0 := by
    rintro rfl
    cases hc.symm.trans (holds_zero h)
  unfold neighbour? at hn
  dsimp only at hn
  split at hn
  · cases hn
  · next hc _ =>
    cases hn
    exact hholds hc
  · cases hn
    exact Nat.succ_ne_zero _
  · next hc _ =>
    have hne := hholds hc
    split at hn
    · cases hn
      exact hne
    · split at hn
      · cases hn
        exact Nat.succ_ne_zero _
      · cases hn
        intro hzero
        exact hne (Nat.eq_zero_of_add_eq_zero_right hzero)

end Interval

theorem interval_low_pos (hx : x.isZero = false) : 0 < x.interval.low := by
  have hm : x.significand ≠ 0 := significand_ne_zero hx
  refine Nat.mul_pos ?_ (Nat.pow_pos (by decide))
  split <;> omega

/-- The digits of a number that is no zero are no zeros. -/
theorem digits_shortest_ne_zero (hx : x.isZero = false) : x.shortest.digits ≠ 0 := by
  unfold shortest
  rw [if_neg (by simp [hx])]
  dsimp only
  cases hfound : (List.range 17).findSome? _ with
  | none =>
    -- the power is not to be computed
    generalize (1074 : Nat) = k
    exact Nat.mul_ne_zero (Nat.mul_ne_zero (significand_ne_zero hx)
      (Nat.ne_of_gt (Nat.pow_pos (by decide)))) (Nat.ne_of_gt (Nat.pow_pos (by decide)))
  | some d =>
    obtain ⟨n, -, hn⟩ := List.exists_of_findSome?_eq_some hfound
    obtain ⟨digits, hdigits, rfl⟩ := Option.map_eq_some_iff.mp hn
    exact Decimal.digits_strip_ne_zero (Interval.ne_zero_of_neighbour?
      (Interval.rescale_low_pos (interval_low_pos hx) _) hdigits) 17

end Binary64

end Interchange
