import Interchange.Time.Timestamp

/-!
# Spans and their parts

Which seconds and nanoseconds make a span, and which are written for one.  The seconds are looked at
by themselves before the nanoseconds are added, so nanoseconds of the other sign do not bring
seconds back that are out of range.

The parts of a span are its whole seconds, cut toward zero, and what these leave.  Neither has
another sign than the span, and 64 bits hold both of them.
-/

namespace Interchange.Span

variable {total seconds nanos : Int} {s : Span}

/-! ## Spans of parts -/

theorem ofTotal?_eq_some_iff : ofTotal? total = some s ↔ s.total = total := by
  constructor
  · intro h
    unfold ofTotal? at h
    split at h
    · cases h
      rfl
    · cases h
  · rintro rfl
    exact ofTotal?_total s

/-- Sixty-three bits of milliseconds hold the nanoseconds of whole seconds just if the seconds are
as many thousands of milliseconds at most. -/
theorem natAbs_whole_le_iff : ((seconds * 1000000000).natAbs : Int) ≤
    Int64.maxValue.toInt * 1000000 ↔ (seconds.natAbs : Int) ≤ Int64.maxValue.toInt / 1000 := by
  have hmax : Int64.maxValue.toInt = 9223372036854775807 := rfl
  omega

theorem natAbs_total_le (s : Span) : (s.total.natAbs : Int) ≤ Int64.maxValue.toInt * 1000000 :=
  Int.ofNat_le.mpr s.inRange

theorem exists_total_iff :
    (∃ s : Span, s.total = total) ↔ (total.natAbs : Int) ≤ Int64.maxValue.toInt * 1000000 := by
  constructor
  · rintro ⟨s, rfl⟩
    exact s.natAbs_total_le
  · intro h
    exact ⟨⟨total, Int.ofNat_le.mp h⟩, rfl⟩

/-- Parts make a span if the seconds by themselves do, and then it is their sum. -/
theorem ofParts?_eq_some_iff : ofParts? seconds nanos = some s ↔
    (seconds.natAbs : Int) ≤ Int64.maxValue.toInt / 1000 ∧
      s.total = seconds * 1000000000 + nanos := by
  rw [← natAbs_whole_le_iff, ← exists_total_iff]
  constructor
  · intro h
    obtain ⟨whole, hwhole, hsum⟩ := Option.bind_eq_some_iff.mp h
    have hwhole := ofTotal?_eq_some_iff.mp hwhole
    have hsum := ofTotal?_eq_some_iff.mp hsum
    exact ⟨⟨whole, hwhole⟩, by rw [hsum, hwhole]⟩
  · rintro ⟨⟨whole, hwhole⟩, hsum⟩
    refine Option.bind_eq_some_iff.mpr ⟨whole, ofTotal?_eq_some_iff.mpr hwhole, ?_⟩
    exact ofTotal?_eq_some_iff.mpr (by rw [hsum, hwhole])

/-! ## Parts of a span -/

/-- Seconds and nanoseconds are those of a length that is cut toward zero: they add up to it, less
than a second is left over, and neither has the other's opposite sign. -/
structure IsCut (total seconds nanos : Int) : Prop where
  sum : seconds * 1000000000 + nanos = total
  natAbs_nanos_lt : nanos.natAbs < 1000000000
  sameSign : 0 ≤ seconds ∧ 0 ≤ nanos ∨ seconds ≤ 0 ∧ nanos ≤ 0

/-- There is one way only to cut a length. -/
theorem IsCut.unique {seconds' nanos' : Int} (h : IsCut total seconds nanos)
    (h' : IsCut total seconds' nanos') : seconds = seconds' ∧ nanos = nanos' := by
  obtain ⟨hsum, hlt, hsign⟩ := h
  obtain ⟨hsum', hlt', hsign'⟩ := h'
  omega

theorem isCut_parts (s : Span) : IsCut s.total s.seconds s.nanos where
  sum := s.seconds_add_nanos
  natAbs_nanos_lt := s.natAbs_nanos_lt
  sameSign := by
    rcases Int.le_total 0 s.total with h | h
    · exact .inl ⟨Int.tdiv_nonneg h (by decide), Int.tmod_nonneg _ h⟩
    · have hneg : 0 ≤ -s.total := Int.neg_nonneg_of_nonpos h
      have hseconds := Int.tdiv_nonneg hneg (show 0 ≤ (1000000000 : Int) by decide)
      have hnanos := Int.tmod_nonneg 1000000000 hneg
      rw [Int.neg_tdiv] at hseconds
      rw [Int.neg_tmod] at hnanos
      exact .inr ⟨Int.nonpos_of_neg_nonneg hseconds, Int.nonpos_of_neg_nonneg hnanos⟩

/-- Sixty-four bits hold the whole seconds of a span. -/
theorem toInt_seconds (s : Span) : (Int64.ofInt s.seconds).toInt = s.seconds := by
  have hle := s.natAbs_seconds_le
  exact Int64.toInt_ofInt_of_le (by omega) (by omega)

theorem toInt_nanos (s : Span) : (Int64.ofInt s.nanos).toInt = s.nanos := by
  have hlt := s.natAbs_nanos_lt
  exact Int64.toInt_ofInt_of_le (by omega) (by omega)

/-- Seconds and nanoseconds of 64 bits make a span exactly if the seconds are in range by themselves
and the sum is, and then the span is the sum.  The parts that are written for a span are those of
its length cut toward zero, the only ones there are, and they make that span again. -/
theorem total_ofParts? :
    (∀ seconds nanos : Int64, (ofParts? seconds.toInt nanos.toInt).map Span.total =
      if (seconds.toInt.natAbs : Int) ≤ Int64.maxValue.toInt / 1000 ∧
          ((seconds.toInt * 1000000000 + nanos.toInt).natAbs : Int) ≤
            Int64.maxValue.toInt * 1000000 then
        some (seconds.toInt * 1000000000 + nanos.toInt)
      else none) ∧
    ∀ s : Span, (∀ seconds nanos : Int, IsCut s.total seconds nanos ↔
        seconds = (Int64.ofInt s.seconds).toInt ∧ nanos = (Int64.ofInt s.nanos).toInt) ∧
      ofParts? (Int64.ofInt s.seconds).toInt (Int64.ofInt s.nanos).toInt = some s := by
  constructor
  · intro seconds nanos
    split
    · next h =>
      obtain ⟨s, hs⟩ := exists_total_iff.mpr h.2
      rw [ofParts?_eq_some_iff.mpr ⟨h.1, hs⟩, Option.map_some, hs]
    · next hnot =>
      rw [Option.map_eq_none_iff, Option.eq_none_iff_forall_ne_some]
      intro s hs
      obtain ⟨hseconds, hsum⟩ := ofParts?_eq_some_iff.mp hs
      exact hnot ⟨hseconds, hsum ▸ s.natAbs_total_le⟩
  · intro s
    rw [s.toInt_seconds, s.toInt_nanos]
    refine ⟨fun seconds nanos ↦ ⟨fun h ↦ h.unique s.isCut_parts, ?_⟩, s.ofParts?_parts⟩
    rintro ⟨rfl, rfl⟩
    exact s.isCut_parts

/-- A second beyond the longest span is refused, although the nanoseconds would take it back. -/
example : ofParts? 9223372036854776 (-1000000000) = none := by decide

/-- The least span, whose parts are both negative. -/
example : (ofParts? (-9223372036854775) (-807000000)).map Span.total =
    some (-9223372036854775807000000) := by decide

end Interchange.Span
