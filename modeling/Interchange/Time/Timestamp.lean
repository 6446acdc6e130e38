/-!
# Timestamps and spans

A timestamp is a UTC time in seconds since the start of 1970, with nanoseconds.  A leap second is
written as the second before it with a thousand million or more nanoseconds.  Any second may be
followed by one, but only those after the last second of a minute are regular, and a timestamp is
made of its parts only if it is.  A span is a signed number of nanoseconds, bounded by what 63 bits
of milliseconds hold.
-/

namespace Interchange

/-- A UTC time. -/
structure Timestamp where
  seconds : Int
  nanos : Nat
  /-- Years from -262143 to 262142. -/
  inRange : -8334601228800 ≤ seconds ∧ seconds ≤ 8210266876799
  /-- A second and the leap second after it, if there is one. -/
  nanos_lt : nanos < 2000000000
deriving DecidableEq, Repr

namespace Timestamp

/-- Whether a timestamp is in no leap second, or in one after the last second of a minute. -/
def Regular (t : Timestamp) : Prop := t.nanos < 1000000000 ∨ t.seconds % 60 = 59

instance (t : Timestamp) : Decidable t.Regular :=
  inferInstanceAs (Decidable (t.nanos < 1000000000 ∨ t.seconds % 60 = 59))

/-- The time with these parts, if there is one.  Only the last second of a minute may have a leap
second after it. -/
def ofParts? (seconds : Int) (nanos : Nat) : Option Timestamp :=
  if h : (-8334601228800 ≤ seconds ∧ seconds ≤ 8210266876799) ∧
      (nanos < 1000000000 ∨ nanos < 2000000000 ∧ seconds % 60 = 59) then
    some ⟨seconds, nanos, h.1, by omega⟩
  else none

/-- A regular timestamp is made of its own parts, and no other one is. -/
theorem ofParts?_parts (t : Timestamp) :
    ofParts? t.seconds t.nanos = if t.Regular then some t else none := by
  by_cases h : t.Regular
  · rw [if_pos h]
    exact dif_pos ⟨t.inRange, h.imp_right (And.intro t.nanos_lt)⟩
  · rw [if_neg h]
    exact dif_neg fun hparts ↦ h (hparts.2.imp_right And.right)

/-- What is made of parts is regular. -/
theorem regular_of_ofParts? {seconds : Int} {nanos : Nat} {t : Timestamp}
    (h : ofParts? seconds nanos = some t) : t.Regular := by
  unfold ofParts? at h
  split at h
  · next hparts =>
    cases h
    exact hparts.2.imp_right And.right
  · cases h

end Timestamp

/-- A signed length of time. -/
structure Span where
  /-- The length in nanoseconds. -/
  total : Int
  inRange : total.natAbs ≤ 9223372036854775807000000
deriving DecidableEq, Repr

namespace Span

/-- Whole seconds, cut toward zero. -/
def seconds (s : Span) : Int := s.total.tdiv 1000000000

/-- What the whole seconds leave, with the sign of the span. -/
def nanos (s : Span) : Int := s.total.tmod 1000000000

/-- The span of so many nanoseconds, if they are in range. -/
def ofTotal? (total : Int) : Option Span :=
  if h : total.natAbs ≤ 9223372036854775807000000 then some ⟨total, h⟩ else none

/-- The span of so many seconds and nanoseconds.  The whole seconds have to be a span by
themselves, and so does what the nanoseconds make of it. -/
def ofParts? (seconds nanos : Int) : Option Span := do
  let whole ← ofTotal? (seconds * 1000000000)
  ofTotal? (whole.total + nanos)

/-- A span is made of its own nanoseconds. -/
@[simp] theorem ofTotal?_total (s : Span) : ofTotal? s.total = some s := dif_pos s.inRange

/-- Seconds and nanoseconds add up to the span. -/
theorem seconds_add_nanos (s : Span) : s.seconds * 1000000000 + s.nanos = s.total := by
  have := Int.mul_tdiv_add_tmod s.total 1000000000
  simp only [seconds, nanos]
  omega

theorem natAbs_seconds_le (s : Span) : s.seconds.natAbs ≤ 9223372036854775 := by
  have hs : s.seconds.natAbs = s.total.natAbs / 1000000000 := Int.natAbs_tdiv _ _
  have := s.inRange
  omega

theorem natAbs_nanos_lt (s : Span) : s.nanos.natAbs < 1000000000 := by
  have hs : s.nanos.natAbs = s.total.natAbs % 1000000000 := Int.natAbs_tmod _ _
  omega

/-- A span is made of its whole seconds and what they leave, whatever its sign. -/
@[simp] theorem ofParts?_parts (s : Span) : ofParts? s.seconds s.nanos = some s := by
  have hseconds := s.natAbs_seconds_le
  have hwhole : (s.seconds * 1000000000).natAbs ≤ 9223372036854775807000000 := by omega
  have hof : ofTotal? (s.seconds * 1000000000) = some ⟨s.seconds * 1000000000, hwhole⟩ :=
    dif_pos hwhole
  simp only [ofParts?, hof, Option.bind_eq_bind, Option.bind_some, s.seconds_add_nanos,
    ofTotal?_total]

end Span

end Interchange
