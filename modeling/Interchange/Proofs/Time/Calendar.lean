import Interchange.Time.Calendar

/-!
# Days and dates

Every day has a date, which the calendar has, and dates count back to their days.  The year of a day
within its era is found by a quotient that is right at the first and at the last day of each of the
400 years, and so at the days between them.
-/

namespace Interchange.Date

/-! ## Years -/

/-- Days before a year, from the start of year zero on.  Years start in March here, so that a leap
day is the last day of the year before its own. -/
def yearStart (year : Int) : Int := 365 * year + year / 4 - year / 100 + year / 400

/-- All eras have the same number of days. -/
theorem yearStart_add_era (year era : Int) :
    yearStart (year + era * 400) = yearStart year + era * eraDays := by
  unfold yearStart eraDays
  omega

/-- A year has a day more if it ends with a leap day. -/
theorem yearStart_succ (year : Int) :
    yearStart (year + 1) = yearStart year + if isLeap (year + 1) then 366 else 365 := by
  unfold yearStart isLeap
  by_cases hleap : (year + 1) % 4 = 0 ∧ ((year + 1) % 100 ≠ 0 ∨ (year + 1) % 400 = 0)
  · rw [if_pos (by simpa using hleap)]
    omega
  · rw [if_neg (by simpa using hleap)]
    omega

/-- The year of an era that has a day of the era. -/
def yearOf (day : Int) : Int := (day - day / 1460 + day / 36524 - day / 146096) / 365

/-- Later days are not in earlier years. -/
theorem yearOf_mono {a b : Int} (hnonneg : 0 ≤ a) (hle : a ≤ b) (hlt : b < eraDays) :
    yearOf a ≤ yearOf b := by
  have hfour : a - a / 1460 ≤ b - b / 1460 := by omega
  have hcentury : a / 36524 ≤ b / 36524 := Int.ediv_le_ediv (by decide) hle
  apply Int.ediv_le_ediv (by decide)
  unfold eraDays at hlt
  -- the last day of the era is the only one that its quotient moves
  by_cases hlast : b < 146096
  · have ha : a / 146096 = 0 := Int.ediv_eq_zero_of_lt hnonneg (Int.lt_of_le_of_lt hle hlast)
    have hb : b / 146096 = 0 :=
      Int.ediv_eq_zero_of_lt (Int.le_trans hnonneg hle) hlast
    omega
  · obtain rfl : b = 146096 := by omega
    by_cases heq : a = 146096
    · subst heq
      exact Int.le_refl _
    · have ha : a / 146096 = 0 := Int.ediv_eq_zero_of_lt hnonneg (by omega)
      omega

/-- The first and the last day of a year are in the year. -/
theorem yearOf_ends : ∀ year : Fin 400,
    yearOf (yearStart year) = year ∧ yearOf (yearStart (year + 1) - 1) = year := by
  decide +kernel

/-- A day before the start of a year is between the starts of two years in a row. -/
theorem exists_yearStart_le {day : Int} (hnonneg : 0 ≤ day) {n : Nat} (h : day < yearStart n) :
    ∃ year < n, yearStart year ≤ day ∧ day < yearStart (year + 1) := by
  induction n with
  | zero =>
    have hzero : yearStart (0 : Nat) = 0 := rfl
    omega
  | succ n ih =>
    by_cases hearlier : day < yearStart n
    · obtain ⟨year, hlt, hyear⟩ := ih hearlier
      exact ⟨year, Nat.lt_succ_of_lt hlt, hyear⟩
    · exact ⟨n, Nat.lt_succ_self n, Int.not_lt.mp hearlier, h⟩

/-- A day of an era is in one of its years, not before the start of the year and before the start
of the next. -/
theorem yearOf_spec {day : Int} (hnonneg : 0 ≤ day) (hlt : day < eraDays) :
    0 ≤ yearOf day ∧ yearOf day < 400 ∧
      yearStart (yearOf day) ≤ day ∧ day < yearStart (yearOf day + 1) := by
  have hwhole : yearStart (400 : Nat) = eraDays := by decide
  obtain ⟨year, hyear, hstart, hnext⟩ := exists_yearStart_le hnonneg (hwhole ▸ hlt)
  obtain ⟨hfirst, hlast⟩ := yearOf_ends ⟨year, hyear⟩
  have hpos : 0 ≤ yearStart year := by
    unfold yearStart
    omega
  have hend : yearStart (year + 1) ≤ eraDays := by
    unfold yearStart eraDays
    omega
  have heq : yearOf day = year := by
    apply Int.le_antisymm
    · calc yearOf day ≤ yearOf (yearStart (year + 1) - 1) :=
            yearOf_mono hnonneg (Int.le_sub_one_of_lt hnext) (by omega)
        _ = year := hlast
    · calc (year : Int) = yearOf (yearStart year) := hfirst.symm
        _ ≤ yearOf day := yearOf_mono hpos hstart hlt
  rw [heq]
  exact ⟨Int.natCast_nonneg year, by omega, hstart, hnext⟩

/-! ## Days of a year -/

/-- The date of a day of a year that starts in March. -/
def ofYearDay (year day : Int) : Date :=
  let month := (5 * day + 2) / 153
  let dayOfMonth := (day - (153 * month + 2) / 5 + 1).toNat
  if month < 10 then ⟨year, (month + 3).toNat, dayOfMonth⟩
  else ⟨year + 1, (month - 9).toNat, dayOfMonth⟩

/-- The months of a year are counted from March; the last two are those of the calendar's next
year. -/
theorem exists_ofYearDay_eq (year : Int) {day : Int} (hnonneg : 0 ≤ day) (hle : day ≤ 365) :
    ∃ month dayOfMonth : Nat, (5 * day + 2) / 153 = month ∧
      day = (153 * month + 2) / 5 + dayOfMonth ∧
      ofYearDay year day = if month < 10 then ⟨year, month + 3, dayOfMonth + 1⟩
        else ⟨year + 1, month - 9, dayOfMonth + 1⟩ := by
  obtain ⟨month, hmonth⟩ := Int.eq_ofNat_of_zero_le (show 0 ≤ (5 * day + 2) / 153 by omega)
  obtain ⟨dayOfMonth, hday⟩ :=
    Int.eq_ofNat_of_zero_le (show 0 ≤ day - (153 * (month : Int) + 2) / 5 by omega)
  refine ⟨month, dayOfMonth, hmonth, by omega, ?_⟩
  unfold ofYearDay
  simp only [hmonth, hday]
  split
  · rw [if_pos (by omega)]
    rfl
  · rw [if_neg (by omega)]
    congr 1
    omega

/-- The date of a day of a year counts back to the day. -/
theorem toDays_ofYearDay (year : Int) {day : Int} (hnonneg : 0 ≤ day) (hle : day ≤ 365) :
    (ofYearDay year day).toDays = yearStart year + day - epochDays := by
  obtain ⟨month, dayOfMonth, hmonth, hday, heq⟩ := exists_ofYearDay_eq year hnonneg hle
  rw [heq]
  split
  · next hlt =>
    have hmarch : ((month + 3 : Nat) + 9 : Int) % 12 = month := by omega
    simp only [toDays, yearStart, eraDays, hmarch, if_neg (show ¬month + 3 ≤ 2 by omega)]
    omega
  · next hge =>
    have hmarch : ((month - 9 : Nat) + 9 : Int) % 12 = month := by omega
    simp only [toDays, yearStart, eraDays, hmarch, if_pos (show month - 9 ≤ 2 by omega)]
    omega

/-- The days of a year have dates that the calendar has, the 366th if a leap day ends the year. -/
theorem valid_ofYearDay {year day : Int} (hnonneg : 0 ≤ day)
    (hlt : day < if isLeap (year + 1) then 366 else 365) : (ofYearDay year day).Valid := by
  have hle : day ≤ 365 := by
    split at hlt <;> omega
  obtain ⟨month, dayOfMonth, hmonth, hday, heq⟩ := exists_ofYearDay_eq year hnonneg hle
  rw [heq]
  split
  · next hlt =>
    refine ⟨Nat.le_add_left 1 (month + 2), Nat.add_le_add_right (Nat.le_of_lt_succ hlt) 3,
      Nat.le_add_left 1 dayOfMonth, ?_⟩
    show dayOfMonth + 1 ≤ daysInMonth year (month + 3)
    unfold daysInMonth
    split <;> omega
  · next hge =>
    refine ⟨?_, ?_, Nat.le_add_left 1 dayOfMonth, ?_⟩
    · show 1 ≤ month - 9
      omega
    · show month - 9 ≤ 12
      omega
    · show dayOfMonth + 1 ≤ daysInMonth (year + 1) (month - 9)
      obtain hjanuary | hfebruary : month = 10 ∨ month = 11 := by omega
      · rw [hjanuary]
        show dayOfMonth + 1 ≤ 31
        omega
      · rw [hfebruary]
        show dayOfMonth + 1 ≤ if isLeap (year + 1) then 29 else 28
        split at hlt
        · next hleap =>
          rw [if_pos hleap]
          omega
        · next hleap =>
          rw [if_neg hleap]
          omega

/-! ## Days of the calendar -/

/-- The date of a day by its era, its day of the era and the year that has this day. -/
theorem ofDays_eq {days era rest year : Int} (hera : (days + epochDays) / eraDays = era)
    (hrest : (days + epochDays) % eraDays = rest) (hyear : yearOf rest = year) :
    ofDays days =
      ofYearDay (year + era * 400) (rest - (365 * year + year / 4 - year / 100)) := by
  subst hera hrest hyear
  rfl

/-- The date of a day is that of a day of a year. -/
theorem exists_ofDays_eq (days : Int) :
    ∃ year day, 0 ≤ day ∧ (day < if isLeap (year + 1) then 366 else 365) ∧
      days = yearStart year + day - epochDays ∧ ofDays days = ofYearDay year day := by
  have hpos : 0 < eraDays := by decide
  have hsum := Int.mul_ediv_add_emod (days + epochDays) eraDays
  have hnonneg := Int.emod_nonneg (days + epochDays) (Int.ne_of_gt hpos)
  have hlt := Int.emod_lt_of_pos (days + epochDays) hpos
  generalize hera : (days + epochDays) / eraDays = era at *
  generalize hrest : (days + epochDays) % eraDays = rest at *
  obtain ⟨hyear, hyear', hstart, hnext⟩ := yearOf_spec hnonneg hlt
  rw [ofDays_eq hera hrest rfl]
  generalize yearOf rest = year at *
  -- within an era the quotient of 400 adds no day
  have hwithin : yearStart year = 365 * year + year / 4 - year / 100 := by
    unfold yearStart
    omega
  have hshift : year + era * 400 + 1 = year + 1 + era * 400 := by omega
  have hlength := yearStart_succ (year + era * 400)
  rw [hshift, yearStart_add_era, yearStart_add_era] at hlength
  refine ⟨year + era * 400, rest - yearStart year, Int.sub_nonneg_of_le hstart, ?_, ?_, ?_⟩
  · rw [hshift]
    omega
  · rw [yearStart_add_era, Int.mul_comm]
    omega
  · rw [hwithin]

/-- Dates count back to the days they are of. -/
theorem toDays_ofDays (days : Int) : (ofDays days).toDays = days := by
  obtain ⟨year, day, hnonneg, hlt, hdays, heq⟩ := exists_ofDays_eq days
  have hle : day ≤ 365 := by
    split at hlt <;> omega
  rw [heq, toDays_ofYearDay year hnonneg hle, hdays]

/-- The calendar has the date of every day. -/
theorem valid_ofDays (days : Int) : (ofDays days).Valid := by
  obtain ⟨year, day, hnonneg, hlt, -, heq⟩ := exists_ofDays_eq days
  rw [heq]
  exact valid_ofYearDay hnonneg hlt

/-- No month has more than 31 days. -/
theorem Valid.day_le {d : Date} (h : d.Valid) : d.day ≤ 31 := by
  have hmonth : daysInMonth d.year d.month ≤ 31 := by
    unfold daysInMonth
    split
    · split <;> decide
    · decide
    · decide
    · decide
    · decide
    · decide
  exact Nat.le_trans h.2.2.2 hmonth

end Interchange.Date
