/-! # Calendar dates

  Dates of the Gregorian calendar, continued into the past and the future, and
  the days counted from the start of 1970.

  A year is taken to begin in March, so that a leap day is the last day of its
  year. Then 400 years have 146097 days, and within them a century has 36524, a
  group of four years has 1461 and a year has 365; only the last century, group
  or year of a run can be one day longer or shorter. The months from March on
  begin on the days given by `(153 * month + 2) / 5`. -/

namespace FareGate

/-- A date of the Gregorian calendar. -/
structure Date where
  /-- The year; the year before year one is zero. -/
  year : Int
  /-- The month, from one to twelve. -/
  month : Nat
  /-- The day of the month, from one. -/
  day : Nat
deriving DecidableEq

namespace Date

def IsLeapYear (year : Int) : Prop := year % 4 = 0 ∧ (year % 100 ≠ 0 ∨ year % 400 = 0)

instance : DecidablePred IsLeapYear := fun _ => inferInstanceAs (Decidable (_ ∧ _))

def daysInMonth (year : Int) (month : Nat) : Nat :=
  if month = 2 then if IsLeapYear year then 29 else 28
  else if month = 4 ∨ month = 6 ∨ month = 9 ∨ month = 11 then 30
  else 31

def IsValid (d : Date) : Prop :=
  (1 ≤ d.month ∧ d.month ≤ 12) ∧ 1 ≤ d.day ∧ d.day ≤ daysInMonth d.year d.month

instance (d : Date) : Decidable d.IsValid := inferInstanceAs (Decidable (_ ∧ _))

/-! ## Counting days -/

/-- The days from March of year zero to March of this year. -/
def daysBeforeYear (year : Int) : Int := 365 * year + year / 4 - year / 100 + year / 400

/-- The days from the start of March to the start of the month that comes so
    many months later. -/
def daysBeforeMonth (month : Nat) : Nat := (153 * month + 2) / 5

/-- The days from March of year zero to the start of 1970. -/
def epochDay : Int := 719468

/-- The day's number, counted from the start of 1970. -/
def dayNumber (d : Date) : Int :=
  if d.month ≤ 2 then
    daysBeforeYear (d.year - 1) + daysBeforeMonth (d.month + 9) + d.day - 1 - epochDay
  else
    daysBeforeYear d.year + daysBeforeMonth (d.month - 3) + d.day - 1 - epochDay

/-- The year beginning in March that a day falls in, and the days since its
    start, for a day counted from March of year zero. -/
def yearAndDay (n : Int) : Int × Nat :=
  let inEra := (n % 146097).toNat
  let century := min 3 (inEra / 36524)
  let inCentury := inEra - 36524 * century
  let group := inCentury / 1461
  let inGroup := inCentury % 1461
  let year := min 3 (inGroup / 365)
  (400 * (n / 146097) + ↑(100 * century + 4 * group + year), inGroup - 365 * year)

/-- The date of a day, counted from the start of 1970. -/
def ofDayNumber (n : Int) : Date :=
  let (year, dayOfYear) := yearAndDay (n + epochDay)
  let month := (5 * dayOfYear + 2) / 153
  let day := dayOfYear - daysBeforeMonth month + 1
  if month < 10 then ⟨year, month + 3, day⟩ else ⟨year + 1, month - 9, day⟩

/-! ## The count is right -/

/-- The days before a year, by era, century, group of four years and year. -/
theorem daysBeforeYear_cycles (era : Int) {century group year : Nat}
    (hc : century ≤ 3) (hg : group ≤ 24) (hy : year ≤ 3) :
    daysBeforeYear (400 * era + ↑(100 * century + 4 * group + year)) =
      146097 * era + 36524 * century + 1461 * group + 365 * year := by
  simp only [daysBeforeYear]
  have hfour : (400 * era + ↑(100 * century + 4 * group + year)) / 4
      = 100 * era + 25 * century + group := by omega
  have hhundred : (400 * era + ↑(100 * century + 4 * group + year)) / 100
      = 4 * era + century := by omega
  have hcycle : (400 * era + ↑(100 * century + 4 * group + year)) / 400 = era := by omega
  rw [hfour, hhundred, hcycle]
  omega

theorem daysBeforeYear_yearAndDay (n : Int) :
    daysBeforeYear (yearAndDay n).1 + (yearAndDay n).2 = n := by
  simp only [yearAndDay]
  -- whole eras, and the days within one
  have hsplit : n = 146097 * (n / 146097) + ↑(n % 146097).toNat := by omega
  have hshort : (n % 146097).toNat < 146097 := by omega
  generalize n / 146097 = era, (n % 146097).toNat = inEra at *
  rw [daysBeforeYear_cycles era (by omega) (by omega) (by omega)]
  omega

theorem yearAndDay_lt (n : Int) : (yearAndDay n).2 ≤ 365 := by
  simp only [yearAndDay]
  omega

/-- Only a year whose February is the one of a leap year has a 366th day. -/
theorem isLeapYear_of_yearAndDay (n : Int) (hlong : (yearAndDay n).2 = 365) :
    IsLeapYear ((yearAndDay n).1 + 1) := by
  simp only [yearAndDay] at hlong
  simp only [yearAndDay, IsLeapYear]
  have hshort : (n % 146097).toNat < 146097 := by omega
  generalize n / 146097 = era at *
  generalize (n % 146097).toNat = inEra at *
  generalize hcentury : min 3 (inEra / 36524) = c at *
  generalize hgroup : (inEra - 36524 * c) / 1461 = g at *
  -- the last day of a long year closes its group, and either closes the era or
  -- does not close its century
  have hlast : min 3 ((inEra - 36524 * c) % 1461 / 365) = 3 := by omega
  rw [hlast]
  omega

theorem isValid_ofDayNumber (n : Int) : (ofDayNumber n).IsValid := by
  have hshort := yearAndDay_lt (n + epochDay)
  have hleap := isLeapYear_of_yearAndDay (n + epochDay)
  simp only [ofDayNumber]
  generalize yearAndDay (n + epochDay) = p at *
  obtain ⟨year, dayOfYear⟩ := p
  simp only [daysBeforeMonth] at *
  split
  · -- March to December
    simp only [IsValid, daysInMonth]
    refine ⟨by omega, by omega, ?_⟩
    have hmonth : ¬(5 * dayOfYear + 2) / 153 + 3 = 2 := by omega
    simp only [hmonth, if_false]
    split <;> omega
  · -- January and February
    simp only [IsValid, daysInMonth]
    refine ⟨by omega, by omega, ?_⟩
    split
    · split
      · omega
      · rename_i hcommon
        have hday : dayOfYear ≠ 365 := fun hlong => hcommon (hleap hlong)
        omega
    · split <;> omega

@[simp] theorem dayNumber_ofDayNumber (n : Int) : (ofDayNumber n).dayNumber = n := by
  have hyear := daysBeforeYear_yearAndDay (n + epochDay)
  have hshort := yearAndDay_lt (n + epochDay)
  simp only [ofDayNumber]
  generalize yearAndDay (n + epochDay) = p at *
  obtain ⟨year, dayOfYear⟩ := p
  simp only [daysBeforeMonth] at *
  split
  · -- March to December
    simp only [dayNumber, daysBeforeMonth]
    split
    · omega
    · omega
  · -- January and February, which belong to the year before
    simp only [dayNumber, daysBeforeMonth, Int.add_sub_cancel]
    split
    · omega
    · omega

end Date

end FareGate
