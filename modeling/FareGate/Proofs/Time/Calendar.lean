import FareGate.Time.Date

/-! # The calendar from day to day

  The number of a day is found by a formula in which years begin in March. Here
  it is tied to the calendar as it hangs on the wall, with years that begin in
  January and months of 28 to 31 days:

  * **Firsts**: a month begins as many days after the month before as that
    month has.
  * **Next and previous** day (`next`, `previous`): the date that follows has
    the next number, and the date before has the number before. Both cross the
    ends of months and years.
  * **One number, one date**: a later date of the calendar has a greater number.
    So no two dates share a number. -/

namespace FareGate.Date

/-! ## Firsts of months -/

/-- From March to March there are 366 days if the February among them is that of
    a leap year. -/
theorem daysBeforeYear_eq (year : Int) :
    daysBeforeYear year =
      daysBeforeYear (year - 1) + if IsLeapYear year then 366 else 365 := by
  unfold daysBeforeYear
  by_cases hleap : IsLeapYear year
  · rw [if_pos hleap]
    unfold IsLeapYear at hleap
    omega
  · rw [if_neg hleap]
    unfold IsLeapYear at hleap
    omega

theorem daysBeforeMonth_succ : ∀ month < 11, daysBeforeMonth (month + 1) =
    daysBeforeMonth month + if month = 1 ∨ month = 3 ∨ month = 6 ∨ month = 8 then 30 else 31 := by
  decide

theorem dayNumber_eq (year : Int) (month day : Nat) :
    dayNumber ⟨year, month, day⟩ = dayNumber ⟨year, month, 1⟩ + day - 1 := by
  unfold dayNumber
  by_cases hmonth : month ≤ 2
  · simp only [if_pos hmonth]
    omega
  · simp only [if_neg hmonth]
    omega

/-- A month begins when the month before is over. -/
theorem dayNumber_month_succ (year : Int) (month : Nat) (hmonth : 1 ≤ month ∧ month < 12) :
    dayNumber ⟨year, month + 1, 1⟩ = dayNumber ⟨year, month, 1⟩ + daysInMonth year month := by
  obtain rfl | rfl | hspring : month = 1 ∨ month = 2 ∨ 3 ≤ month := by omega
  · have hjanuary : daysBeforeMonth 11 = daysBeforeMonth 10 + 31 := by decide
    show daysBeforeYear (year - 1) + daysBeforeMonth 11 + 1 - 1 - epochDay =
      daysBeforeYear (year - 1) + daysBeforeMonth 10 + 1 - 1 - epochDay + 31
    omega
  · -- after February the formula goes over to its next year
    have hyear := daysBeforeYear_eq year
    have hend : daysBeforeMonth 11 = 337 := by decide
    have hstart : daysBeforeMonth 0 = 0 := by decide
    show daysBeforeYear year + daysBeforeMonth 0 + 1 - 1 - epochDay =
      daysBeforeYear (year - 1) + daysBeforeMonth 11 + 1 - 1 - epochDay +
        ((if IsLeapYear year then 29 else 28 : Nat) : Int)
    by_cases hleap : IsLeapYear year
    · rw [if_pos hleap] at hyear ⊢
      omega
    · rw [if_neg hleap] at hyear ⊢
      omega
  · have hlength := daysBeforeMonth_succ (month - 3) (by omega)
    have hnext : month + 1 - 3 = month - 3 + 1 := by omega
    unfold dayNumber daysInMonth
    simp only [hnext, hlength, show ¬month + 1 ≤ 2 by omega, show ¬month ≤ 2 by omega,
      show ¬month = 2 by omega, if_false]
    by_cases hshort : month = 4 ∨ month = 6 ∨ month = 9 ∨ month = 11
    · rw [if_pos hshort, if_pos (by omega)]
      omega
    · rw [if_neg hshort, if_neg (by omega)]
      omega

/-- A year begins when December is over. -/
theorem dayNumber_year_succ (year : Int) :
    dayNumber ⟨year + 1, 1, 1⟩ = dayNumber ⟨year, 12, 1⟩ + daysInMonth year 12 := by
  have hdecember : daysBeforeMonth 10 = daysBeforeMonth 9 + 31 := by decide
  show daysBeforeYear (year + 1 - 1) + daysBeforeMonth 10 + 1 - 1 - epochDay =
    daysBeforeYear year + daysBeforeMonth 9 + 1 - 1 - epochDay + 31
  have hyear : year + 1 - 1 = year := by omega
  rw [hyear]
  omega

/-! ## The next day and the day before -/

/-- The day after `d`, which may be the first of a month or of a year. -/
def next (d : Date) : Date :=
  if d.day < daysInMonth d.year d.month then { d with day := d.day + 1 }
  else if d.month < 12 then ⟨d.year, d.month + 1, 1⟩
  else ⟨d.year + 1, 1, 1⟩

/-- The day before `d`, which may be the last of a month or of a year. -/
def previous (d : Date) : Date :=
  if 1 < d.day then { d with day := d.day - 1 }
  else if 1 < d.month then ⟨d.year, d.month - 1, daysInMonth d.year (d.month - 1)⟩
  else ⟨d.year - 1, 12, daysInMonth (d.year - 1) 12⟩

theorem daysInMonth_bounds (year : Int) (month : Nat) :
    28 ≤ daysInMonth year month ∧ daysInMonth year month ≤ 31 := by
  unfold daysInMonth
  split
  · split <;> omega
  · split <;> omega

theorem isValid_mk (year : Int) (month day : Nat) :
    IsValid ⟨year, month, day⟩ ↔
      (1 ≤ month ∧ month ≤ 12) ∧ 1 ≤ day ∧ day ≤ daysInMonth year month :=
  Iff.rfl

section valid
variable {d : Date}

theorem IsValid.next (hd : d.IsValid) : d.next.IsValid := by
  obtain ⟨year, month, day⟩ := d
  rw [isValid_mk] at hd
  simp only [Date.next]
  split
  · rw [isValid_mk]
    omega
  · split
    · have hlength := daysInMonth_bounds year (month + 1)
      rw [isValid_mk]
      omega
    · have hlength := daysInMonth_bounds (year + 1) 1
      rw [isValid_mk]
      omega

theorem IsValid.previous (hd : d.IsValid) : d.previous.IsValid := by
  obtain ⟨year, month, day⟩ := d
  rw [isValid_mk] at hd
  simp only [Date.previous]
  split
  · rw [isValid_mk]
    omega
  · split
    · have hlength := daysInMonth_bounds year (month - 1)
      rw [isValid_mk]
      omega
    · have hlength := daysInMonth_bounds (year - 1) 12
      rw [isValid_mk]
      omega

/-- The `next` day has the next number. -/
theorem IsValid.dayNumber_next (hd : d.IsValid) : d.next.dayNumber = d.dayNumber + 1 := by
  obtain ⟨year, month, day⟩ := d
  rw [isValid_mk] at hd
  rw [dayNumber_eq year month day]
  simp only [Date.next]
  split
  · rw [dayNumber_eq year month (day + 1)]
    omega
  · -- the month is over
    split
    · rw [dayNumber_month_succ year month (by omega)]
      omega
    · obtain rfl : month = 12 := by omega
      rw [dayNumber_year_succ]
      omega

/-- The `previous` day has the number before. -/
theorem IsValid.dayNumber_previous (hd : d.IsValid) : d.previous.dayNumber = d.dayNumber - 1 := by
  obtain ⟨year, month, day⟩ := d
  rw [isValid_mk] at hd
  rw [dayNumber_eq year month day]
  simp only [Date.previous]
  split
  · rw [dayNumber_eq year month (day - 1)]
    omega
  · -- the month has just begun
    split
    · have hfirst := dayNumber_month_succ year (month - 1) (by omega)
      rw [Nat.sub_add_cancel hd.1.1] at hfirst
      rw [dayNumber_eq year (month - 1)]
      omega
    · obtain rfl : month = 1 := by omega
      have hfirst := dayNumber_year_succ (year - 1)
      rw [Int.sub_add_cancel] at hfirst
      rw [dayNumber_eq (year - 1) 12]
      omega

end valid

/-! ## One number, one date -/

/-- A later month of a year begins when an earlier one is over, or after that. -/
theorem dayNumber_month_le (year : Int) {month later : Nat} (hmonth : 1 ≤ month)
    (hlt : month < later) (hlater : later ≤ 12) :
    dayNumber ⟨year, month, 1⟩ + daysInMonth year month ≤ dayNumber ⟨year, later, 1⟩ := by
  induction later with
  | zero => omega
  | succ k ih =>
    by_cases hnext : month = k
    · subst hnext
      exact Int.le_of_eq (dayNumber_month_succ year month (by omega)).symm
    · have hk := ih (by omega) (by omega)
      rw [dayNumber_month_succ year k (by omega)]
      omega

/-- A later year begins when an earlier one is over, or after that. -/
theorem dayNumber_year_le {year later : Int} (hlt : year < later) :
    dayNumber ⟨year + 1, 1, 1⟩ ≤ dayNumber ⟨later, 1, 1⟩ := by
  simp only [dayNumber, daysBeforeYear]
  omega

section valid
variable {d d' : Date}

/-- A date is one of the `daysInMonth` from the first of its month on. -/
theorem IsValid.dayNumber_month (hd : d.IsValid) :
    dayNumber ⟨d.year, d.month, 1⟩ ≤ d.dayNumber ∧
      d.dayNumber < dayNumber ⟨d.year, d.month, 1⟩ + daysInMonth d.year d.month := by
  have hday := hd.2
  have hnumber : d.dayNumber = _ := dayNumber_eq d.year d.month d.day
  omega

theorem IsValid.dayNumber_year (hd : d.IsValid) :
    dayNumber ⟨d.year, 1, 1⟩ ≤ d.dayNumber ∧ d.dayNumber < dayNumber ⟨d.year + 1, 1, 1⟩ := by
  have hmonth := hd.1
  have hday := hd.dayNumber_month
  constructor
  · by_cases hjanuary : d.month = 1
    · rw [hjanuary] at hday
      exact hday.1
    · have hfirst := dayNumber_month_le d.year (Nat.le_refl 1) (by omega : 1 < d.month) hmonth.2
      omega
  · rw [dayNumber_year_succ]
    by_cases hdecember : d.month = 12
    · rw [hdecember] at hday
      exact hday.2
    · have hlast := dayNumber_month_le d.year hmonth.1 (by omega : d.month < 12) (Nat.le_refl 12)
      omega

theorem IsValid.dayNumber_lt_of_year_lt (hd : d.IsValid) (hd' : d'.IsValid)
    (h : d.year < d'.year) : d.dayNumber < d'.dayNumber := by
  have hyears := dayNumber_year_le h
  have hends := hd.dayNumber_year
  have hbegins := hd'.dayNumber_year
  omega

theorem IsValid.dayNumber_lt_of_month_lt (hd : d.IsValid) (hd' : d'.IsValid)
    (hyear : d.year = d'.year) (h : d.month < d'.month) : d.dayNumber < d'.dayNumber := by
  have hmonths := dayNumber_month_le d.year hd.1.1 h hd'.1.2
  have hends := hd.dayNumber_month
  have hbegins := hd'.dayNumber_month
  rw [← hyear] at hbegins
  omega

/-- Two dates of the calendar with one `dayNumber` are the same. -/
theorem IsValid.eq_of_dayNumber_eq (hd : d.IsValid) (hd' : d'.IsValid)
    (h : d.dayNumber = d'.dayNumber) : d = d' := by
  have hyear : d.year = d'.year := by
    rcases Int.lt_trichotomy d.year d'.year with hlt | heq | hgt
    · have := hd.dayNumber_lt_of_year_lt hd' hlt
      omega
    · exact heq
    · have := hd'.dayNumber_lt_of_year_lt hd hgt
      omega
  have hmonth : d.month = d'.month := by
    rcases Nat.lt_trichotomy d.month d'.month with hlt | heq | hgt
    · have := hd.dayNumber_lt_of_month_lt hd' hyear hlt
      omega
    · exact heq
    · have := hd'.dayNumber_lt_of_month_lt hd hyear.symm hgt
      omega
  obtain ⟨year, month, day⟩ := d
  obtain ⟨year', month', day'⟩ := d'
  obtain rfl : year = year' := hyear
  obtain rfl : month = month' := hmonth
  rw [dayNumber_eq year month day, dayNumber_eq year month day'] at h
  rw [mk.injEq]
  omega

end valid

end FareGate.Date
