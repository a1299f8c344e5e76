import FareGate.Proofs.Time.Calendar
import FareGate.Time.Stamp

/-! # Time stamps are read back

  * **In the calendar** (`Instant.InCalendar`): the instants of the years 1 to
    9999 in universal time, which have four digits for the year.
  * **Fractions** (`FractionOf`): one to nine digits after a point, or nothing
    for a full second. What is written is one of those for its nanoseconds.
  * **Clock, fraction, offset**: each part of a stamp is read up to where the
    next one starts, whatever that is.
  * What is written for an instant in the calendar is read as that instant, to
    the nanosecond. -/

namespace FareGate

/-! ## Instants in the calendar -/

namespace Instant

/-- The year that an instant falls in, in universal time. -/
def year (t : Instant) : Int := (Stamp.ofInstant t).date.year

/-- **In the calendar**: the instants of the years 1 to 9999. -/
def InCalendar (t : Instant) : Prop := 1 ≤ t.year ∧ t.year ≤ 9999

instance (t : Instant) : Decidable t.InCalendar := inferInstanceAs (Decidable (_ ∧ _))

end Instant

/-! ## Fractions of a second -/

namespace Decimal

theorem value_append_zeros (cs : List Char) (k : Nat) :
    value (cs ++ List.replicate k '0') = value cs * bound k := by
  induction k with
  | zero => simp [bound]
  | succ k ih =>
    have hzero : digitValue '0' = 0 := rfl
    rw [List.replicate_succ', ← List.append_assoc, value_append_digit, ih, hzero, bound]
    rw [Nat.add_zero, Nat.mul_left_comm]

theorem bound_add (width more : Nat) : bound (width + more) = bound width * bound more := by
  induction more with
  | zero => simp [bound]
  | succ more ih =>
    rw [← Nat.add_assoc, bound, ih, bound]
    rw [Nat.mul_left_comm]

theorem bound_pos (width : Nat) : 0 < bound width := by
  induction width with
  | zero => decide
  | succ width ih =>
    rw [bound]
    omega

end Decimal

namespace Stamp

/-- **Fractions** that stand for so many nanoseconds. -/
inductive FractionOf (nanoseconds : Nat) : List Char → Prop where
  /-- A full second can do without. -/
  | none (hzero : nanoseconds = 0) : FractionOf nanoseconds []
  /-- One to nine digits after a point. Their value is to the nanoseconds as the
      number that their places can count is to a whole second. -/
  | digits {ds : List Char} (hdigits : ∀ c ∈ ds, c.isDigit)
      (hlength : 1 ≤ ds.length ∧ ds.length ≤ 9)
      (hvalue : Decimal.value ds * nanosPerSecond = nanoseconds * Decimal.bound ds.length) :
      FractionOf nanoseconds ('.' :: ds)

section fraction
variable {n : Nat} {fraction rest : List Char}

/-- The zeros missing from nine digits make nanoseconds of a value. -/
theorem mul_bound_eq_iff {value width : Nat} (hwidth : width ≤ 9) :
    value * Decimal.bound (9 - width) = n ↔
      value * nanosPerSecond = n * Decimal.bound width := by
  have hnine : nanosPerSecond = Decimal.bound (9 - width) * Decimal.bound width := by
    rw [← Decimal.bound_add, Nat.sub_add_cancel hwidth]
    rfl
  rw [hnine, ← Nat.mul_assoc]
  exact (Nat.mul_left_inj (Nat.ne_of_gt (Decimal.bound_pos width))).symm

/-- After a point, `readFraction?` takes up to nine digits, and counts those
    missing from nine as zeros. -/
theorem readFraction?_point {ds : List Char} (hdigits : ∀ c ∈ ds, c.isDigit)
    (hlength : 1 ≤ ds.length ∧ ds.length ≤ 9) (hrest : ∀ c ∈ rest.head?, c.isDigit = false) :
    readFraction? ('.' :: (ds ++ rest)) =
      some (Decimal.value ds * Decimal.bound (9 - ds.length), rest) := by
  have hstop : rest.takeWhile Char.isDigit = [] ∧ rest.dropWhile Char.isDigit = rest := by
    cases rest with
    | nil => exact ⟨rfl, rfl⟩
    | cons c more =>
      have hc : c.isDigit = false := hrest c rfl
      simp [hc]
  have htaken : (ds ++ rest).takeWhile Char.isDigit = ds := by
    rw [List.takeWhile_append_of_pos hdigits, hstop.1, List.append_nil]
  have hleft : (ds ++ rest).dropWhile Char.isDigit = rest := by
    rw [List.dropWhile_append_of_pos hdigits, hstop.2]
  simp only [readFraction?, htaken, hleft]
  rw [if_pos hlength, Decimal.value_append_zeros]

/-- A fraction is read up to what follows it, if this is no digit and no
    point. -/
theorem FractionOf.readFraction? (h : FractionOf n fraction)
    (hrest : ∀ c ∈ rest.head?, c.isDigit = false ∧ c ≠ '.') :
    readFraction? (fraction ++ rest) = some (n, rest) := by
  cases h with
  | none hzero =>
    subst hzero
    cases rest with
    | nil => rfl
    | cons c more =>
      have hc : c ≠ '.' := (hrest c rfl).2
      simp [Stamp.readFraction?, hc]
  | digits hdigits hlength hvalue =>
    rw [List.cons_append, readFraction?_point hdigits hlength fun c hc => (hrest c hc).1,
      (mul_bound_eq_iff hlength.2).mpr hvalue]

theorem fractionOf_padded {width : Nat} (hwidth : 1 ≤ width ∧ width ≤ 9)
    (hfits : n < Decimal.bound width) :
    FractionOf (n * Decimal.bound (9 - width)) ('.' :: Decimal.padded width n) := by
  apply FractionOf.digits
  · exact List.all_eq_true.mp (Decimal.all_padded width n)
  · rwa [Decimal.length_padded]
  · rw [Decimal.length_padded, Decimal.value_padded hfits]
    exact (mul_bound_eq_iff hwidth.2).mp rfl

/-- What `writeFraction` writes is a fraction. -/
theorem fractionOf_writeFraction (hn : n < nanosPerSecond) : FractionOf n (writeFraction n) := by
  simp only [nanosPerSecond] at hn
  unfold writeFraction
  by_cases hfull : n = 0
  · rw [if_pos hfull]
    exact .none hfull
  rw [if_neg hfull]
  by_cases hmillis : n % 1000000 = 0
  · have hfits : n / 1000000 < Decimal.bound 3 := by
      show n / 1000000 < 1000
      omega
    have hvalue : n / 1000000 * Decimal.bound 6 = n := by
      show n / 1000000 * 1000000 = n
      omega
    have hfraction := fractionOf_padded (by decide) hfits
    rw [hvalue] at hfraction
    rwa [if_pos hmillis]
  rw [if_neg hmillis]
  by_cases hmicros : n % 1000 = 0
  · have hfits : n / 1000 < Decimal.bound 6 := by
      show n / 1000 < 1000000
      omega
    have hvalue : n / 1000 * Decimal.bound 3 = n := by
      show n / 1000 * 1000 = n
      omega
    have hfraction := fractionOf_padded (by decide) hfits
    rw [hvalue] at hfraction
    rwa [if_pos hmicros]
  · have hfits : n < Decimal.bound 9 := hn
    have hvalue : n * Decimal.bound 0 = n := Nat.mul_one n
    have hfraction := fractionOf_padded (by decide) hfits
    rw [hvalue] at hfraction
    rwa [if_neg hmicros]

end fraction

/-! ## Whole stamps -/

theorem isValid_ofInstant (t : Instant) : (ofInstant t).IsValid := by
  refine ⟨Date.isValid_ofDayNumber _, ?_, ?_, ?_, t.subsecond_lt⟩
  · simp only [ofInstant, secondsPerDay]
    omega
  · simp only [ofInstant]
    omega
  · simp only [ofInstant]
    omega

/-- The date and the time of day are read as `writeClock` writes them, if what
    follows is read as the fraction and the offset of the stamp. -/
theorem read?_writeClock {s : Stamp} (hs : s.IsValid)
    (hyear : 0 ≤ s.date.year ∧ s.date.year ≤ 9999) {rest zone : List Char}
    (hfraction : readFraction? rest = some (s.nanosecond, zone))
    (hoffset : readOffset? zone = some s.offset) : read? (s.writeClock ++ rest) = some s := by
  have hvalid := hs
  obtain ⟨⟨hmonth, hday⟩, hhour, hminute, hsecond, -⟩ := hs
  have hdays := Date.daysInMonth_bounds s.date.year s.date.month
  -- every part fits the digits that it is written with
  have hfour : s.date.year.toNat < Decimal.bound 4 := by
    show _ < 10000
    omega
  have htwo : ∀ n < 100, n < Decimal.bound 2 := fun n hn => hn
  have hyearNat : (s.date.year.toNat : Int) = s.date.year := Int.toNat_of_nonneg hyear.1
  unfold read? writeClock
  simp only [writeYear, if_pos hyear, List.append_assoc, List.cons_append,
    Decimal.read_padded hfour, Decimal.read_padded (htwo s.date.month (by omega)),
    Decimal.read_padded (htwo s.date.day (by omega)), Decimal.read_padded (htwo s.hour (by omega)),
    Decimal.read_padded (htwo s.minute (by omega)), Decimal.read_padded (htwo s.second (by omega)),
    skip?, if_true, hfraction, hoffset, hyearNat, Option.bind_eq_bind, Option.bind_some]
  exact if_pos hvalid

theorem read?_writeUniversal {s : Stamp} (hs : s.IsValid)
    (hyear : 0 ≤ s.date.year ∧ s.date.year ≤ 9999) (hoffset : s.offset = 0) :
    read? s.writeUniversal = some s := by
  have hfraction : readFraction? (writeFraction s.nanosecond ++ ['Z']) =
      some (s.nanosecond, ['Z']) := by
    apply (fractionOf_writeFraction hs.2.2.2.2).readFraction?
    intro c hc
    cases hc
    decide
  rw [writeUniversal, List.append_assoc]
  exact read?_writeClock hs hyear hfraction (by rw [hoffset]; rfl)

end Stamp

/-- What is written for an instant in the calendar is read as that instant. -/
theorem Instant.read?_write {t : Instant} (ht : t.InCalendar) : read? t.write = some t := by
  have hyear : 0 ≤ (Stamp.ofInstant t).date.year ∧ (Stamp.ofInstant t).date.year ≤ 9999 :=
    ⟨Int.le_trans (by decide) ht.1, ht.2⟩
  rw [read?, write, String.toList_ofList,
    Stamp.read?_writeUniversal (Stamp.isValid_ofInstant t) hyear rfl, Option.map_some,
    Stamp.instant_ofInstant]

end FareGate
