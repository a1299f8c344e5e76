import FareGate.Proofs.Time.Stamp

/-! # Local time

  A clock can be ahead of universal time or behind it, by less than a day:

  * **Offsets** (`Offset`): hours and minutes with a sign, or `Z` for a clock of
    universal time.
  * **Local time** (`Stamp.atOffset`): the clock is moved by its offset. Where
    this takes it past midnight, the date is the next one, and where it takes it
    back before midnight, the one before.
  * A stamp of local time stands for the same instant as that of universal time,
    and it is the only one at this offset that does. -/

namespace FareGate

/-! ## Offsets -/

/-- How far a clock is **off** universal time, as it is written. -/
inductive Offset where
  /-- Not at all, by the letter. -/
  | universal
  | ahead (hours : Fin 24) (minutes : Fin 60)
  | behind (hours : Fin 24) (minutes : Fin 60)

namespace Offset

/-- The minutes by which the clock is ahead. -/
def inMinutes : Offset → Int
  | universal => 0
  | ahead hours minutes => ↑(hours.val * 60 + minutes.val)
  | behind hours minutes => -↑(hours.val * 60 + minutes.val)

/-- The offset as it is written, and as `Stamp.readOffset?` reads it. -/
def spelling : Offset → List Char
  | universal => ['Z']
  | ahead hours minutes => '+' :: (Decimal.padded 2 hours ++ ':' :: Decimal.padded 2 minutes)
  | behind hours minutes => '-' :: (Decimal.padded 2 hours ++ ':' :: Decimal.padded 2 minutes)

theorem inMinutes_bounds (z : Offset) : -1440 < z.inMinutes ∧ z.inMinutes < 1440 := by
  cases z with
  | universal => decide
  | ahead hours minutes =>
    simp only [inMinutes]
    omega
  | behind hours minutes =>
    simp only [inMinutes]
    omega

end Offset

/-! ## Clocks at an offset -/

def minutesPerDay : Nat := 1440

namespace Stamp

/-- What a clock at this offset shows when a clock of universal time shows `s`. -/
def atOffset (s : Stamp) (z : Offset) : Stamp :=
  let minutes := ↑(s.hour * 60 + s.minute) + z.inMinutes
  let inDay := (minutes % minutesPerDay).toNat
  { date :=
      if minutes < 0 then s.date.previous
      else if minutes < minutesPerDay then s.date
      else s.date.next
    hour := inDay / 60
    minute := inDay % 60
    second := s.second
    nanosecond := s.nanosecond
    offset := z.inMinutes }

section clock
variable {s s' : Stamp}

theorem IsValid.atOffset (hs : s.IsValid) (z : Offset) : (s.atOffset z).IsValid := by
  obtain ⟨hdate, -, -, hsecond, hnanosecond⟩ := hs
  refine ⟨?_, ?_, ?_, hsecond, hnanosecond⟩
  · simp only [Stamp.atOffset]
    split
    · exact hdate.previous
    · split
      · exact hdate
      · exact hdate.next
  · simp only [Stamp.atOffset, minutesPerDay]
    omega
  · simp only [Stamp.atOffset]
    omega

/-- The date moves by as many days as the minutes carry. -/
theorem IsValid.dayNumber_atOffset (hs : s.IsValid) (z : Offset) :
    (s.atOffset z).date.dayNumber =
      s.date.dayNumber + (↑(s.hour * 60 + s.minute) + z.inMinutes) / minutesPerDay := by
  have hbounds := z.inMinutes_bounds
  obtain ⟨hdate, hhour, hminute, -, -⟩ := hs
  by_cases hback : ↑(s.hour * 60 + s.minute) + z.inMinutes < 0
  · -- into the day before
    have hmoved : (s.atOffset z).date = s.date.previous := if_pos hback
    rw [hmoved, hdate.dayNumber_previous, minutesPerDay]
    omega
  by_cases hsame : ↑(s.hour * 60 + s.minute) + z.inMinutes < minutesPerDay
  · have hmoved : (s.atOffset z).date = s.date := (if_neg hback).trans (if_pos hsame)
    rw [hmoved]
    rw [minutesPerDay] at hsame ⊢
    omega
  · -- into the next day
    have hmoved : (s.atOffset z).date = s.date.next := (if_neg hback).trans (if_neg hsame)
    rw [hmoved, hdate.dayNumber_next]
    rw [minutesPerDay] at hsame ⊢
    omega

/-- A clock at an offset shows the same instant. -/
theorem IsValid.instant_atOffset (hs : s.IsValid) (hoffset : s.offset = 0) (z : Offset) :
    (s.atOffset z).instant = s.instant := by
  unfold instant
  rw [hs.dayNumber_atOffset z, hoffset]
  simp only [Stamp.atOffset, secondsPerDay, minutesPerDay]
  congr 1
  omega

/-- At one offset, an instant is shown in one way only. -/
theorem IsValid.eq_of_instant_eq (hs : s.IsValid) (hs' : s'.IsValid)
    (hoffset : s.offset = s'.offset) (h : s.instant = s'.instant) : s = s' := by
  obtain ⟨hdate, hhour, hminute, hsecond, hnanosecond⟩ := hs
  obtain ⟨hdate', hhour', hminute', hsecond', hnanosecond'⟩ := hs'
  have hseconds := congrArg Instant.seconds h
  have hsubseconds := congrArg Instant.subsecond h
  unfold instant at hseconds hsubseconds
  rw [Instant.seconds_ofParts _ hnanosecond, Instant.seconds_ofParts _ hnanosecond', hoffset,
    secondsPerDay] at hseconds
  rw [Instant.subsecond_ofParts _ hnanosecond, Instant.subsecond_ofParts _ hnanosecond']
    at hsubseconds
  -- a day has more seconds than any time of day counts
  have hday : s.date.dayNumber = s'.date.dayNumber := by omega
  have hsame : s.date = s'.date := hdate.eq_of_dayNumber_eq hdate' hday
  have htime : s.hour = s'.hour ∧ s.minute = s'.minute ∧ s.second = s'.second := by omega
  obtain ⟨hhours, hminutes, hends⟩ := htime
  cases s
  cases s'
  rw [mk.injEq]
  exact ⟨hsame, hhours, hminutes, hends, hsubseconds, hoffset⟩

end clock

end Stamp

end FareGate
