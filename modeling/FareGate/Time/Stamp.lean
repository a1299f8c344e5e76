import FareGate.Text.Decimal
import FareGate.Time.Date
import FareGate.Time.Instant

/-! # Time stamps

  A time stamp is an instant as people write it: a date, the time of day and
  how far the clock is ahead of universal time, as in
  `2024-02-29T23:59:59.25+01:00`.

  * **Reading** takes any offset, written as `Z` or as hours and minutes, and
    one to nine digits of a second's fraction, if there is a point.
  * **Writing** uses universal time and three, six or nine digits of a
    fraction, as few as are exact, or none.

  Two stamps with different offsets may stand for one instant. -/

namespace FareGate

/-- A date, a time of day, and the offset of the clock that shows them. -/
structure Stamp where
  date : Date
  /-- The hour, from zero to 23. -/
  hour : Nat
  /-- The minute, from zero to 59. -/
  minute : Nat
  /-- The second, from zero to 59. -/
  second : Nat
  /-- The nanoseconds since that second. -/
  nanosecond : Nat
  /-- The minutes by which the clock is ahead of universal time. -/
  offset : Int
deriving DecidableEq

def secondsPerDay : Nat := 86400

namespace Stamp

/-- Whether the calendar and the clock can show this. -/
def IsValid (s : Stamp) : Prop :=
  s.date.IsValid ∧ s.hour ≤ 23 ∧ s.minute ≤ 59 ∧ s.second ≤ 59 ∧ s.nanosecond < nanosPerSecond

instance (s : Stamp) : Decidable s.IsValid := inferInstanceAs (Decidable (_ ∧ _))

/-- The instant that a stamp stands for. -/
def instant (s : Stamp) : Instant :=
  .ofParts
    (s.date.dayNumber * secondsPerDay + ↑(s.hour * 3600 + s.minute * 60 + s.second)
      - s.offset * 60)
    s.nanosecond

/-- The stamp of an instant in universal time. -/
def ofInstant (t : Instant) : Stamp :=
  let inDay := (t.seconds % secondsPerDay).toNat
  { date := .ofDayNumber (t.seconds / secondsPerDay)
    hour := inDay / 3600
    minute := inDay / 60 % 60
    second := inDay % 60
    nanosecond := t.subsecond
    offset := 0 }

@[simp] theorem instant_ofInstant (t : Instant) : (ofInstant t).instant = t := by
  -- the time of day adds up to the seconds since midnight
  refine Eq.trans ?_ (Instant.ofParts_parts t)
  simp only [instant, ofInstant, Date.dayNumber_ofDayNumber, secondsPerDay]
  congr 1
  omega

/-! ## Writing -/

/-- A year: four digits where they are enough, else a sign and all digits, at
    least four. -/
def writeYear (year : Int) : List Char :=
  if 0 ≤ year ∧ year ≤ 9999 then
    Decimal.padded 4 year.toNat
  else
    let ds := Decimal.digits year.natAbs
    (if year < 0 then '-' else '+') :: (List.replicate (4 - ds.length) '0' ++ ds)

/-- The fraction of a second with its point, as short as three, six or nine
    digits allow; nothing for a full second. -/
def writeFraction (nanosecond : Nat) : List Char :=
  if nanosecond = 0 then []
  else if nanosecond % 1000000 = 0 then '.' :: Decimal.padded 3 (nanosecond / 1000000)
  else if nanosecond % 1000 = 0 then '.' :: Decimal.padded 6 (nanosecond / 1000)
  else '.' :: Decimal.padded 9 nanosecond

/-- The date and the time of day, up to the second. -/
def writeClock (s : Stamp) : List Char :=
  writeYear s.date.year
    ++ '-' :: Decimal.padded 2 s.date.month
    ++ '-' :: Decimal.padded 2 s.date.day
    ++ 'T' :: Decimal.padded 2 s.hour
    ++ ':' :: Decimal.padded 2 s.minute
    ++ ':' :: Decimal.padded 2 s.second

def writeUniversal (s : Stamp) : List Char :=
  s.writeClock ++ writeFraction s.nanosecond ++ ['Z']

/-! ## Reading -/

def skip? (c : Char) : List Char → Option (List Char)
  | d :: rest => if d = c then some rest else none
  | [] => none

/-- Reads a fraction of a second in nanoseconds; without a point it is zero.
    Zeros make up for the digits that are missing from nine. -/
def readFraction? : List Char → Option (Nat × List Char)
  | '.' :: cs =>
    let ds := cs.takeWhile Char.isDigit
    if 1 ≤ ds.length ∧ ds.length ≤ 9 then
      some (Decimal.value (ds ++ List.replicate (9 - ds.length) '0'),
        cs.dropWhile Char.isDigit)
    else
      none
  | cs => some (0, cs)

/-- Reads hours and minutes, up to the end of the text, as minutes. -/
def readMinutes? (cs : List Char) : Option Nat := do
  let (hours, cs) ← Decimal.read 2 cs
  let cs ← skip? ':' cs
  let (minutes, cs) ← Decimal.read 2 cs
  if hours ≤ 23 ∧ minutes ≤ 59 ∧ cs = [] then some (hours * 60 + minutes) else none

/-- Reads an offset in minutes, up to the end of the text. -/
def readOffset? : List Char → Option Int
  | ['Z'] => some 0
  | '+' :: cs => (readMinutes? cs).map fun ahead => ↑ahead
  | '-' :: cs => (readMinutes? cs).map fun behind => -↑behind
  | _ => none

/-- Reads a stamp that `IsValid`, in a year of four digits. -/
def read? (cs : List Char) : Option Stamp := do
  let (year, cs) ← Decimal.read 4 cs
  let cs ← skip? '-' cs
  let (month, cs) ← Decimal.read 2 cs
  let cs ← skip? '-' cs
  let (day, cs) ← Decimal.read 2 cs
  let cs ← skip? 'T' cs
  let (hour, cs) ← Decimal.read 2 cs
  let cs ← skip? ':' cs
  let (minute, cs) ← Decimal.read 2 cs
  let cs ← skip? ':' cs
  let (second, cs) ← Decimal.read 2 cs
  let (nanosecond, cs) ← readFraction? cs
  let offset ← readOffset? cs
  let stamp : Stamp := { date := ⟨year, month, day⟩, hour, minute, second, nanosecond, offset }
  if stamp.IsValid then some stamp else none

end Stamp

namespace Instant

def write (t : Instant) : String := String.ofList (Stamp.ofInstant t).writeUniversal

def read? (text : String) : Option Instant := (Stamp.read? text.toList).map Stamp.instant

end Instant

end FareGate
