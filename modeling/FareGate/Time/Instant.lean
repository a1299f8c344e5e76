/-! # Instants and spans

  Time is counted in nanoseconds from the start of 1970 in universal time,
  without leap seconds.

  * **Instant**: a point in time; before 1970 the count is negative.
  * **Span**: a length of time, never negative.

  Both are shown as whole seconds and the nanoseconds left over, which count
  upwards from the second below. -/

namespace FareGate

def nanosPerSecond : Nat := 1000000000

structure Instant where
  /-- Nanoseconds since the start of 1970. -/
  nanoseconds : Int
deriving DecidableEq

namespace Instant

def epoch : Instant := ⟨0⟩

/-- The instant this many seconds and nanoseconds after the start of 1970. -/
def ofParts (seconds : Int) (subsecond : Nat) : Instant :=
  ⟨seconds * nanosPerSecond + subsecond⟩

/-- The whole second at or before the instant. -/
def seconds (t : Instant) : Int := t.nanoseconds / nanosPerSecond

/-- The nanoseconds since that second. -/
def subsecond (t : Instant) : Nat := (t.nanoseconds % nanosPerSecond).toNat

theorem subsecond_lt (t : Instant) : t.subsecond < nanosPerSecond := by
  simp only [subsecond, nanosPerSecond]
  omega

@[simp] theorem ofParts_parts (t : Instant) : ofParts t.seconds t.subsecond = t := by
  cases t
  simp only [ofParts, seconds, subsecond, nanosPerSecond, mk.injEq]
  omega

theorem seconds_ofParts (s : Int) {n : Nat} (h : n < nanosPerSecond) :
    (ofParts s n).seconds = s := by
  simp only [ofParts, seconds, nanosPerSecond] at *
  omega

theorem subsecond_ofParts (s : Int) {n : Nat} (h : n < nanosPerSecond) :
    (ofParts s n).subsecond = n := by
  simp only [ofParts, subsecond, nanosPerSecond] at *
  omega

end Instant

structure Span where
  /-- The length in nanoseconds. -/
  nanoseconds : Nat
deriving DecidableEq

namespace Span

def seconds (d : Span) : Nat := d.nanoseconds / nanosPerSecond

def subsecond (d : Span) : Nat := d.nanoseconds % nanosPerSecond

end Span

/-- The time from `earlier` to `later`, unless `later` comes first. -/
def Instant.since? (later earlier : Instant) : Option Span :=
  if earlier.nanoseconds ≤ later.nanoseconds then
    some ⟨(later.nanoseconds - earlier.nanoseconds).toNat⟩
  else
    none

end FareGate
