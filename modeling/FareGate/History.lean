import FareGate.Time.Instant
import FareGate.Transition

/-! # The history of a gate

  Each step a gate completes leaves one record. A gate may run for years, so a
  history can be capped: it then keeps the newest records and drops the oldest
  one for each that comes in above the cap. A cap of zero takes in nothing.

  A history read from elsewhere may hold more records than its cap; the excess
  is dropped when the next record comes in, and not before. -/

namespace FareGate

/-! ## Records -/

/-- A step that was completed, and when. -/
structure Record extends Transition where
  timestamp : Instant
deriving DecidableEq

def Transition.recordAt (t : Transition) (now : Instant) : Record := ⟨t, now⟩

/-! ## Histories -/

/-- Records of completed steps, oldest first. -/
structure History where
  records : Array Record := #[]
  /-- The cap on the number of records, if there is one. -/
  limit : Option UInt64 := none
deriving DecidableEq

namespace History

/-- The cap of a gate that is not given another. -/
def defaultLimit : UInt64 := 64

def uncapped : History := {}

def capped (limit : UInt64) : History := { limit := some limit }

/-- Evicts the oldest record as long as there are `limit` of them or more. -/
def evict (limit : Nat) (records : Array Record) : Array Record :=
  if 0 < records.size ∧ limit ≤ records.size then
    evict limit (records.extract 1)
  else
    records
termination_by records.size

/-- Takes in a record, for which `evict` makes room. A cap of zero turns it away
    at once. -/
def record (r : Record) : History → History
  | ⟨records, none⟩ => ⟨records.push r, none⟩
  | ⟨records, some limit⟩ =>
    if limit = 0 then
      ⟨records, some limit⟩
    else
      ⟨(evict limit.toNat records).push r, some limit⟩

/-- Drops every record and keeps the cap. -/
def clear (h : History) : History := { h with records := #[] }

/-! ## Looking at a history -/

def size (h : History) : Nat := h.records.size

def isEmpty (h : History) : Bool := h.records.isEmpty

def last? (h : History) : Option Record := h.records.back?

/-- The states passed through: the one before the oldest record, then the one
    after each record. -/
def path (h : History) : List State :=
  match h.records.toList with
  | [] => []
  | oldest :: newer => oldest.before :: oldest.after :: newer.map fun r => r.after

/-- How many of the records kept tell of an input that no rule foresaw. -/
def unexpectedCount (h : History) : Nat :=
  h.records.toList.countP fun r => r.outcome = .unexpected

/-- The time from the oldest record to the newest, by `Instant.since?`. There is
    none without records, or if the newest is the earlier one. -/
def duration (h : History) : Option Span := do
  let oldest ← h.records[0]?
  let newest ← h.records.back?
  newest.timestamp.since? oldest.timestamp

/-! ## What the operations do to the records -/

/-- What `evict` leaves are the newest records with room for one more. -/
theorem toList_evict (limit : Nat) (records : Array Record) :
    (evict limit records).toList = records.toList.drop (records.size + 1 - limit) := by
  fun_induction evict limit records with
  | case1 records hfull ih =>
    -- one eviction, and the others from what is left
    have hleft : (records.extract 1).toList = records.toList.drop 1 := by
      rw [Array.toList_extract, List.extract_eq_take_drop]
      exact List.take_of_length_le (by simp)
    have hcount : 1 + (records.size - 1 + 1 - limit) = records.size + 1 - limit := by omega
    rw [ih, hleft, Array.size_extract, Nat.min_self, List.drop_drop, hcount]
  | case2 records hroom =>
    by_cases hnone : records.size = 0
    · rw [Array.eq_empty_of_size_eq_zero hnone]
      simp
    · have hkept : records.size + 1 - limit = 0 := by omega
      rw [hkept, List.drop_zero]

@[simp] theorem limit_record (r : Record) (h : History) : (h.record r).limit = h.limit := by
  obtain ⟨records, _ | limit⟩ := h
  · rfl
  · simp only [record]
    split <;> rfl

@[simp] theorem limit_clear (h : History) : h.clear.limit = h.limit := rfl

@[simp] theorem records_clear (h : History) : h.clear.records = #[] := rfl

theorem records_record_uncapped (r : Record) (h : History) (hfree : h.limit = none) :
    (h.record r).records.toList = h.records.toList ++ [r] := by
  obtain ⟨records, _ | limit⟩ := h
  · simp [record]
  · cases hfree

theorem record_of_limit_zero (r : Record) (h : History) (hzero : h.limit = some 0) :
    h.record r = h := by
  obtain ⟨records, _ | limit⟩ := h
  · cases hzero
  · cases hzero
    rfl

theorem records_record_capped (r : Record) (h : History) {limit : UInt64}
    (hcap : h.limit = some limit) (hpos : limit ≠ 0) :
    (h.record r).records.toList =
      h.records.toList.drop (h.size + 1 - limit.toNat) ++ [r] := by
  obtain ⟨records, _ | n⟩ := h
  · cases hcap
  · cases hcap
    simp only [record, if_neg hpos, Array.toList_push, toList_evict, size]

end History

end FareGate
