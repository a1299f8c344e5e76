import FareGate.Proofs.Form.ReadBack
import FareGate.Proofs.History.Retention
import Mathlib.Data.List.DropRight

/-! # When a history respects its cap

  A history that is read may hold any number of records under any cap:

  * **Respect** (`RespectsCap`): after a record comes in there are not more
    records than the cap allows, and they are the newest of the old ones
    followed by the new one.
  * A positive cap is respected whatever the history held before, and so is a
    cap of zero by a history that holds nothing. A cap of zero turns the record
    away, and the records that a history held beforehand stay where they
    were. -/

namespace FareGate.History

/-- **Respect** for the cap as a record comes in. -/
def RespectsCap (h : History) (r : Record) : Prop :=
  ∀ n, h.limit = some n →
    (h.record r).size ≤ n.toNat ∧
      (h.record r).records.toList =
        (h.records.toList ++ [r]).rtake (min n.toNat (h.size + 1))

theorem newest_eq_rtake {α : Type} (n : UInt64) (items : List α) :
    newest (some n) items = items.rtake (min n.toNat items.length) := by
  simp only [newest, List.rtake]
  rw [show items.length - min n.toNat items.length = items.length - n.toNat from by omega]

theorem RespectsCap.of_newest {h : History} {r : Record}
    (hnewest : (h.record r).records.toList = newest h.limit (h.records.toList ++ [r])) :
    h.RespectsCap r := by
  intro n hn
  rw [hn] at hnewest
  have hfits := fits_newest (some n) (h.records.toList ++ [r]) n rfl
  rw [← hnewest] at hfits
  refine ⟨by simpa [size] using hfits, ?_⟩
  rw [hnewest, newest_eq_rtake]
  simp [size]

/-- **Which histories respect their caps.** All do but those that hold records
    under a cap of zero, and to these `History.record` makes no difference. -/
theorem respectsCap_iff (h : History) (r : Record) :
    (h.RespectsCap r ↔ (h.limit = some 0 → h.records = #[])) ∧
      (¬h.RespectsCap r → h.record r = h) := by
  have hiff : h.RespectsCap r ↔ (h.limit = some 0 → h.records = #[]) := by
    constructor
    · intro hrespects hzero
      obtain ⟨hsize, -⟩ := hrespects 0 hzero
      rw [record_of_limit_zero r h hzero] at hsize
      exact Array.eq_empty_of_size_eq_zero (Nat.le_zero.mp hsize)
    · intro hempty
      apply RespectsCap.of_newest
      rw [records_record]
      apply keep_eq_newest_of_empty
      intro hzero
      rw [hempty hzero]
  refine ⟨hiff, ?_⟩
  intro hnot
  have hzero : h.limit = some 0 := by
    by_contra hne
    exact hnot (hiff.mpr fun h0 => absurd h0 hne)
  exact record_of_limit_zero r h hzero

/-- The first coin at a locked gate, as it is recorded. -/
def firstCoinAt (now : Instant) : Record :=
  ⟨⟨.locked, .firstCoin, .event .coin, [], .handled⟩, now⟩

/-- A record under a cap that leaves no room for it. -/
def overfull : History := ⟨#[firstCoinAt .epoch], some 0⟩

/-- Such a history can be read, and a further record does not bring it under its
    cap. -/
theorem overfull_not_respectsCap :
    Form.read? (Form.write overfull) = some overfull ∧
      (overfull.record (firstCoinAt ⟨1⟩)).size = 1 ∧
      ¬overfull.RespectsCap (firstCoinAt ⟨1⟩) := by
  refine ⟨(Form.readsBack_history (by decide)).read?_write, by decide, ?_⟩
  intro hrespects
  have hsize : (overfull.record (firstCoinAt ⟨1⟩)).size ≤ 0 := (hrespects 0 rfl).1
  exact absurd hsize (by decide)

end FareGate.History
