import FareGate.History

/-! # What a history keeps

  The records of a history, seen as a list, whatever its cap:

  * **Keep** (`keep`): what is left when one more item comes in.
  * **Newest** (`newest`): the newest items that a cap leaves room for. A
    history that has not more records than its cap allows keeps the newest ones
    of all that ever came in.
  * **Steps** (`steps`): the records without their times. What a history keeps
    does not depend on times, so two histories that agree but for times go on to
    agree. -/

namespace FareGate.History

section retention
variable {α β : Type}

/-! ## Items under a cap -/

/-- What is left under a cap when one more item comes in. -/
def keep (limit : Option UInt64) (kept : List α) (new : α) : List α :=
  match limit with
  | none => kept ++ [new]
  | some n => if n = 0 then kept else kept.drop (kept.length + 1 - n.toNat) ++ [new]

/-- The newest items that a cap leaves room for. -/
def newest (limit : Option UInt64) (items : List α) : List α :=
  match limit with
  | none => items
  | some n => items.drop (items.length - n.toNat)

/-- A cap leaves room for this many items. -/
def Fits (limit : Option UInt64) (size : Nat) : Prop := ∀ n, limit = some n → size ≤ n.toNat

theorem newest_suffix (limit : Option UInt64) (items : List α) :
    newest limit items <:+ items := by
  cases limit with
  | none => exact List.suffix_refl items
  | some n => exact List.drop_suffix _ _

theorem fits_newest (limit : Option UInt64) (items : List α) :
    Fits limit (newest limit items).length := by
  intro n hn
  subst hn
  simp only [newest, List.length_drop]
  omega

theorem newest_of_fits {limit : Option UInt64} {items : List α}
    (hfits : Fits limit items.length) : newest limit items = items := by
  cases limit with
  | none => rfl
  | some n =>
    have hle : items.length ≤ n.toNat := hfits n rfl
    simp only [newest]
    rw [show items.length - n.toNat = 0 from by omega]
    rfl

/-- Of items of which the older ones were dropped before, the newest are the
    same. -/
theorem newest_newest_append (limit : Option UInt64) (old new : List α) :
    newest limit (newest limit old ++ new) = newest limit (old ++ new) := by
  cases limit with
  | none => rfl
  | some n =>
    simp only [newest, List.length_append, List.length_drop]
    by_cases hle : old.length ≤ n.toNat
    · rw [show old.length - n.toNat = 0 from by omega]
      simp
    · -- what was dropped before lies within what is dropped now
      rw [← List.drop_append_of_le_length (by omega), List.drop_drop]
      congr 1
      omega

/-- A positive cap leaves the newest, however many items there were. -/
theorem keep_eq_newest_of_ne_zero {n : UInt64} (hn : n ≠ 0) (kept : List α) (new : α) :
    keep (some n) kept new = newest (some n) (kept ++ [new]) := by
  have hne : n.toNat ≠ 0 := fun h => hn (UInt64.toNat_inj.mp h)
  simp only [keep, newest, List.length_append, List.length_singleton, if_neg hn]
  -- there is room for the new item, so that only older ones are dropped
  rw [List.drop_append_of_le_length (by omega)]

/-- If nothing is held under a cap of zero, one more item leaves the newest. -/
theorem keep_eq_newest_of_empty {limit : Option UInt64} {kept : List α} (new : α)
    (hempty : limit = some 0 → kept = []) : keep limit kept new = newest limit (kept ++ [new]) := by
  cases limit with
  | none => rfl
  | some n =>
    by_cases hzero : n = 0
    · -- nothing was kept, and the new item is not kept either
      subst hzero
      rw [hempty rfl]
      rfl
    · exact keep_eq_newest_of_ne_zero hzero kept new

/-- If there is not more than the cap allows, `keep` leaves the `newest`. -/
theorem keep_eq_newest {limit : Option UInt64} {kept : List α} (new : α)
    (hfits : Fits limit kept.length) : keep limit kept new = newest limit (kept ++ [new]) := by
  apply keep_eq_newest_of_empty
  intro hzero
  have hle : kept.length ≤ 0 := hfits 0 hzero
  exact List.length_eq_zero_iff.mp (Nat.le_zero.mp hle)

/-- Item after item, the newest of all remain. -/
theorem foldl_keep {limit : Option UInt64} {kept : List α} (new : List α)
    (hfits : Fits limit kept.length) :
    new.foldl (keep limit) kept = newest limit (kept ++ new) := by
  induction new generalizing kept with
  | nil =>
    rw [List.foldl_nil, List.append_nil, newest_of_fits hfits]
  | cons a rest ih =>
    -- the newest of those so far leave room for what comes next
    rw [List.foldl_cons, keep_eq_newest a hfits, ih (fits_newest limit _),
      newest_newest_append, List.append_assoc]
    rfl

theorem map_keep (f : α → β) (limit : Option UInt64) (kept : List α) (new : α) :
    (keep limit kept new).map f = keep limit (kept.map f) (f new) := by
  cases limit with
  | none => simp [keep]
  | some n =>
    simp only [keep]
    split
    · rfl
    · simp

end retention

/-! ## Records and steps -/

/-- The records that `History.record` leaves are kept like any items. -/
theorem records_record (r : Record) (h : History) :
    (h.record r).records.toList = keep h.limit h.records.toList r := by
  cases hlimit : h.limit with
  | none => exact records_record_uncapped r h hlimit
  | some n =>
    simp only [keep]
    split
    · rename_i hzero
      rw [record_of_limit_zero r h (by rw [hlimit, hzero])]
    · rename_i hpos
      exact records_record_capped r h hlimit hpos

/-- So is anything that is told of the records one by one, such as their steps
    or their times. -/
theorem map_records_record {β : Type} (f : Record → β) (r : Record) (h : History) :
    (h.record r).records.toList.map f = keep h.limit (h.records.toList.map f) (f r) := by
  rw [records_record, map_keep]

def recordAll (rs : List Record) (h : History) : History := rs.foldl (fun h r => h.record r) h

theorem recordAll_append (rs new : List Record) (h : History) :
    h.recordAll (rs ++ new) = (h.recordAll rs).recordAll new := by
  simp [recordAll]

theorem records_recordAll (rs : List Record) (h : History) :
    (h.recordAll rs).records.toList = rs.foldl (keep h.limit) h.records.toList := by
  induction rs generalizing h with
  | nil => rfl
  | cons r rest ih =>
    show ((h.record r).recordAll rest).records.toList = _
    rw [ih, limit_record, records_record, List.foldl_cons]

/-- The steps that the records tell of, oldest first. -/
def steps (h : History) : List Transition := h.records.toList.map (·.toTransition)

@[simp] theorem length_steps (h : History) : h.steps.length = h.size := by
  simp [steps, size]

theorem unexpectedCount_eq_countP (h : History) :
    h.unexpectedCount = h.steps.countP fun step => step.outcome = .unexpected := by
  rw [unexpectedCount, steps, List.countP_map]
  rfl

end FareGate.History
