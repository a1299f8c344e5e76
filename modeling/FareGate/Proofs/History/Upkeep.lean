import FareGate.Proofs.History.Cap

/-! # What a history holds after any upkeep

  A history is kept up by records that come in and by clearings, in any order.
  What it holds afterwards can be told from the upkeep alone:

  * **Held over** (`heldOver`): the records from the start, unless there was a
    clearing.
  * **Newcomers** (`newcomers`): the records that came in since the last
    clearing.
  * Without newcomers, a history holds what is held over. Otherwise it holds
    both, the older ones first, or the last of them that the cap leaves room
    for. A history that starts with more records than its cap keeps them until
    the first newcomer. -/

namespace FareGate

/-! ## Upkeep -/

/-- Something done to the records of a history. -/
inductive Upkeep where
  /-- A record comes in. -/
  | record (r : Record)
  /-- All records are dropped. -/
  | clear
deriving DecidableEq

namespace Upkeep

def record? : Upkeep → Option Record
  | record r => some r
  | clear => none

/-- **Newcomers**: the records that came in since the last clearing. -/
def newcomers (us : List Upkeep) : List Record :=
  (us.rtakeWhile fun u => u ≠ clear).filterMap record?

@[simp] theorem newcomers_record (us : List Upkeep) (r : Record) :
    newcomers (us ++ [record r]) = newcomers us ++ [r] := by
  rw [newcomers, List.rtakeWhile_concat_pos _ _ _ (by simp), List.filterMap_append]
  rfl

@[simp] theorem newcomers_clear (us : List Upkeep) : newcomers (us ++ [clear]) = [] := by
  rw [newcomers, List.rtakeWhile_concat_neg _ _ _ (by simp)]
  rfl

end Upkeep

namespace History

def tend (h : History) : Upkeep → History
  | .record r => h.record r
  | .clear => h.clear

def tendAll (us : List Upkeep) (h : History) : History := us.foldl tend h

/-- **Held over**: the records from the start, unless there was a clearing. -/
def heldOver (h : History) (us : List Upkeep) : List Record :=
  if .clear ∈ us then [] else h.records.toList

@[simp] theorem heldOver_record (h : History) (us : List Upkeep) (r : Record) :
    h.heldOver (us ++ [.record r]) = h.heldOver us := by
  simp [heldOver]

@[simp] theorem heldOver_clear (h : History) (us : List Upkeep) :
    h.heldOver (us ++ [.clear]) = [] := by
  simp [heldOver]

theorem heldOver_eq_nil {h : History} (hnone : h.records = #[]) (us : List Upkeep) :
    h.heldOver us = [] := by
  unfold heldOver
  split
  · rfl
  · rw [hnone]

/-! ## What is held -/

theorem limit_tendAll (us : List Upkeep) (h : History) : (h.tendAll us).limit = h.limit := by
  induction us generalizing h with
  | nil => rfl
  | cons u rest ih =>
    have hfirst : (h.tend u).limit = h.limit := by
      cases u with
      | record r => exact limit_record r h
      | clear => rfl
    exact (ih (h.tend u)).trans hfirst

/-- After some upkeep, a history holds what is held over or, once there are
    newcomers, the newest of all. -/
theorem records_tendAll {h : History} (hempty : h.limit = some 0 → h.records = #[])
    (us : List Upkeep) :
    (h.tendAll us).records.toList =
      if Upkeep.newcomers us = [] then h.heldOver us
      else newest h.limit (h.heldOver us ++ Upkeep.newcomers us) := by
  induction us using List.reverseRecOn with
  | nil => rfl
  | append_singleton us u ih =>
    have hlast : h.tendAll (us ++ [u]) = (h.tendAll us).tend u := List.foldl_concat _ _ _ _
    rw [hlast]
    cases u with
    | clear =>
      rw [Upkeep.newcomers_clear, heldOver_clear, if_pos rfl]
      rfl
    | record r =>
      have hnew : Upkeep.newcomers us ++ [r] ≠ [] := by simp
      rw [Upkeep.newcomers_record, heldOver_record, if_neg hnew, ← List.append_assoc, tend,
        records_record, limit_tendAll, ih]
      split
      · -- the first newcomer, which may find more records than the cap allows
        rename_i hnone
        rw [hnone, List.append_nil]
        apply keep_eq_newest_of_empty
        intro hzero
        exact heldOver_eq_nil (hempty hzero) us
      · -- a further one, which finds the newest of those before
        rw [keep_eq_newest r (fits_newest h.limit _), newest_newest_append]

/-! ## Starts -/

/-- A history as it is made: empty, without a cap or with any cap, or read from
    a text that gives it no cap or a positive one. -/
inductive IsStart : History → Prop where
  | uncapped : IsStart .uncapped
  | capped (limit : UInt64) : IsStart (.capped limit)
  | read {text : String} {h : History} (hread : Form.read? text = some h)
      (hlimit : h.limit ≠ some 0) : IsStart h

theorem IsStart.empty_of_zero {h : History} (hstart : h.IsStart) (hzero : h.limit = some 0) :
    h.records = #[] := by
  cases hstart with
  | uncapped => rfl
  | capped limit => rfl
  | read hread hlimit => exact absurd hzero hlimit

/-- **What a history holds.** Take a history as it is made, and any upkeep.
    Without `newcomers`, it holds the records that are `heldOver`. Otherwise it
    holds these and the newcomers in order, all of them without a cap, and under
    a cap the last ones, as many as there are if the cap allows. The cap stays
    what it was, and of the records held those are counted that tell of an
    unforeseen input. -/
theorem holds_after_upkeep {h : History} (hstart : h.IsStart) (us : List Upkeep) :
    let new := Upkeep.newcomers us
    let all := h.heldOver us ++ new
    let held :=
      if new = [] then h.heldOver us
      else match h.limit with
        | none => all
        | some n => all.rtake (min n.toNat all.length)
    (h.tendAll us).records.toList = held ∧ (h.tendAll us).limit = h.limit ∧
      (h.tendAll us).unexpectedCount = held.countP fun r => r.outcome = .unexpected := by
  intro new all held
  have hheld : (h.tendAll us).records.toList = held := by
    rw [records_tendAll hstart.empty_of_zero]
    cases hlimit : h.limit with
    | none => simp only [held, all, new, hlimit, newest]
    | some n => simp only [held, all, new, hlimit, newest_eq_rtake]
  refine ⟨hheld, limit_tendAll us h, ?_⟩
  rw [unexpectedCount, hheld]

/-- A push at a gate that is alarmed already, as it is recorded. -/
def pushAt (now : Instant) : Record := ⟨⟨.alarming, .alarming, .event .pass, [], .unexpected⟩, now⟩

/-- Three records under a cap of two. -/
def crowded : History := ⟨#[firstCoinAt ⟨0⟩, firstCoinAt ⟨1⟩, pushAt ⟨2⟩], some 2⟩

/-- All three stay until a record comes in, and then only the last of them stays
    with it. A clearing drops both, and what comes in next stays alone. -/
theorem crowded_holds :
    crowded.IsStart ∧ (crowded.tendAll []).records.toList.length = 3 ∧
      (crowded.tendAll [.record (pushAt ⟨3⟩)]).records.toList = [pushAt ⟨2⟩, pushAt ⟨3⟩] ∧
      (crowded.tendAll [.record (pushAt ⟨3⟩)]).unexpectedCount = 2 ∧
      (crowded.tendAll [.record (pushAt ⟨3⟩), .clear, .record (pushAt ⟨4⟩)]).records.toList =
        [pushAt ⟨4⟩] := by
  have hread : Form.read? (Form.write crowded) = some crowded :=
    (Form.readsBack_history (by decide)).read?_write
  have hstart : crowded.IsStart := .read hread (by decide)
  obtain ⟨hnone, -, -⟩ := holds_after_upkeep hstart []
  obtain ⟨hone, -, hcount⟩ := holds_after_upkeep hstart [.record (pushAt ⟨3⟩)]
  obtain ⟨hcleared, -, -⟩ :=
    holds_after_upkeep hstart [.record (pushAt ⟨3⟩), .clear, .record (pushAt ⟨4⟩)]
  refine ⟨hstart, ?_, ?_, ?_, ?_⟩
  · rw [hnone]
    decide
  · rw [hone]
    decide
  · rw [hcount]
    decide
  · rw [hcleared]
    decide

end History

end FareGate
