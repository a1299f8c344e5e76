import FareGate.Proofs.History.Retention
import FareGate.Proofs.Time.Stamp
import Mathlib.Algebra.Ring.Int.Defs
import Mathlib.Data.List.Chain

/-! # The duration of a history is exact

  An instant is held as whole seconds, rounded down, and the nanoseconds since.
  The time between two instants is found from these parts:

  * **Parts** (`partsTo`): seconds and nanoseconds are subtracted apart, and
    where there are too few nanoseconds a second is borrowed. The seconds tell
    the sign.
  * **Words** (`subtractInWords?`): in the years of the calendar nothing that
    comes up in between needs more than 64 bits for seconds and 32 for
    nanoseconds.
  * **Gaps** (`gaps`) from each record to the next add up to the duration,
    whatever the times are. If no record is older than the one before it, no gap
    is negative and the duration is defined; and this stays so as records come
    in that are not older than the newest one. -/

namespace FareGate

/-! ## Time between instants, by parts -/

namespace Instant

/-- Strictly **before**, by whole seconds and then by nanoseconds. -/
def IsBefore (s t : Instant) : Prop :=
  s.seconds < t.seconds ∨ (s.seconds = t.seconds ∧ s.subsecond < t.subsecond)

instance (s t : Instant) : Decidable (s.IsBefore t) := inferInstanceAs (Decidable (_ ∨ _))

/-- The seconds and nanoseconds from one instant to another. A second is
    borrowed where there are too few nanoseconds. -/
def partsTo (earlier later : Instant) : Int × Int :=
  if earlier.subsecond ≤ later.subsecond then
    (later.seconds - earlier.seconds, later.subsecond - earlier.subsecond)
  else
    (later.seconds - earlier.seconds - 1, later.subsecond - earlier.subsecond + nanosPerSecond)

theorem nanoseconds_eq (t : Instant) :
    t.nanoseconds = t.seconds * nanosPerSecond + t.subsecond :=
  congrArg Instant.nanoseconds t.ofParts_parts.symm

theorem isBefore_iff (s t : Instant) : s.IsBefore t ↔ s.nanoseconds < t.nanoseconds := by
  have hs := s.subsecond_lt
  have ht := t.subsecond_lt
  rw [IsBefore, nanoseconds_eq s, nanoseconds_eq t]
  simp only [nanosPerSecond] at *
  omega

/-- The parts make up the whole difference, and the nanoseconds are less than a
    second. -/
theorem partsTo_exact (s t : Instant) :
    (s.partsTo t).1 * nanosPerSecond + (s.partsTo t).2 = t.nanoseconds - s.nanoseconds ∧
      0 ≤ (s.partsTo t).2 ∧ (s.partsTo t).2 < nanosPerSecond := by
  have hs := s.subsecond_lt
  have ht := t.subsecond_lt
  rw [nanoseconds_eq s, nanoseconds_eq t]
  unfold partsTo
  split <;> simp only [nanosPerSecond] at * <;> omega

/-- The time to a later instant has the parts of `partsTo`. -/
theorem since?_of_not_isBefore {earlier later : Instant} (h : ¬later.IsBefore earlier) :
    ∃ d : Span, later.since? earlier = some d ∧
      (d.nanoseconds : Int) = later.nanoseconds - earlier.nanoseconds ∧
      ((d.seconds : Int), (d.subsecond : Int)) = earlier.partsTo later := by
  rw [isBefore_iff, Int.not_lt] at h
  refine ⟨_, if_pos h, Int.toNat_of_nonneg (by omega), ?_⟩
  -- whole seconds and the rest below a second are unique, so these are the parts
  obtain ⟨hsum, hzero, hsecond⟩ := partsTo_exact earlier later
  generalize earlier.partsTo later = p at hsum hzero hsecond ⊢
  obtain ⟨seconds, nanos⟩ := p
  simp only [Span.seconds, Span.subsecond, nanosPerSecond, Prod.mk.injEq] at *
  omega

theorem since?_of_isBefore {earlier later : Instant} (h : later.IsBefore earlier) :
    later.since? earlier = none := by
  rw [isBefore_iff] at h
  exact if_neg (by omega)

/-! ## Subtraction in words -/

/-- A number in a signed word of 64 bits, if it fits. -/
def word64? (n : Int) : Option Int :=
  if Int64.minValue.toInt ≤ n ∧ n ≤ Int64.maxValue.toInt then some n else none

/-- A number in a signed word of 32 bits, if it fits. -/
def word32? (n : Int) : Option Int :=
  if Int32.minValue.toInt ≤ n ∧ n ≤ Int32.maxValue.toInt then some n else none

/-- **Subtraction in words**: `since?` as it is carried out on seconds of 64 bits
    and nanoseconds of 32. It comes to nothing as soon as a number does not fit,
    and the whole must fit 64 bits when it is counted in milliseconds.

    `since?`, by which `History.duration` goes, counts without bounds. Both come
    to `partsTo`: `since?` by `since?_of_not_isBefore`, and in the calendar
    `subtractInWords?` by `subtractInWords?_eq`. -/
def subtractInWords? (later earlier : Instant) : Option (Int × Int) := do
  let seconds ← word64? (later.seconds - earlier.seconds)
  let nanos ← word32? (later.subsecond - earlier.subsecond)
  let (seconds, nanos) ←
    if nanos < 0 then do
      let seconds ← word64? (seconds - 1)
      let nanos ← word32? (nanos + nanosPerSecond)
      pure (seconds, nanos)
    else
      pure (seconds, nanos)
  let _ ← word64? (1000 * seconds + nanos / 1000000)
  return (seconds, nanos)

theorem word64?_eq {n : Int} (hlow : -1000000000000000000 ≤ n) (hhigh : n ≤ 1000000000000000000) :
    word64? n = some n := by
  have hmin : Int64.minValue.toInt ≤ -1000000000000000000 := by decide
  have hmax : 1000000000000000000 ≤ Int64.maxValue.toInt := by decide
  exact if_pos ⟨by omega, by omega⟩

theorem word32?_eq {n : Int} (hlow : -1000000000 ≤ n) (hhigh : n ≤ 1000000000) :
    word32? n = some n := by
  have hmin : Int32.minValue.toInt ≤ -1000000000 := by decide
  have hmax : 1000000000 ≤ Int32.maxValue.toInt := by decide
  exact if_pos ⟨by omega, by omega⟩

/-- The calendar has far fewer seconds than a word can count. -/
theorem InCalendar.seconds_bounds {t : Instant} (ht : t.InCalendar) :
    -1000000000000 ≤ t.seconds ∧ t.seconds ≤ 1000000000000 := by
  have hyear : 1 ≤ (Date.ofDayNumber (t.seconds / secondsPerDay)).year ∧
      (Date.ofDayNumber (t.seconds / secondsPerDay)).year ≤ 9999 := ht
  have hnumber := Date.dayNumber_ofDayNumber (t.seconds / secondsPerDay)
  obtain ⟨⟨-, hmonth⟩, -, hday⟩ := Date.isValid_ofDayNumber (t.seconds / secondsPerDay)
  generalize Date.ofDayNumber (t.seconds / secondsPerDay) = date at *
  have hlong := Date.daysInMonth_bounds date.year date.month
  -- the day's number grows with the year, and the seconds with the day's number
  simp only [Date.dayNumber, Date.daysBeforeYear, Date.daysBeforeMonth, Date.epochDay,
    secondsPerDay] at hnumber
  split at hnumber <;> omega

/-- In the calendar, `subtractInWords?` comes to `partsTo`. -/
theorem subtractInWords?_eq {earlier later : Instant} (he : earlier.InCalendar)
    (hl : later.InCalendar) : later.subtractInWords? earlier = some (earlier.partsTo later) := by
  obtain ⟨helow, hehigh⟩ := he.seconds_bounds
  obtain ⟨hllow, hlhigh⟩ := hl.seconds_bounds
  have hes := earlier.subsecond_lt
  have hls := later.subsecond_lt
  unfold subtractInWords? partsTo
  simp only [nanosPerSecond] at *
  rw [word64?_eq (by omega) (by omega), word32?_eq (by omega) (by omega)]
  simp only [Option.bind_eq_bind, Option.bind_some]
  by_cases hborrow : earlier.subsecond ≤ later.subsecond
  · rw [if_neg (by omega), if_pos hborrow]
    simp only [Option.pure_def, Option.bind_some]
    rw [word64?_eq (by omega) (by omega)]
    rfl
  · rw [if_pos (by omega), if_neg hborrow, word64?_eq (by omega) (by omega),
      word32?_eq (by omega) (by omega)]
    simp only [Option.pure_def, Option.bind_some]
    rw [word64?_eq (by omega) (by omega)]
    rfl

end Instant

namespace History

/-! ## Times on record -/

def times (h : History) : List Instant := h.records.toList.map (·.timestamp)

theorem duration_eq (h : History) :
    h.duration = h.times.head?.bind fun oldest =>
      h.times.getLast?.bind fun newest => newest.since? oldest := by
  unfold duration times
  rw [List.head?_map, List.getLast?_map, ← Array.getElem?_toList, ← List.head?_eq_getElem?,
    ← Array.getLast?_toList]
  cases h.records.toList.head? <;> cases h.records.toList.getLast? <;> rfl

/-- The **gaps** in nanoseconds from each time to the next. -/
def gaps (times : List Instant) : List Int :=
  times.zipWith (fun earlier later => later.nanoseconds - earlier.nanoseconds) times.tail

/-- Gaps add up to the time from the first to the last. -/
theorem sum_gaps (oldest : Instant) (rest : List Instant) :
    (gaps (oldest :: rest)).sum =
      ((oldest :: rest).getLast (List.cons_ne_nil _ _)).nanoseconds - oldest.nanoseconds := by
  induction rest generalizing oldest with
  | nil => simp [gaps]
  | cons next more ih =>
    have hmore : gaps (oldest :: next :: more) =
        (next.nanoseconds - oldest.nanoseconds) :: gaps (next :: more) := rfl
    rw [hmore, List.sum_cons, ih next, List.getLast_cons_cons]
    omega

/-- Times that **never decrease**: none is before the one it follows. -/
def NeverDecrease (times : List Instant) : Prop :=
  times.IsChain fun earlier later => ¬later.IsBefore earlier

/-- If times never decrease, the last is not before the first. -/
theorem NeverDecrease.not_isBefore {oldest : Instant} {rest : List Instant}
    (h : NeverDecrease (oldest :: rest)) :
    ¬((oldest :: rest).getLast (List.cons_ne_nil _ _)).IsBefore oldest := by
  induction rest generalizing oldest with
  | nil =>
    rw [List.getLast_singleton, Instant.isBefore_iff]
    omega
  | cons next more ih =>
    obtain ⟨hnext, hmore⟩ := List.isChain_cons_cons.mp h
    have hlast := ih hmore
    rw [List.getLast_cons_cons]
    rw [Instant.isBefore_iff] at hnext hlast ⊢
    omega

/-- Times that never decrease have a duration, which is the sum of the
    `gaps`. -/
theorem NeverDecrease.duration {h : History} (hsome : h.times ≠ [])
    (horder : NeverDecrease h.times) :
    ∃ d : Span, h.duration = some d ∧ (d.nanoseconds : Int) = (gaps h.times).sum := by
  rw [duration_eq]
  generalize h.times = times at hsome horder ⊢
  obtain ⟨oldest, rest, rfl⟩ := List.exists_cons_of_ne_nil hsome
  obtain ⟨d, hd, hlength, -⟩ := Instant.since?_of_not_isBefore horder.not_isBefore
  refine ⟨d, ?_, ?_⟩
  · rw [List.getLast?_eq_getLast_of_ne_nil hsome]
    exact hd
  · rw [sum_gaps, hlength]

/-! ## Records that come in -/

/-- What comes in is turned away, or it is the last item after the newest ones
    of those before. -/
theorem keep_cases {α : Type} (limit : Option UInt64) (kept : List α) (new : α) :
    keep limit kept new = kept ∨
      ∃ later, later <:+ kept ∧ keep limit kept new = later ++ [new] := by
  unfold keep
  split
  · exact .inr ⟨kept, List.suffix_refl _, rfl⟩
  · split
    · exact .inl rfl
    · exact .inr ⟨_, List.drop_suffix _ _, rfl⟩

/-- Times never decrease after a record has come in that is not older than the
    newest one, and there is something on record still. -/
theorem NeverDecrease.record {h : History} (hsome : h.times ≠ []) (horder : NeverDecrease h.times)
    {r : Record} (hr : ∀ newest ∈ h.times.getLast?, ¬r.timestamp.IsBefore newest) :
    (h.record r).times ≠ [] ∧ NeverDecrease (h.record r).times := by
  have htimes : (h.record r).times = keep h.limit h.times r.timestamp :=
    map_records_record Record.timestamp r h
  rw [htimes]
  rcases keep_cases h.limit h.times r.timestamp with hsame | ⟨later, hlater, hnew⟩
  · rw [hsame]
    exact ⟨hsome, horder⟩
  · rw [hnew]
    refine ⟨by simp, (horder.suffix hlater).append (List.isChain_singleton _) ?_⟩
    -- the last of those that stay is the newest one
    intro newest hnewest new hnew
    cases hnew
    obtain ⟨dropped, hdropped⟩ := hlater
    apply hr
    rw [← hdropped, List.getLast?_append, Option.mem_def.mp hnewest]
    rfl

/-- Records that come in one after the other, none of them older than the newest
    one that it finds. -/
def TakesInOrder : List Record → History → Prop
  | [], _ => True
  | r :: rest, h =>
    (∀ newest ∈ h.times.getLast?, ¬r.timestamp.IsBefore newest) ∧ TakesInOrder rest (h.record r)

theorem NeverDecrease.recordAll {h : History} (hsome : h.times ≠ [])
    (horder : NeverDecrease h.times) {rs : List Record} (hrs : h.TakesInOrder rs) :
    (h.recordAll rs).times ≠ [] ∧ NeverDecrease (h.recordAll rs).times := by
  induction rs generalizing h with
  | nil => exact ⟨hsome, horder⟩
  | cons r rest ih =>
    obtain ⟨hfirst, hrest⟩ := hrs
    obtain ⟨hsome', horder'⟩ := horder.record hsome hfirst
    exact ih hsome' horder' hrest

theorem isEmpty_iff_times (h : History) : h.isEmpty ↔ h.times = [] := by
  simp [isEmpty, times]

/-- **The duration is exact.** Take any history, with its times in any order. An
    empty history has no duration, and neither has one whose newest record is
    before the oldest. Otherwise the duration is the time from the oldest record
    to the newest to the nanosecond, in seconds and nanoseconds below a second
    (`partsTo`), with a second borrowed where there are too few nanoseconds. If
    both times are in the calendar, `subtractInWords?` comes to these parts, and
    so nothing overflows in between.

    If there are records whose times never decrease, the duration is defined and
    is the sum of the `gaps` from record to record. This stays so as records
    come in that are not older than the newest one, whichever are dropped for
    them. -/
theorem duration_exact (h : History) :
    (h.isEmpty → h.duration = none) ∧
    (∀ oldest newest : Record, h.records[0]? = some oldest → h.last? = some newest →
      let s := oldest.timestamp
      let t := newest.timestamp
      (t.IsBefore s → h.duration = none) ∧
      (¬t.IsBefore s → ∃ d : Span, h.duration = some d ∧
        (d.nanoseconds : Int) = t.nanoseconds - s.nanoseconds ∧
        ((d.seconds : Int), (d.subsecond : Int)) = s.partsTo t ∧ d.subsecond ≤ 999999999) ∧
      (s.InCalendar → t.InCalendar → t.subtractInWords? s = some (s.partsTo t))) ∧
    ∀ rs : List Record, ¬h.isEmpty → NeverDecrease h.times → h.TakesInOrder rs →
      let h' := h.recordAll rs
      ¬h'.isEmpty ∧ NeverDecrease h'.times ∧
        ∃ d : Span, h'.duration = some d ∧ (d.nanoseconds : Int) = (gaps h'.times).sum := by
  refine ⟨?_, ?_, ?_⟩
  · intro hempty
    rw [duration_eq, h.isEmpty_iff_times.mp hempty]
    rfl
  · intro oldest newest holdest hnewest s t
    have hduration : h.duration = t.since? s := by
      rw [duration, holdest]
      show h.last?.bind _ = _
      rw [hnewest]
      rfl
    refine ⟨?_, ?_, Instant.subtractInWords?_eq⟩
    · intro hbefore
      rw [hduration, Instant.since?_of_isBefore hbefore]
    · intro hbefore
      obtain ⟨d, hd, hlength, hparts⟩ := Instant.since?_of_not_isBefore hbefore
      refine ⟨d, hduration.trans hd, hlength, hparts, ?_⟩
      have hsecond : d.subsecond < nanosPerSecond := Nat.mod_lt _ (by decide)
      exact Nat.le_pred_of_lt hsecond
  · intro rs hsome horder hrs h'
    rw [isEmpty_iff_times] at hsome ⊢
    obtain ⟨hsome', horder'⟩ := horder.recordAll hsome hrs
    exact ⟨hsome', horder', horder'.duration hsome'⟩

/-- A reset of a locked gate, as it is recorded. -/
def resetAt (now : Instant) : Record := ⟨⟨.locked, .locked, .reset, [.lock], .handled⟩, now⟩

/-- Two records under a cap of two, 1.3 seconds before the start of 1970 and 0.2
    seconds after it. -/
def newYear : History where
  records := #[resetAt (.ofParts (-2) 700000000), resetAt (.ofParts 0 200000000)]
  limit := some 2

/-- From the one to the other it is one second and a half, with a second
    borrowed. The other way round there is no duration. A record half a second
    later takes the place of the first. -/
theorem newYear_duration :
    let late := resetAt (.ofParts 0 700000000)
    let backwards : History :=
      ⟨#[resetAt (.ofParts 0 200000000), resetAt (.ofParts (-2) 700000000)], none⟩
    newYear.duration = some ⟨1500000000⟩ ∧
      (Instant.ofParts 0 200000000).subtractInWords? (.ofParts (-2) 700000000) =
        some (1, 500000000) ∧
      backwards.duration = none ∧
      newYear.TakesInOrder [late] ∧ (newYear.recordAll [late]).size = 2 ∧
      (newYear.recordAll [late]).duration = some ⟨500000000⟩ := by
  intro late backwards
  obtain ⟨-, hparts, horder⟩ := duration_exact newYear
  obtain ⟨-, hlater, hwords⟩ := hparts _ _ rfl rfl
  obtain ⟨⟨n⟩, hn, hlength, -, -⟩ := hlater (by decide)
  obtain ⟨-, hbackwards, -⟩ := duration_exact backwards
  have hnone := (hbackwards _ _ rfl rfl).1 (by decide)
  have hin : newYear.TakesInOrder [late] := by
    refine ⟨?_, trivial⟩
    intro newest hnewest
    cases hnewest
    decide
  obtain ⟨-, -, ⟨k⟩, hk, hsum⟩ := horder [late] (by decide) (by
    unfold NeverDecrease
    decide) hin
  have hn' : n = 1500000000 := Int.ofNat.inj hlength
  have hgap : (gaps (newYear.recordAll [late]).times).sum = 500000000 := by decide +kernel
  have hk' : k = 500000000 := Int.ofNat.inj (hsum.trans hgap)
  rw [hn'] at hn
  rw [hk'] at hk
  exact ⟨hn, hwords (by decide) (by decide), hnone, hin,
    by decide +kernel, hk⟩

end History

end FareGate
