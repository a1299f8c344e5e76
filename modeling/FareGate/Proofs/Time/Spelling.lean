import FareGate.Proofs.Time.Offset
import Mathlib.Data.List.Induction

/-! # Spellings of an instant

  An instant has many spellings, since people live by different clocks:

  * **Spellings** (`Instant.SpelledBy`) are what a clock shows at some offset,
    with any fraction that stands for the nanoseconds, in years of four digits
    there.
  * **Reading** goes part by part, and each part is read from its own characters
    and from nothing else.
  * So a text is read as an instant if and only if it is one of the spellings of
    that instant. -/

namespace FareGate

/-! ## Digits -/

namespace Decimal

theorem digit_digitValue {c : Char} (hc : c.isDigit) :
    digitValue c < 10 ∧ digit (digitValue c) = c := by
  have hrange : '0'.toNat ≤ c.toNat ∧ c.toNat ≤ '9'.toNat := by
    simpa [Char.isDigit, UInt32.le_iff_toNat_le] using hc
  have hnine : '9'.toNat = '0'.toNat + 9 := by decide
  unfold digit digitValue
  rw [Nat.add_sub_cancel' hrange.1]
  exact ⟨by omega, Char.ofNat_toNat c⟩

/-- Digits are those of the number that they stand for. -/
theorem padded_value {ds : List Char} (hds : ∀ c ∈ ds, c.isDigit) :
    value ds < bound ds.length ∧ padded ds.length (value ds) = ds := by
  induction ds using List.reverseRecOn with
  | nil => exact ⟨by decide, rfl⟩
  | append_singleton front c ih =>
    rw [List.forall_mem_append, List.forall_mem_singleton] at hds
    obtain ⟨hfits, hpadded⟩ := ih hds.1
    obtain ⟨hsmall, hdigit⟩ := digit_digitValue hds.2
    have hshift : (10 * value front + digitValue c) / 10 = value front := by omega
    have hlast : (10 * value front + digitValue c) % 10 = digitValue c := by omega
    rw [value_append_digit, List.length_append, List.length_singleton, bound, padded, hshift,
      hlast, hpadded, hdigit]
    exact ⟨by omega, rfl⟩

/-- A number is read from its digits with leading zeros, and from nothing
    else. -/
theorem read_eq_some_iff {width n : Nat} {cs rest : List Char} :
    read width cs = some (n, rest) ↔ n < bound width ∧ cs = padded width n ++ rest := by
  constructor
  · intro h
    simp only [read] at h
    split at h
    · rename_i hdigits
      obtain ⟨hlength, hall⟩ := hdigits
      cases h
      obtain ⟨hfits, hpadded⟩ := padded_value (List.all_eq_true.mp hall)
      rw [hlength] at hfits hpadded
      exact ⟨hfits, by rw [hpadded, List.take_append_drop]⟩
    · cases h
  · rintro ⟨hfits, rfl⟩
    exact read_padded hfits rest

end Decimal

namespace Stamp

/-! ## Fractions and offsets -/

theorem fractionOf_of_readFraction? {cs rest : List Char} {n : Nat}
    (h : readFraction? cs = some (n, rest)) :
    ∃ fraction, FractionOf n fraction ∧ cs = fraction ++ rest := by
  unfold readFraction? at h
  split at h
  · rename_i more
    simp only at h
    split at h
    · rename_i hlength
      have hdigits : ∀ c ∈ more.takeWhile Char.isDigit, c.isDigit :=
        List.all_eq_true.mp List.all_takeWhile
      rw [Option.some.injEq, Prod.mk.injEq, Decimal.value_append_zeros] at h
      obtain ⟨hvalue, rfl⟩ := h
      refine ⟨_, .digits hdigits hlength ((mul_bound_eq_iff hlength.2).mp hvalue), ?_⟩
      rw [List.cons_append, List.takeWhile_append_dropWhile]
    · cases h
  · cases h
    exact ⟨[], .none rfl, rfl⟩

theorem skip?_eq_some_iff {c : Char} {cs rest : List Char} :
    skip? c cs = some rest ↔ cs = c :: rest := by
  cases cs with
  | nil => simp [skip?]
  | cons d more =>
    unfold skip?
    by_cases hd : d = c
    · simp [hd]
    · simp [hd]

theorem readMinutes?_eq_some_iff {cs : List Char} {k : Nat} :
    readMinutes? cs = some k ↔ ∃ (hours : Fin 24) (minutes : Fin 60),
      k = hours * 60 + minutes ∧
        cs = Decimal.padded 2 hours ++ ':' :: Decimal.padded 2 minutes := by
  have hfits : ∀ n < 60, n < Decimal.bound 2 := fun n hn => Nat.lt_trans hn (by decide)
  simp only [readMinutes?, Option.bind_eq_bind, Option.bind_eq_some_iff, Prod.exists,
    Decimal.read_eq_some_iff, skip?_eq_some_iff]
  constructor
  · rintro ⟨hours, _, ⟨-, rfl⟩, _, rfl, minutes, _, ⟨-, rfl⟩, h⟩
    split at h
    · rename_i hclock
      obtain ⟨hhours, hminutes, rfl⟩ := hclock
      cases h
      refine ⟨⟨hours, by omega⟩, ⟨minutes, by omega⟩, rfl, ?_⟩
      rw [List.append_nil]
    · cases h
  · rintro ⟨hours, minutes, rfl, rfl⟩
    refine ⟨hours, _, ⟨hfits _ (by omega), rfl⟩, _, rfl, minutes, [],
      ⟨hfits _ minutes.isLt, (List.append_nil _).symm⟩, if_pos ⟨by omega, by omega, rfl⟩⟩

/-- An offset is read from `Offset.spelling`, and from nothing else. -/
theorem readOffset?_eq_some_iff {cs : List Char} {offset : Int} :
    readOffset? cs = some offset ↔ ∃ z : Offset, offset = z.inMinutes ∧ cs = z.spelling := by
  constructor
  · intro h
    unfold readOffset? at h
    split at h
    · cases h
      exact ⟨.universal, rfl, rfl⟩
    · rename_i rest
      cases hk : readMinutes? rest with
      | none =>
        rw [hk] at h
        cases h
      | some k =>
        rw [hk] at h
        cases h
        obtain ⟨hours, minutes, rfl, rfl⟩ := readMinutes?_eq_some_iff.mp hk
        exact ⟨.ahead hours minutes, rfl, rfl⟩
    · rename_i rest
      cases hk : readMinutes? rest with
      | none =>
        rw [hk] at h
        cases h
      | some k =>
        rw [hk] at h
        cases h
        obtain ⟨hours, minutes, rfl, rfl⟩ := readMinutes?_eq_some_iff.mp hk
        exact ⟨.behind hours minutes, rfl, rfl⟩
    · cases h
  · rintro ⟨z, rfl, rfl⟩
    cases z with
    | universal => rfl
    | ahead hours minutes =>
      have hread := readMinutes?_eq_some_iff.mpr ⟨hours, minutes, rfl, rfl⟩
      simp only [Offset.spelling, readOffset?, hread]
      rfl
    | behind hours minutes =>
      have hread := readMinutes?_eq_some_iff.mpr ⟨hours, minutes, rfl, rfl⟩
      simp only [Offset.spelling, readOffset?, hread]
      rfl

theorem head?_spelling (z : Offset) : ∀ c ∈ z.spelling.head?, c.isDigit = false ∧ c ≠ '.' := by
  intro c hc
  cases z with
  | universal =>
    cases hc
    decide
  | ahead hours minutes =>
    cases hc
    decide
  | behind hours minutes =>
    cases hc
    decide

/-! ## Whole stamps -/

/-- A stamp is read from the clock that it shows, a fraction and an offset, and
    from nothing else. -/
theorem read?_eq_some_iff {cs : List Char} {s : Stamp} :
    read? cs = some s ↔ s.IsValid ∧ (0 ≤ s.date.year ∧ s.date.year ≤ 9999) ∧
      ∃ fraction, FractionOf s.nanosecond fraction ∧
        ∃ z : Offset, s.offset = z.inMinutes ∧ cs = s.writeClock ++ (fraction ++ z.spelling) := by
  constructor
  · intro h
    simp only [read?, Option.bind_eq_bind, Option.bind_eq_some_iff, Prod.exists,
      Decimal.read_eq_some_iff, skip?_eq_some_iff, readOffset?_eq_some_iff] at h
    obtain ⟨year, _, ⟨hyear, rfl⟩, _, rfl, month, _, ⟨-, rfl⟩, _, rfl, day, _, ⟨-, rfl⟩, _, rfl,
      hour, _, ⟨-, rfl⟩, _, rfl, minute, _, ⟨-, rfl⟩, _, rfl, second, _, ⟨-, rfl⟩,
      nanosecond, _, hnanosecond, offset, ⟨z, hz, rfl⟩, h⟩ := h
    obtain ⟨fraction, hfraction, rfl⟩ := fractionOf_of_readFraction? hnanosecond
    split at h
    · rename_i hvalid
      cases h
      have hfour : (0 : Int) ≤ year ∧ (year : Int) ≤ 9999 := by
        have hbound : Decimal.bound 4 = 10000 := by decide
        omega
      refine ⟨hvalid, hfour, fraction, hfraction, z, hz, ?_⟩
      simp only [writeClock, writeYear, if_pos hfour, Int.toNat_natCast, List.append_assoc,
        List.cons_append]
    · cases h
  · rintro ⟨hvalid, hyear, fraction, hfraction, z, hz, rfl⟩
    exact read?_writeClock hvalid hyear (hfraction.readFraction? (head?_spelling z))
      (readOffset?_eq_some_iff.mpr ⟨z, hz, rfl⟩)

end Stamp

/-! ## Spellings of instants -/

namespace Instant

/-- **Spellings** of an instant: the clock of universal time, moved by
    `Stamp.atOffset`. -/
inductive SpelledBy (t : Instant) : String → Prop where
  /-- In local time, the year has four digits. -/
  | shown (z : Offset) {fraction : List Char}
      (hyear : 0 ≤ ((Stamp.ofInstant t).atOffset z).date.year ∧
        ((Stamp.ofInstant t).atOffset z).date.year ≤ 9999)
      (hfraction : Stamp.FractionOf t.subsecond fraction) :
      SpelledBy t (String.ofList
        (((Stamp.ofInstant t).atOffset z).writeClock ++ (fraction ++ z.spelling)))

/-- A text is read as an instant if and only if it is one of its spellings. -/
theorem read?_eq_some_iff {x : String} {t : Instant} : read? x = some t ↔ t.SpelledBy x := by
  have hvalid := Stamp.isValid_ofInstant t
  constructor
  · intro h
    obtain ⟨s, hs, hinstant⟩ := Option.map_eq_some_iff.mp h
    obtain ⟨hshown, hyear, fraction, hfraction, z, hz, hx⟩ := Stamp.read?_eq_some_iff.mp hs
    -- there is only one stamp to read at this offset
    have hsame : s = (Stamp.ofInstant t).atOffset z := by
      apply hshown.eq_of_instant_eq (hvalid.atOffset z) hz
      rw [hinstant, hvalid.instant_atOffset rfl, Stamp.instant_ofInstant]
    subst hsame
    rw [← String.ofList_toList (s := x), hx]
    exact .shown z hyear hfraction
  · rintro ⟨z, hyear, hfraction⟩
    have hread := Stamp.read?_eq_some_iff.mpr
      ⟨hvalid.atOffset z, hyear, _, hfraction, z, rfl, rfl⟩
    rw [read?, String.toList_ofList, hread, Option.map_some, hvalid.instant_atOffset rfl,
      Stamp.instant_ofInstant]

end Instant

end FareGate
