import FareGate.Json.Numeral
import Mathlib.Data.List.TakeWhile

/-! # The grammar of numerals

  A numeral has no mark of its own for where it ends. The reader takes as much
  as it can, and what it takes is what the grammar says:

  * **Formed** numerals (`Formed`): a minus or none, digits, perhaps a fraction
    and perhaps an exponent, said without the reader.
  * **Ending** texts (`Ends`): a numeral is read up to the first character that
    is no part of one. So every part of a numeral is read as it is formed,
    whatever follows that ends it.
  * **Numerals** (`IsNumeral`): what is read as a whole is what is formed. -/

namespace FareGate.Numeral

/-- A row of characters that `Numeral.read` takes as a whole. -/
def IsNumeral (cs : List Char) : Prop := read cs = some (cs, [])

/-! ## Formed numerals -/

/-- A **row** of digits, at least one. -/
def Row (ds : List Char) : Prop := ds ≠ [] ∧ ∀ c ∈ ds, c.isDigit

/-- What stands before the point: a zero, or digits without a zero in front. -/
inductive Whole : List Char → Prop where
  | zero : Whole ['0']
  | row {d : Char} {ds : List Char} (hd : d ≠ '0') (hrow : Row (d :: ds)) : Whole (d :: ds)

/-- A point and digits, or nothing. -/
inductive Fraction : List Char → Prop where
  | none : Fraction []
  | point {ds : List Char} (hrow : Row ds) : Fraction ('.' :: ds)

/-- An exponent with its letter and perhaps a sign, or nothing. -/
inductive Exponent : List Char → Prop where
  | none : Exponent []
  | power {letter : Char} (hletter : letter = 'e' ∨ letter = 'E') {sign : List Char}
      (hsign : sign = [] ∨ sign = ['+'] ∨ sign = ['-']) {ds : List Char} (hrow : Row ds) :
      Exponent (letter :: (sign ++ ds))

/-- **Formed** numerals, by their parts. -/
inductive Formed : List Char → Prop where
  | parts {minus whole fraction exponent : List Char} (hminus : minus = [] ∨ minus = ['-'])
      (hwhole : Whole whole) (hfraction : Fraction fraction) (hexponent : Exponent exponent) :
      Formed (minus ++ whole ++ fraction ++ exponent)

theorem ne_of_isDigit {d c : Char} (hd : d.isDigit) (hc : c.isDigit = false) : d ≠ c := by
  rintro rfl
  rw [hd] at hc
  cases hc

theorem Row.exists_cons {ds : List Char} (hrow : Row ds) :
    ∃ d more, ds = d :: more ∧ d.isDigit := by
  obtain ⟨d, more, rfl⟩ := List.exists_cons_of_ne_nil hrow.1
  exact ⟨d, more, rfl, hrow.2 d List.mem_cons_self⟩

theorem Whole.exists_cons {ds : List Char} (hwhole : Whole ds) :
    ∃ d more, ds = d :: more ∧ d.isDigit := by
  cases hwhole with
  | zero => exact ⟨'0', [], rfl, rfl⟩
  | row hd hrow => exact hrow.exists_cons

/-! ## Where a numeral ends -/

/-- A character that can belong to a numeral. -/
def isPart (c : Char) : Bool :=
  c.isDigit || c = '.' || c = 'e' || c = 'E' || c = '+' || c = '-'

/-- A text that **ends** any numeral before it. -/
def Ends (rest : List Char) : Prop := ∀ c ∈ rest.head?, isPart c = false

section ends
variable {rest : List Char}

theorem Ends.isDigit (hrest : Ends rest) : ∀ c ∈ rest.head?, c.isDigit = false := by
  intro c hc
  have hpart := hrest c hc
  simp only [isPart, Bool.or_eq_false_iff] at hpart
  exact hpart.1.1.1.1.1

theorem Ends.ne {c p : Char} {more : List Char} (hrest : Ends (c :: more)) (hp : isPart p) :
    c ≠ p := by
  rintro rfl
  have hc := hrest c rfl
  rw [hp] at hc
  cases hc

theorem Exponent.head?_append {ds : List Char} (hexponent : Exponent ds) (hrest : Ends rest) :
    ∀ c ∈ (ds ++ rest).head?, c.isDigit = false ∧ c ≠ '.' := by
  intro c hc
  cases hexponent with
  | none =>
    cases rest with
    | nil => cases hc
    | cons d more =>
      cases hc
      exact ⟨hrest.isDigit c rfl, hrest.ne rfl⟩
  | power hletter hsign hrow =>
    cases hc
    rcases hletter with rfl | rfl <;> decide

theorem Fraction.head?_append {ds : List Char} (hfraction : Fraction ds)
    (hrest : ∀ c ∈ rest.head?, c.isDigit = false) :
    ∀ c ∈ (ds ++ rest).head?, c.isDigit = false := by
  intro c hc
  cases hfraction with
  | none => exact hrest c hc
  | point hrow =>
    cases hc
    decide

/-! ## Formed numerals are read -/

theorem Row.digits?_append {ds : List Char} (hrow : Row ds)
    (hrest : ∀ c ∈ rest.head?, c.isDigit = false) : digits? (ds ++ rest) = some (ds, rest) := by
  have hnone : rest.takeWhile Char.isDigit = [] ∧ rest.dropWhile Char.isDigit = rest := by
    cases rest with
    | nil => exact ⟨rfl, rfl⟩
    | cons c more => simp [hrest c rfl]
  obtain ⟨d, more, rfl, -⟩ := hrow.exists_cons
  unfold digits?
  rw [List.takeWhile_append_of_pos hrow.2, List.dropWhile_append_of_pos hrow.2, hnone.1, hnone.2,
    List.append_nil]

theorem Whole.sign_append {minus ds : List Char} (hminus : minus = [] ∨ minus = ['-'])
    (hwhole : Whole ds) : sign (minus ++ (ds ++ rest)) = (minus, ds ++ rest) := by
  rcases hminus with rfl | rfl
  · -- without a minus, a digit comes first
    obtain ⟨d, more, rfl, hd⟩ := hwhole.exists_cons
    have hminus : d ≠ '-' := ne_of_isDigit hd rfl
    simp [sign, hminus]
  · rfl

theorem Whole.whole?_append {ds : List Char} (hwhole : Whole ds)
    (hrest : ∀ c ∈ rest.head?, c.isDigit = false) : whole? (ds ++ rest) = some (ds, rest) := by
  cases hwhole with
  | zero =>
    have hrow : Row ['0'] := ⟨by simp, List.forall_mem_singleton.mpr rfl⟩
    rw [whole?, hrow.digits?_append hrest]
    rfl
  | row hd hrow =>
    rw [whole?, hrow.digits?_append hrest]
    split
    · rename_i heq
      cases heq
      exact absurd rfl hd
    · rfl

theorem Fraction.fraction?_append {ds : List Char} (hfraction : Fraction ds)
    (hrest : ∀ c ∈ rest.head?, c.isDigit = false ∧ c ≠ '.') :
    fraction? (ds ++ rest) = some (ds, rest) := by
  cases hfraction with
  | none =>
    cases rest with
    | nil => rfl
    | cons c more =>
      have hpoint := (hrest c rfl).2
      simp [fraction?, hpoint]
  | point hrow =>
    rw [List.cons_append, fraction?, hrow.digits?_append fun c hc => (hrest c hc).1]
    rfl

theorem Row.exponentSign_append {sign ds : List Char}
    (hsign : sign = [] ∨ sign = ['+'] ∨ sign = ['-']) (hrow : Row ds) :
    exponentSign (sign ++ (ds ++ rest)) = (sign, ds ++ rest) := by
  rcases hsign with rfl | rfl | rfl
  · obtain ⟨d, more, rfl, hd⟩ := hrow.exists_cons
    have hplus : d ≠ '+' := ne_of_isDigit hd rfl
    have hminus : d ≠ '-' := ne_of_isDigit hd rfl
    simp [exponentSign, hplus, hminus]
  · rfl
  · rfl

theorem Exponent.exponent?_append {ds : List Char} (hexponent : Exponent ds)
    (hrest : Ends rest) : exponent? (ds ++ rest) = some (ds, rest) := by
  cases hexponent with
  | none =>
    cases rest with
    | nil => rfl
    | cons c more =>
      have hc : ¬(c = 'e' ∨ c = 'E') := not_or.mpr ⟨hrest.ne rfl, hrest.ne rfl⟩
      simp [exponent?, hc]
  | power hletter hsign hrow =>
    rw [List.cons_append, List.append_assoc, exponent?, if_pos hletter,
      hrow.exponentSign_append hsign]
    simp [hrow.digits?_append hrest.isDigit]

/-- A formed numeral is read up to where a text starts that ends it. -/
theorem Formed.read_append {cs : List Char} (hcs : Formed cs) (hrest : Ends rest) :
    read (cs ++ rest) = some (cs, rest) := by
  obtain ⟨hminus, hwhole, hfraction, hexponent⟩ := hcs
  have hpoint := hexponent.head?_append hrest
  have hdigit := hfraction.head?_append fun c hc => (hpoint c hc).1
  simp only [List.append_assoc, read, hwhole.sign_append hminus, hwhole.whole?_append hdigit,
    hfraction.fraction?_append hpoint, hexponent.exponent?_append hrest, Option.bind_eq_bind,
    Option.bind_some, pure]

end ends

/-! ## What is read is formed -/

theorem row_of_digits? {cs ds rest : List Char} (hread : digits? cs = some (ds, rest)) :
    Row ds := by
  unfold digits? at hread
  split at hread
  · cases hread
  · rename_i d more htaken
    cases hread
    refine ⟨by simp, fun c hc => ?_⟩
    rw [← htaken] at hc
    exact List.mem_takeWhile_imp hc

theorem whole_of_whole? {cs ds rest : List Char} (hread : whole? cs = some (ds, rest)) :
    Whole ds := by
  unfold whole? at hread
  split at hread
  · cases hread
  · rename_i hzero
    have hrow := row_of_digits? hread
    obtain ⟨d, more, rfl, -⟩ := hrow.exists_cons
    by_cases hd : d = '0'
    · subst hd
      cases more with
      | nil => exact .zero
      | cons next others => exact absurd hread (hzero _ _ _)
    · exact .row hd hrow

theorem fraction_of_fraction? {cs ds rest : List Char} (hread : fraction? cs = some (ds, rest)) :
    Fraction ds := by
  unfold fraction? at hread
  split at hread
  · rw [Option.map_eq_some_iff] at hread
    obtain ⟨⟨es, left⟩, hdigits, heq⟩ := hread
    cases heq
    exact .point (row_of_digits? hdigits)
  · cases hread
    exact .none

theorem sign_cases (cs : List Char) : (sign cs).1 = [] ∨ (sign cs).1 = ['-'] := by
  unfold sign
  split
  · exact .inr rfl
  · exact .inl rfl

theorem exponentSign_cases (cs : List Char) :
    (exponentSign cs).1 = [] ∨ (exponentSign cs).1 = ['+'] ∨ (exponentSign cs).1 = ['-'] := by
  unfold exponentSign
  split
  · exact .inr (.inl rfl)
  · exact .inr (.inr rfl)
  · exact .inl rfl

theorem exponent_of_exponent? {cs ds rest : List Char} (hread : exponent? cs = some (ds, rest)) :
    Exponent ds := by
  unfold exponent? at hread
  split at hread
  · cases hread
    exact .none
  · split at hread
    · rename_i hletter
      rw [Option.map_eq_some_iff] at hread
      obtain ⟨⟨es, left⟩, hdigits, heq⟩ := hread
      cases heq
      exact .power hletter (exponentSign_cases _) (row_of_digits? hdigits)
    · cases hread
      exact .none

theorem formed_of_read {cs ds rest : List Char} (hread : read cs = some (ds, rest)) :
    Formed ds := by
  simp only [read, Option.bind_eq_bind, Option.bind_eq_some_iff] at hread
  obtain ⟨⟨whole, cs₁⟩, hwhole, ⟨fraction, cs₂⟩, hfraction, ⟨exponent, cs₃⟩, hexponent, heq⟩ :=
    hread
  simp only [pure, Option.some.injEq, Prod.mk.injEq] at heq
  rw [← heq.1]
  exact .parts (sign_cases cs) (whole_of_whole? hwhole) (fraction_of_fraction? hfraction)
    (exponent_of_exponent? hexponent)

/-! ## Numerals -/

/-- **Numerals are formed.** What `Numeral.read` takes as a whole is what the
    grammar calls a numeral. -/
theorem isNumeral_iff_formed {cs : List Char} : IsNumeral cs ↔ Formed cs := by
  constructor
  · exact formed_of_read
  · intro hcs
    have hends : Ends [] := by simp [Ends]
    have hread := hcs.read_append hends
    rwa [List.append_nil] at hread

theorem IsNumeral.read_append {cs rest : List Char} (hcs : IsNumeral cs) (hrest : Ends rest) :
    read (cs ++ rest) = some (cs, rest) :=
  (isNumeral_iff_formed.mp hcs).read_append hrest

theorem IsNumeral.exists_cons {cs : List Char} (hcs : IsNumeral cs) :
    ∃ c more, cs = c :: more ∧ (c = '-' ∨ c.isDigit) := by
  obtain ⟨hminus, hwhole, -, -⟩ := isNumeral_iff_formed.mp hcs
  rcases hminus with rfl | rfl
  · obtain ⟨d, more, rfl, hd⟩ := hwhole.exists_cons
    exact ⟨d, _, rfl, .inr hd⟩
  · exact ⟨'-', _, rfl, .inl rfl⟩

/-- Digits without a needless zero in front are a numeral. -/
theorem isNumeral_of_digits {d : Char} {more : List Char} (hdigits : ∀ c ∈ d :: more, c.isDigit)
    (hzero : d = '0' → more = []) : IsNumeral (d :: more) := by
  have hwhole : Whole (d :: more) := by
    by_cases hd : d = '0'
    · rw [hzero hd, hd]
      exact .zero
    · exact .row hd ⟨List.cons_ne_nil _ _, hdigits⟩
  have hformed := Formed.parts (.inl rfl) hwhole .none .none
  rw [List.nil_append, List.append_nil, List.append_nil] at hformed
  exact isNumeral_iff_formed.mpr hformed

end FareGate.Numeral
