/-! # Decimal digits

  * **Writing**: a number with as few digits as it needs, or with a fixed
    number of them.
  * **Reading**: a fixed number of digits from the front of a text.

  Digits are the ten ASCII ones. -/

namespace FareGate.Decimal

def digit (d : Nat) : Char := Char.ofNat ('0'.toNat + d)

def digitValue (c : Char) : Nat := c.toNat - '0'.toNat

/-- The number that a row of digits stands for. -/
def value (cs : List Char) : Nat := cs.foldl (fun n c => 10 * n + digitValue c) 0

/-- A number without leading zeros. -/
def digits (n : Nat) : List Char :=
  if n < 10 then [digit n] else digits (n / 10) ++ [digit (n % 10)]

/-- The last `width` digits of a number, with leading zeros. -/
def padded : (width : Nat) → Nat → List Char
  | 0, _ => []
  | width + 1, n => padded width (n / 10) ++ [digit (n % 10)]

/-- As many numbers as `width` digits can show, from zero on. -/
def bound : (width : Nat) → Nat
  | 0 => 1
  | width + 1 => 10 * bound width

/-- Reads `width` digits from the front. -/
def read (width : Nat) (cs : List Char) : Option (Nat × List Char) :=
  let ds := cs.take width
  if ds.length = width ∧ ds.all Char.isDigit then some (value ds, cs.drop width) else none

/-! ## Writing, then reading -/

theorem digit_facts : ∀ d < 10, (digit d).isDigit ∧ digitValue (digit d) = d := by
  decide

theorem isDigit_digit {d : Nat} (h : d < 10) : (digit d).isDigit := (digit_facts d h).1

@[simp] theorem digitValue_digit {d : Nat} (h : d < 10) : digitValue (digit d) = d :=
  (digit_facts d h).2

@[simp] theorem value_append_digit (cs : List Char) (c : Char) :
    value (cs ++ [c]) = 10 * value cs + digitValue c := by
  simp [value]

@[simp] theorem value_digits (n : Nat) : value (digits n) = n := by
  fun_induction digits n with
  | case1 n hsmall => simp [value, hsmall]
  | case2 n hlarge ih =>
    -- the last digit, and those of what is left
    rw [value_append_digit, ih, digitValue_digit (by omega)]
    omega

theorem all_digits (n : Nat) : (digits n).all Char.isDigit := by
  fun_induction digits n with
  | case1 n hsmall => simpa using isDigit_digit hsmall
  | case2 n hlarge ih =>
    simp only [List.all_append, List.all_cons, List.all_nil, Bool.and_true, Bool.and_eq_true]
    exact ⟨ih, isDigit_digit (by omega)⟩

@[simp] theorem length_padded (width n : Nat) : (padded width n).length = width := by
  induction width generalizing n with
  | zero => rfl
  | succ width ih => simp [padded, ih]

theorem all_padded (width n : Nat) : (padded width n).all Char.isDigit := by
  induction width generalizing n with
  | zero => rfl
  | succ width ih =>
    simp only [padded, List.all_append, List.all_cons, List.all_nil, Bool.and_true,
      Bool.and_eq_true]
    exact ⟨ih _, isDigit_digit (by omega)⟩

theorem value_padded {width n : Nat} (hfits : n < bound width) : value (padded width n) = n := by
  induction width generalizing n with
  | zero =>
    simp only [bound] at hfits
    simp [padded, value]
    omega
  | succ width ih =>
    simp only [bound] at hfits
    rw [padded, value_append_digit, ih (by omega), digitValue_digit (by omega)]
    omega

/-- What `padded` writes is read back, whatever follows it. -/
theorem read_padded {width n : Nat} (hfits : n < bound width) (rest : List Char) :
    read width (padded width n ++ rest) = some (n, rest) := by
  have htaken : (padded width n ++ rest).take width = padded width n := by simp
  have hleft : (padded width n ++ rest).drop width = rest := by simp
  simp only [read, htaken, hleft, length_padded, all_padded, and_self, if_true,
    value_padded hfits]

end FareGate.Decimal
