/-! # Numerals

  A JSON number: a minus sign or none, digits without a needless leading zero,
  then perhaps a point with digits and perhaps an exponent. Reading takes the
  longest numeral at the front of a text and judges its spelling only; how
  large the number is does not matter. -/

namespace FareGate.Numeral

/-- One digit or more, and what follows them. -/
def digits? (cs : List Char) : Option (List Char × List Char) :=
  match cs.takeWhile Char.isDigit with
  | [] => none
  | d :: ds => some (d :: ds, cs.dropWhile Char.isDigit)

def sign : List Char → List Char × List Char
  | '-' :: rest => (['-'], rest)
  | rest => ([], rest)

/-- The digits before the point: a single zero, or no zero in front. -/
def whole? (cs : List Char) : Option (List Char × List Char) :=
  match digits? cs with
  | some ('0' :: _ :: _, _) => none
  | found => found

/-- The point and the digits after it, or nothing. -/
def fraction? : List Char → Option (List Char × List Char)
  | '.' :: rest => (digits? rest).map fun (ds, rest) => ('.' :: ds, rest)
  | rest => some ([], rest)

def exponentSign : List Char → List Char × List Char
  | '+' :: rest => (['+'], rest)
  | '-' :: rest => (['-'], rest)
  | rest => ([], rest)

def exponent? : List Char → Option (List Char × List Char)
  | [] => some ([], [])
  | c :: rest =>
    if c = 'e' ∨ c = 'E' then
      let (sign, rest) := exponentSign rest
      (digits? rest).map fun (ds, rest) => (c :: sign ++ ds, rest)
    else
      some ([], c :: rest)

/-- The numeral at the front of a text, and what follows it. -/
def read (cs : List Char) : Option (List Char × List Char) := do
  let (minus, cs) := sign cs
  let (whole, cs) ← whole? cs
  let (fraction, cs) ← fraction? cs
  let (exponent, cs) ← exponent? cs
  return (minus ++ whole ++ fraction ++ exponent, cs)

/-! ## A numeral and the rest make up the text -/

theorem digits?_append {cs ds rest : List Char} (hfound : digits? cs = some (ds, rest)) :
    cs = ds ++ rest ∧ ds ≠ [] := by
  have hparts := List.takeWhile_append_dropWhile (p := Char.isDigit) (l := cs)
  simp only [digits?] at hfound
  split at hfound
  · simp at hfound
  · rename_i d more htaken
    simp only [Option.some.injEq, Prod.mk.injEq] at hfound
    rw [htaken] at hparts
    rw [← hfound.1, ← hfound.2, hparts]
    simp

theorem sign_append (cs : List Char) : cs = (sign cs).1 ++ (sign cs).2 := by
  fun_cases sign cs <;> simp

theorem whole?_append {cs ds rest : List Char} (hfound : whole? cs = some (ds, rest)) :
    cs = ds ++ rest ∧ ds ≠ [] := by
  simp only [whole?] at hfound
  split at hfound
  · simp at hfound
  · exact digits?_append hfound

theorem fraction?_append {cs ds rest : List Char} (hfound : fraction? cs = some (ds, rest)) :
    cs = ds ++ rest := by
  fun_cases fraction? cs with
  | case1 more =>
    simp only [fraction?, Option.map_eq_some_iff] at hfound
    obtain ⟨⟨es, left⟩, hinner, heq⟩ := hfound
    simp only [Prod.mk.injEq] at heq
    rw [(digits?_append hinner).1, ← heq.1, ← heq.2, List.cons_append]
  | case2 _ hother =>
    rw [fraction?] at hfound
    · simp only [Option.some.injEq, Prod.mk.injEq] at hfound
      simp [← hfound.1, hfound.2]
    · exact hother

theorem exponentSign_append (cs : List Char) :
    cs = (exponentSign cs).1 ++ (exponentSign cs).2 := by
  fun_cases exponentSign cs <;> simp

theorem exponent?_append {cs ds rest : List Char} (hfound : exponent? cs = some (ds, rest)) :
    cs = ds ++ rest := by
  cases cs with
  | nil =>
    simp only [exponent?, Option.some.injEq, Prod.mk.injEq] at hfound
    simp [← hfound.1, ← hfound.2]
  | cons c more =>
    simp only [exponent?] at hfound
    split at hfound
    · simp only [Option.map_eq_some_iff] at hfound
      obtain ⟨⟨es, left⟩, hinner, heq⟩ := hfound
      simp only [Prod.mk.injEq] at heq
      rw [← heq.1, ← heq.2, List.append_assoc, ← (digits?_append hinner).1, List.cons_append,
        ← exponentSign_append]
    · simp only [Option.some.injEq, Prod.mk.injEq] at hfound
      simp [← hfound.1, hfound.2]

/-- A numeral takes at least one character, and nothing is lost. -/
theorem read_append {cs ds rest : List Char} (hfound : read cs = some (ds, rest)) :
    cs = ds ++ rest ∧ ds ≠ [] := by
  simp only [read, Option.bind_eq_bind, Option.bind_eq_some_iff] at hfound
  obtain ⟨⟨whole, cs₁⟩, hwhole, ⟨fraction, cs₂⟩, hfraction, ⟨exponent, cs₃⟩, hexponent, heq⟩ :=
    hfound
  simp only [pure, Option.some.injEq, Prod.mk.injEq] at heq
  obtain ⟨htaken, hleft⟩ := heq
  -- each part and what follows it make up what followed the part before
  have hsign := sign_append cs
  have hwhole := whole?_append hwhole
  have hfraction : cs₁ = fraction ++ cs₂ := fraction?_append hfraction
  have hexponent : cs₂ = exponent ++ cs₃ := exponent?_append hexponent
  constructor
  · rw [hsign, hwhole.1, hfraction, hexponent, ← htaken, ← hleft]
    simp
  · rw [← htaken]
    simp [hwhole.2]

theorem length_read {cs ds rest : List Char} (hfound : read cs = some (ds, rest)) :
    rest.length < cs.length := by
  obtain ⟨heq, htaken⟩ := read_append hfound
  have hpos : 0 < ds.length := List.length_pos_iff.mpr htaken
  rw [heq, List.length_append]
  omega

end FareGate.Numeral
