/-! # Quoted texts

  A text stands between double quotes. A quote, a backslash and the control
  characters must be escaped; any character may be, by its UTF-16 code units in
  hexadecimal.

  * **Writing** escapes only what must be: by a letter where there is one, else
    by four lower-case digits.
  * **Reading** takes the pieces between the quotes first, and joins surrogate
    halves afterwards. A half that stays alone makes the text unreadable. -/

namespace FareGate.Quoted

/-! ## Hexadecimal digits -/

/-- The lower-case digit for a number below sixteen. -/
def hexDigit (d : Nat) : Char :=
  if d < 10 then Char.ofNat ('0'.toNat + d) else Char.ofNat ('a'.toNat + (d - 10))

/-- The number a hexadecimal digit of either case stands for. -/
def hexValue? (c : Char) : Option Nat :=
  if '0' ≤ c ∧ c ≤ '9' then some (c.toNat - '0'.toNat)
  else if 'a' ≤ c ∧ c ≤ 'f' then some (c.toNat - 'a'.toNat + 10)
  else if 'A' ≤ c ∧ c ≤ 'F' then some (c.toNat - 'A'.toNat + 10)
  else none

def hex4? (a b c d : Char) : Option Nat := do
  let a ← hexValue? a
  let b ← hexValue? b
  let c ← hexValue? c
  let d ← hexValue? d
  return ((a * 16 + b) * 16 + c) * 16 + d

/-! ## Writing -/

/-- A control character, which may not stand in a text as it is. -/
def isControl (c : Char) : Bool := c.toNat < 0x20

/-- The letter that escapes a character, for those that have one. -/
def escapeLetter? (c : Char) : Option Char :=
  if c = '"' then some '"'
  else if c = '\\' then some '\\'
  else if c = '\x08' then some 'b'
  else if c = '\t' then some 't'
  else if c = '\n' then some 'n'
  else if c = '\x0c' then some 'f'
  else if c = '\r' then some 'r'
  else none

def encodeChar (c : Char) : List Char :=
  match escapeLetter? c with
  | some letter => ['\\', letter]
  | none =>
    if isControl c then
      ['\\', 'u', '0', '0', hexDigit (c.toNat / 16), hexDigit (c.toNat % 16)]
    else
      [c]

/-- A text up to its closing quote. An unreadable one is written as the half of
    a surrogate pair, which reads as unreadable again. -/
def encodeBody : Option String → List Char
  | some s => s.toList.flatMap encodeChar ++ ['"']
  | none => ['\\', 'u', 'd', '8', '0', '0', '"']

def encode (text : Option String) : List Char := '"' :: encodeBody text

/-! ## Reading -/

/-- What stands between quotes: a character, or a code unit given by an escape. -/
inductive Piece where
  /-- A character, as it is or by a letter. -/
  | char (c : Char)
  /-- A UTF-16 code unit. -/
  | unit (u : Nat)
deriving DecidableEq

def unescapeLetter? (letter : Char) : Option Char :=
  if letter = '"' then some '"'
  else if letter = '\\' then some '\\'
  else if letter = '/' then some '/'
  else if letter = 'b' then some '\x08'
  else if letter = 'f' then some '\x0c'
  else if letter = 'n' then some '\n'
  else if letter = 'r' then some '\r'
  else if letter = 't' then some '\t'
  else none

/-- The pieces up to the closing quote, and what follows it. -/
def pieces? : List Char → Option (List Piece × List Char)
  | [] => none
  | '"' :: rest => some ([], rest)
  | '\\' :: 'u' :: a :: b :: c :: d :: rest => do
    let u ← hex4? a b c d
    let (ps, rest) ← pieces? rest
    return (.unit u :: ps, rest)
  | '\\' :: letter :: rest => do
    let c ← unescapeLetter? letter
    let (ps, rest) ← pieces? rest
    return (.char c :: ps, rest)
  | c :: rest =>
    if c = '\\' ∨ isControl c then
      none
    else do
      let (ps, rest) ← pieces? rest
      return (.char c :: ps, rest)

/-- The first half of a surrogate pair. -/
def isHighHalf (u : Nat) : Bool := 0xd800 ≤ u && u < 0xdc00

/-- The second half of a surrogate pair. -/
def isLowHalf (u : Nat) : Bool := 0xdc00 ≤ u && u < 0xe000

def joinHalves (high low : Nat) : Char :=
  Char.ofNat (0x10000 + (high - 0xd800) * 0x400 + (low - 0xdc00))

/-- The characters that pieces denote, if each half of a pair has its other
    half right beside it. -/
def join? : List Piece → Option (List Char)
  | [] => some []
  | .char c :: rest => (join? rest).map (c :: ·)
  | .unit high :: .unit low :: rest =>
    if isHighHalf high then
      if isLowHalf low then (join? rest).map (joinHalves high low :: ·) else none
    else if isLowHalf high then none
    else (join? (.unit low :: rest)).map (Char.ofNat high :: ·)
  | .unit u :: rest =>
    if isHighHalf u || isLowHalf u then none else (join? rest).map (Char.ofNat u :: ·)

/-- Reads a text whose opening quote has been taken, and gives what follows. -/
def read (cs : List Char) : Option (Option String × List Char) :=
  (pieces? cs).map fun (ps, rest) => ((join? ps).map String.ofList, rest)

/-! ## Reading takes something -/

theorem length_pieces? {cs rest : List Char} {ps : List Piece}
    (hfound : pieces? cs = some (ps, rest)) : rest.length < cs.length := by
  fun_induction pieces? cs generalizing ps rest with
  | case1 => simp at hfound
  | case2 => simp_all
  | case3 a b c d more ih =>
    simp only [Option.bind_eq_bind, Option.bind_eq_some_iff] at hfound
    obtain ⟨u, _, ⟨qs, left⟩, hinner, heq⟩ := hfound
    simp only [pure, Option.some.injEq, Prod.mk.injEq] at heq
    have hshorter := ih hinner
    simp only [List.length_cons, ← heq.2]
    omega
  | case4 letter more _ ih =>
    simp only [Option.bind_eq_bind, Option.bind_eq_some_iff] at hfound
    obtain ⟨u, _, ⟨qs, left⟩, hinner, heq⟩ := hfound
    simp only [pure, Option.some.injEq, Prod.mk.injEq] at heq
    have hshorter := ih hinner
    simp only [List.length_cons, ← heq.2]
    omega
  | case5 c more _ _ _ _ => simp at hfound
  | case6 c more _ _ _ _ ih =>
    simp only [Option.bind_eq_bind, Option.bind_eq_some_iff] at hfound
    obtain ⟨⟨qs, left⟩, hinner, heq⟩ := hfound
    simp only [pure, Option.some.injEq, Prod.mk.injEq] at heq
    have hshorter := ih hinner
    simp only [List.length_cons, ← heq.2]
    omega

theorem length_read {cs rest : List Char} {text : Option String}
    (hfound : read cs = some (text, rest)) : rest.length < cs.length := by
  simp only [read, Option.map_eq_some_iff] at hfound
  obtain ⟨⟨ps, left⟩, hinner, heq⟩ := hfound
  simp only [Prod.mk.injEq] at heq
  exact heq.2 ▸ length_pieces? hinner

/-! ## Writing, then reading -/

/-- The piece that `pieces?` takes from a character as `encodeChar` writes
    it. -/
def pieceOf (c : Char) : Piece :=
  if escapeLetter? c = none ∧ isControl c then .unit c.toNat else .char c

theorem hex4?_control :
    ∀ n < 0x20, hex4? '0' '0' (hexDigit (n / 16)) (hexDigit (n % 16)) = some n := by
  decide

theorem unescapeLetter?_escapeLetter? {c letter : Char} (hfound : escapeLetter? c = some letter) :
    unescapeLetter? letter = some c ∧ letter ≠ 'u' := by
  simp only [escapeLetter?] at hfound
  repeat'
    split at hfound
    · cases hfound
      subst_vars
      exact ⟨rfl, by decide⟩
  cases hfound

/-- What `encodeChar` writes for a character is read as its `pieceOf`. -/
theorem pieces?_encodeChar (c : Char) (rest : List Char) :
    pieces? (encodeChar c ++ rest) = (pieces? rest).map fun p => (pieceOf c :: p.1, p.2) := by
  unfold encodeChar
  cases hfound : escapeLetter? c with
  | some letter =>
    -- no letter is the `u` that begins a code unit
    obtain ⟨hback, hletter⟩ := unescapeLetter?_escapeLetter? hfound
    simp only [List.cons_append, List.nil_append]
    rw [pieces?]
    · simp only [hback, pieceOf, hfound]
      cases pieces? rest <;> simp
    · intro _ _ _ _ _ heq
      exact absurd heq hletter
  | none =>
    by_cases hcontrol : isControl c
    · -- four digits, which give the code unit back
      have hback := hex4?_control c.toNat (by simpa [isControl] using hcontrol)
      simp only [hcontrol, if_true, List.cons_append, List.nil_append, pieces?, hback, pieceOf,
        hfound, and_self]
      cases pieces? rest <;> simp
    · -- as it is: the characters with a meaning of their own have a letter
      have hquote : c ≠ '"' := by
        rintro rfl
        simp [escapeLetter?] at hfound
      have hbackslash : c ≠ '\\' := by
        rintro rfl
        simp [escapeLetter?] at hfound
      simp only [hcontrol, Bool.false_eq_true, if_false, List.cons_append, List.nil_append]
      rw [pieces?]
      · simp only [hbackslash, hcontrol, Bool.false_eq_true, or_self, if_false, pieceOf, and_false]
        cases pieces? rest <;> simp
      · exact hquote
      · intro a b c d more heq
        exact absurd heq hbackslash
      · intro letter more heq
        exact absurd heq hbackslash

theorem pieces?_encodeChars (cs rest : List Char) :
    pieces? (cs.flatMap encodeChar ++ '"' :: rest) = some (cs.map pieceOf, rest) := by
  induction cs with
  | nil => rfl
  | cons c cs ih =>
    rw [List.flatMap_cons, List.append_assoc, pieces?_encodeChar, ih]
    rfl

/-- The characters are what their pieces are joined to, since none is half of a
    pair. -/
theorem join?_pieceOf (cs : List Char) : join? (cs.map pieceOf) = some cs := by
  induction cs with
  | nil => rfl
  | cons c cs ih =>
    simp only [List.map_cons, pieceOf]
    split
    · -- a control character is no half of a pair
      rename_i hunit
      have hsmall : c.toNat < 0x20 := by simpa [isControl] using hunit.2
      have hhigh : isHighHalf c.toNat = false := by simp [isHighHalf]; omega
      have hlow : isLowHalf c.toNat = false := by simp [isLowHalf]; omega
      have hback : Char.ofNat c.toNat = c := Char.ofNat_toNat c
      cases hmore : cs.map pieceOf with
      | nil => simp_all [join?]
      | cons p ps =>
        rw [hmore] at ih
        cases p with
        | char d =>
          simp only [join?, hhigh, hlow, Bool.or_self, Bool.false_eq_true, if_false] at ih ⊢
          rw [ih, hback]
          rfl
        | unit u =>
          simp only [join?, hhigh, hlow, Bool.false_eq_true, if_false, ih, hback]
          rfl
    · simp [join?, ih]

/-- What `encodeBody` writes is read back, whatever follows it. -/
@[simp] theorem read_encodeBody (text : Option String) (rest : List Char) :
    read (encodeBody text ++ rest) = some (text, rest) := by
  cases text with
  | none => rfl
  | some s =>
    simp only [encodeBody, read, List.append_assoc, List.cons_append, List.nil_append,
      pieces?_encodeChars, Option.map_some, join?_pieceOf, String.ofList_toList]

end FareGate.Quoted
