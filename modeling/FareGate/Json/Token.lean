import FareGate.Json
import FareGate.Json.Numeral
import FareGate.Json.Quoted

/-! # Tokens

  The words of a JSON text: brackets, commas, colons, the three keywords,
  numerals and quoted texts. Blanks may stand between any two of them.

  * **Writing**: `Token.spell` spells one token, `Json.tokens` gives the tokens
    of a value without any blanks.
  * **Reading**: `Token.read?` takes one token from the front of a text,
    `Token.readAll?` a whole text. -/

namespace FareGate

/-- One word of a JSON text. -/
inductive Token where
  | openArray
  | closeArray
  | openObject
  | closeObject
  | comma
  | colon
  | null
  | bool (b : Bool)
  /-- A numeral, by its spelling. -/
  | number (literal : String)
  /-- A quoted text, if it denotes a string. -/
  | string (text : Option String)
deriving DecidableEq

namespace Token

/-! ## Writing -/

def spell : Token → List Char
  | openArray => ['[']
  | closeArray => [']']
  | openObject => ['\x7b']
  | closeObject => ['\x7d']
  | comma => [',']
  | colon => [':']
  | null => ['n', 'u', 'l', 'l']
  | bool true => ['t', 'r', 'u', 'e']
  | bool false => ['f', 'a', 'l', 's', 'e']
  | number literal => literal.toList
  | string text => Quoted.encode text

/-! ## Reading -/

/-- A character that may stand between tokens: a space, a tab, a line feed or
    a carriage return. -/
def isBlank (c : Char) : Bool := c = ' ' || c = '\t' || c = '\n' || c = '\r'

/-- The token at the front of a text, and what follows it. -/
def read? : List Char → Option (Token × List Char)
  | '[' :: rest => some (openArray, rest)
  | ']' :: rest => some (closeArray, rest)
  | '\x7b' :: rest => some (openObject, rest)
  | '\x7d' :: rest => some (closeObject, rest)
  | ',' :: rest => some (comma, rest)
  | ':' :: rest => some (colon, rest)
  | '"' :: rest => (Quoted.read rest).map fun (text, rest) => (string text, rest)
  | 'n' :: 'u' :: 'l' :: 'l' :: rest => some (null, rest)
  | 't' :: 'r' :: 'u' :: 'e' :: rest => some (bool true, rest)
  | 'f' :: 'a' :: 'l' :: 's' :: 'e' :: rest => some (bool false, rest)
  | cs => (Numeral.read cs).map fun (literal, rest) => (number (String.ofList literal), rest)

theorem length_read? {cs rest : List Char} {t : Token} (hfound : read? cs = some (t, rest)) :
    rest.length < cs.length := by
  -- all tokens but texts and numerals are read from fixed characters
  fun_cases read? cs
  case case7 more =>
    simp only [read?, Option.map_eq_some_iff, Prod.mk.injEq] at hfound
    obtain ⟨⟨text, left⟩, hinner, _, rfl⟩ := hfound
    have hshorter := Quoted.length_read hinner
    simp only [List.length_cons]
    omega
  case case11 =>
    rw [read?] at hfound <;> try assumption
    simp only [Option.map_eq_some_iff, Prod.mk.injEq] at hfound
    obtain ⟨⟨literal, left⟩, hinner, _, rfl⟩ := hfound
    exact Numeral.length_read hinner
  all_goals
    simp only [read?, Option.some.injEq, Prod.mk.injEq] at hfound
    simp only [← hfound.2, List.length_cons]
    omega

theorem length_read?_of_blanks {cs rest more : List Char} {c : Char} {t : Token}
    (hskipped : cs.dropWhile isBlank = c :: more) (hfound : read? (c :: more) = some (t, rest)) :
    rest.length < cs.length := by
  have hshorter := length_read? hfound
  have hskip := (List.dropWhile_sublist isBlank (l := cs)).length_le
  rw [hskipped] at hskip
  omega

/-- The tokens of a whole text, with any blanks around them. -/
def readAll? (cs : List Char) : Option (List Token) :=
  match hskipped : cs.dropWhile isBlank with
  | [] => some []
  | c :: more =>
    match hfound : read? (c :: more) with
    | none => none
    | some (t, rest) =>
      have := length_read?_of_blanks hskipped hfound
      (readAll? rest).map (t :: ·)
termination_by cs.length

end Token

/-! ## The tokens of a value -/

namespace Json

mutual
def tokens : Json → List Token
  | null => [.null]
  | bool b => [.bool b]
  | number literal => [.number literal]
  | string text => [.string text]
  | array items => .openArray :: itemTokens items
  | object members => .openObject :: memberTokens members

/-- The tokens of the items of an array, with the bracket that closes it. -/
def itemTokens : List Json → List Token
  | [] => [.closeArray]
  | [j] => j.tokens ++ [.closeArray]
  | j :: rest => j.tokens ++ .comma :: itemTokens rest

/-- The tokens of the members of an object, with the brace that closes it. -/
def memberTokens : List (Option String × Json) → List Token
  | [] => [.closeObject]
  | [(key, j)] => .string key :: .colon :: j.tokens ++ [.closeObject]
  | (key, j) :: rest => .string key :: .colon :: j.tokens ++ .comma :: memberTokens rest
end

/-- The text of a value, without blanks. -/
def compact (j : Json) : String := String.ofList (j.tokens.flatMap Token.spell)

end Json

end FareGate
