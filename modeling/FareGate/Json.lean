/-! # JSON values

  A JSON value as a tree. Two things are kept just as they were written, since
  a reader that skips a value must not judge them:

  * **Numbers** keep their spelling.
  * **Texts** may be unreadable: an escape can name one half of a surrogate
    pair without the other, and such a text denotes no string. It is `none`.

  Members of an object keep their order, and a key may come more than once. -/

namespace FareGate

/-- A JSON value. -/
inductive Json where
  /-- The word `null`. -/
  | null
  /-- The word `true` or `false`. -/
  | bool (b : Bool)
  /-- A number, by its spelling. -/
  | number (literal : String)
  /-- A text, if it denotes a string. -/
  | string (text : Option String)
  /-- Values in order. -/
  | array (items : List Json)
  /-- Keys with their values, in order. -/
  | object (members : List (Option String × Json))
deriving Inhabited

namespace Json

def ofString (s : String) : Json := string (some s)

def ofFields (fields : List (String × Json)) : Json :=
  object (fields.map fun (key, value) => (some key, value))

end Json

end FareGate
