import FareGate.Json.Token

/-! # Reading a value

  A value is put together token by token. Between two tokens the reader knows
  which brackets are open, what has been read inside each, and what may come
  next:

  * **Frame**: an open bracket with the part of its content that is complete.
  * **Reading**: what may come next, within the frames around it.
  * **Reading.step**: what one token makes of that, or a refusal.

  The tokens of a value lead from "a value must come" to "this value has been
  read" (`steps_tokens`), so reading undoes writing. -/

namespace FareGate.Json

/-- An open bracket, and what has been read inside it, newest first. -/
inductive Frame where
  /-- An array, and its items before the current one. -/
  | array (items : List Json)
  /-- An object, its members before the current one, and the current key. -/
  | object (members : List (Option String × Json)) (key : Option String)

/-- How far a reader has got, with the frames around it, innermost first. -/
inductive Reading where
  /-- A value must come. -/
  | value (outer : List Frame)
  /-- An array has just been opened: a value or the closing bracket must come. -/
  | firstItem (outer : List Frame)
  /-- An object has just been opened: a key or the closing brace must come. -/
  | firstKey (outer : List Frame)
  /-- After a comma in an object: a key must come. -/
  | key (members : List (Option String × Json)) (outer : List Frame)
  /-- After a key: a colon must come. -/
  | colon (members : List (Option String × Json)) (key : Option String) (outer : List Frame)
  /-- A value has been read. -/
  | finished (j : Json) (outer : List Frame)

namespace Reading

/-- What a token makes of a place where a value must come. -/
def begin? (outer : List Frame) : Token → Option Reading
  | .null => some (finished .null outer)
  | .bool b => some (finished (.bool b) outer)
  | .number literal => some (finished (.number literal) outer)
  | .string text => some (finished (.string text) outer)
  | .openArray => some (firstItem outer)
  | .openObject => some (firstKey outer)
  | _ => none

/-- What a token makes of a value that has been read: it closes the innermost
    bracket, or a comma asks for more. -/
def continue? (j : Json) : List Frame → Token → Option Reading
  | .array items :: outer, .comma => some (value (.array (j :: items) :: outer))
  | .array items :: outer, .closeArray => some (finished (.array (j :: items).reverse) outer)
  | .object members k :: outer, .comma => some (key ((k, j) :: members) outer)
  | .object members k :: outer, .closeObject =>
    some (finished (.object ((k, j) :: members).reverse) outer)
  | _, _ => none

/-- What one token makes of a reading. -/
def step : Reading → Token → Option Reading
  | value outer, t => begin? outer t
  | firstItem outer, .closeArray => some (finished (.array []) outer)
  | firstItem outer, t => begin? (.array [] :: outer) t
  | firstKey outer, .closeObject => some (finished (.object []) outer)
  | firstKey outer, .string k => some (colon [] k outer)
  | key members outer, .string k => some (colon members k outer)
  | colon members k outer, .colon => some (value (.object members k :: outer))
  | finished j outer, t => continue? j outer t
  | _, _ => none

def steps (ts : List Token) (r : Reading) : Option Reading := ts.foldlM step r

/-- The value that has been read, once every bracket is closed. -/
def result? : Reading → Option Json
  | finished j [] => some j
  | _ => none

end Reading

/-- The value that a text denotes. -/
def parse? (text : String) : Option Json := do
  let ts ← Token.readAll? text.toList
  let r ← Reading.steps ts (.value [])
  r.result?

/-! ## The tokens of a value are read as that value -/

namespace Reading

@[simp] theorem steps_nil (r : Reading) : steps [] r = some r := rfl

@[simp] theorem steps_cons (t : Token) (ts : List Token) (r : Reading) :
    steps (t :: ts) r = (r.step t).bind (steps ts) := rfl

theorem steps_append (first second : List Token) (r : Reading) :
    steps (first ++ second) r = (steps first r).bind (steps second) :=
  List.foldlM_append

theorem steps_firstItem (item : Json) (rest : List Json) (outer : List Frame) :
    steps (itemTokens (item :: rest)) (firstItem outer) =
      steps (itemTokens (item :: rest)) (value (.array [] :: outer)) := by
  cases rest <;> cases item <;> rfl

mutual
/-- From `value`, where a value must come, the tokens of a value lead to
    `finished`. -/
theorem steps_tokens (j : Json) (outer : List Frame) :
    steps j.tokens (value outer) = some (finished j outer) := by
  match j with
  | .null => rfl
  | .bool b => rfl
  | .number literal => rfl
  | .string text => rfl
  | .array [] => rfl
  | .array (item :: rest) =>
    simp only [tokens, steps_cons, step, begin?, Option.bind_some]
    rw [steps_firstItem, steps_itemTokens]
    rfl
  | .object [] => rfl
  | .object ((k, item) :: rest) =>
    simp only [tokens, steps_cons, step, begin?, Option.bind_some]
    -- a brace that has just been opened takes a key as one that goes on
    rw [show steps (memberTokens ((k, item) :: rest)) (firstKey outer) =
      steps (memberTokens ((k, item) :: rest)) (key [] outer) by cases rest <;> rfl]
    rw [steps_memberTokens]
    rfl
termination_by sizeOf j

/-- From `value` inside an array, the tokens of items fill and close the
    array. -/
theorem steps_itemTokens (item : Json) (rest : List Json) (items : List Json)
    (outer : List Frame) :
    steps (itemTokens (item :: rest)) (value (.array items :: outer)) =
      some (finished (.array (items.reverse ++ item :: rest)) outer) := by
  match rest with
  | [] =>
    rw [itemTokens, steps_append, steps_tokens item]
    simp [step, continue?]
  | next :: rest =>
    rw [itemTokens, steps_append, steps_tokens item]
    · simp only [Option.bind_some, steps_cons, step, continue?]
      rw [steps_itemTokens next rest]
      simp
    · simp
termination_by sizeOf (item :: rest)

/-- From `key`, the tokens of members fill and close the object. -/
theorem steps_memberTokens (k : Option String) (item : Json)
    (rest : List (Option String × Json)) (members : List (Option String × Json))
    (outer : List Frame) :
    steps (memberTokens ((k, item) :: rest)) (key members outer) =
      some (finished (.object (members.reverse ++ (k, item) :: rest)) outer) := by
  match rest with
  | [] =>
    rw [memberTokens]
    simp only [List.cons_append, steps_cons, step, Option.bind_some]
    rw [steps_append, steps_tokens item]
    simp [step, continue?]
  | (k', next) :: rest =>
    rw [memberTokens]
    · simp only [List.cons_append, steps_cons, step, Option.bind_some]
      rw [steps_append, steps_tokens item]
      simp only [Option.bind_some, steps_cons, step, continue?]
      rw [steps_memberTokens k' next rest]
      simp
    · simp
termination_by sizeOf ((k, item) :: rest)
end

end Reading

end FareGate.Json
