import FareGate.Json

/-! # Shapes of JSON values

  Two shapes come again and again in the forms of domain values:

  * **Tagged**: a choice by name, written as the bare name, or as an object
    whose only key is the name and whose value is the content of the choice.
  * **Fields**: a value with named parts, written as an object with the parts in
    any order, or as an array of the parts in their usual order.

  An object may have members beside the known ones, which do not count. A known
  key that comes twice is refused, and so is a key that denotes no string. -/

namespace FareGate.Json

/-! ## Tagged -/

/-- The name of a choice, and its content if it is written with one. -/
def tagged? : Json → Option (String × Option Json)
  | string (some name) => some (name, none)
  | object [(some name, content)] => some (name, some content)
  | _ => none

/-- The name of a choice that has no content, which may be written as such. -/
def bareTag? (j : Json) : Option String :=
  match j.tagged? with
  | some (name, none) => some name
  | some (name, some null) => some name
  | _ => none

/-! ## Fields -/

def occurrences (key : String) (members : List (Option String × Json)) : Nat :=
  members.countP fun m => m.1 = some key

/-- The named parts of a value: which part, if any, stands for each name. -/
def fields? (names : List String) : Json → Option (String → Option Json)
  | object members =>
    if members.all (fun m => m.1.isSome) ∧ names.all (fun n => occurrences n members ≤ 1) then
      some fun name => (members.find? fun m => m.1 = some name).map fun m => m.2
    else
      none
  | array items =>
    if items.length ≤ names.length then
      some fun name => items[names.idxOf name]?
    else
      none
  | _ => none

def items? {α : Type} (read : Json → Option α) : Json → Option (List α)
  | array items => items.mapM read
  | _ => none

def string? : Json → Option String
  | string text => text
  | _ => none

end FareGate.Json
