import FareGate.Json.Reading
import FareGate.Json.Shape
import FareGate.Vocabulary

/-! # JSON forms

  The form of a type says how its values are written as JSON and which JSON is
  read as one of them. A value has one written form; reading admits more, such
  as blanks, other escapes and parts in another order.

  Here stand the forms of named values, inputs and lists; the other types have
  modules of their own. -/

namespace FareGate

/-- A type whose values are written as JSON. -/
class Form (α : Type) where
  /-- The written form of a value. -/
  encode : α → Json
  /-- The value that JSON stands for, if it stands for one. -/
  decode? : Json → Option α

namespace Form

def write {α : Type} [Form α] (a : α) : String := (encode a).compact

/-- The value that a text stands for. -/
def read? {α : Type} [Form α] (text : String) : Option α := Json.parse? text >>= decode?

/-! ## Named values -/

def encodeName {α : Type} [Named α] (a : α) : Json := .ofString (Named.name a)

def decodeName? {α : Type} [Named α] (j : Json) : Option α := j.bareTag? >>= ofName?

instance : Form State := ⟨encodeName, decodeName?⟩
instance : Form Event := ⟨encodeName, decodeName?⟩
instance : Form Action := ⟨encodeName, decodeName?⟩
instance : Form Outcome := ⟨encodeName, decodeName?⟩
instance : Form Lamp := ⟨encodeName, decodeName?⟩

@[simp] theorem decodeName?_encodeName {α : Type} [Named α] [LawfulNamed α] (a : α) :
    decodeName? (encodeName a) = some a := by
  simp [decodeName?, encodeName, Json.bareTag?, Json.tagged?, Json.ofString]

/-! ## Lists -/

/-- A list is written as an array. -/
instance {α : Type} [Form α] : Form (List α) where
  encode as := .array (as.map encode)
  decode? := Json.items? decode?

theorem decode?_encode_list {α : Type} [Form α] (as : List α)
    (hback : ∀ a ∈ as, decode? (encode a) = some a) : decode? (encode as) = some as := by
  simp only [decode?, encode, Json.items?]
  induction as with
  | nil => rfl
  | cons a rest ih =>
    have hhead := hback a (by simp)
    have htail := ih fun b hb => hback b (by simp [hb])
    simp [List.mapM_cons, hhead, htail]

/-! ## Inputs -/

/-- An event is written under the tag `Event`, a reset as its name. -/
instance : Form Input where
  encode
    | .event e => .ofFields [("Event", encode e)]
    | .reset => .ofString "Reset"
  decode? j :=
    match j.tagged? with
    | some ("Event", some content) => (decode? content).map Input.event
    | some ("Reset", none) => some .reset
    | some ("Reset", some .null) => some .reset
    | _ => none

end Form

end FareGate
