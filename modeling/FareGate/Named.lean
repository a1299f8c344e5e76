/-! # Named values

  Finite types whose values are known by a fixed text:

  * **Named**: the values in declaration order, each with its name.
  * **Reading a name**: `ofName?` finds the value that carries exactly this
    name; letter case and blanks count.
  * **Name errors**: the kinds of name that a caller can get wrong, each with
    the text that was offered. -/

namespace FareGate

/-! ## Name errors -/

/-- A text that names nothing of the kind it was read as. -/
inductive NameError where
  | unknownState (text : String)
  | unknownEvent (text : String)
  | unknownAction (text : String)
deriving DecidableEq

/-- The wording of a name error: the kind of name, then the text offered in
    single quotes. -/
def NameError.message : NameError → String
  | .unknownState text => "Unknown turnstile state '" ++ text ++ "'"
  | .unknownEvent text => "Unknown turnstile event '" ++ text ++ "'"
  | .unknownAction text => "Unknown turnstile action '" ++ text ++ "'"

/-! ## Types with names -/

/-- A type whose values are listed in declaration order and carry names. -/
class Named (α : Type) where
  /-- Every value, in declaration order. -/
  all : List α
  /-- The name a value is written with. -/
  name : α → String

/-- A named type that says which error an unknown name is. -/
class Readable (α : Type) extends Named α where
  /-- The error for a text that is no value's name. -/
  unknown : String → NameError

/-- A named type in which every value is listed and no two share a name. -/
class LawfulNamed (α : Type) [Named α] : Prop where
  mem_all : ∀ a : α, a ∈ Named.all (α := α)
  /-- A name belongs to one value only. -/
  name_injective : ∀ a b : α, Named.name a = Named.name b → a = b

/-- The value that carries exactly this name. -/
def ofName? {α : Type} [Named α] (text : String) : Option α :=
  Named.all.find? fun a => Named.name a == text

/-- Reads a name by `ofName?`, or reports the text as `unknown`. -/
def ofName {α : Type} [Readable α] (text : String) : Except NameError α :=
  match ofName? text with
  | some a => .ok a
  | none => .error (Readable.unknown α text)

/-! ## Reading undoes naming -/

/-- A value is found by `ofName?` exactly if the text is its name. -/
theorem ofName?_eq_some_iff {α : Type} [Named α] [LawfulNamed α]
    (text : String) (a : α) : ofName? text = some a ↔ Named.name a = text := by
  constructor
  · intro hfound
    simpa using List.find?_some hfound
  · intro hnamed
    subst hnamed
    cases hfound : ofName? (α := α) (Named.name a) with
    | some b =>
      have hsame : Named.name b = Named.name a := by simpa using List.find?_some hfound
      rw [LawfulNamed.name_injective b a hsame]
    | none =>
      -- the value itself would have been found
      have habsent := List.find?_eq_none.mp hfound a (LawfulNamed.mem_all a)
      simp at habsent

@[simp] theorem ofName?_name {α : Type} [Named α] [LawfulNamed α] (a : α) :
    ofName? (Named.name a) = some a :=
  (ofName?_eq_some_iff _ _).mpr rfl

theorem ofName_eq_ok_iff {α : Type} [Readable α] [LawfulNamed α] (text : String) (a : α) :
    ofName text = .ok a ↔ Named.name a = text := by
  rw [← ofName?_eq_some_iff, ofName]
  cases ofName? (α := α) text <;> simp

/-- Only a text that is no value's name is reported, and it is reported as it
    was offered. -/
theorem ofName_eq_error_iff {α : Type} [Readable α] [LawfulNamed α] (text : String)
    (e : NameError) :
    (ofName text : Except NameError α) = .error e ↔
      (∀ a : α, Named.name a ≠ text) ∧ e = Readable.unknown α text := by
  have hfound : ∀ a : α, Named.name a ≠ text ↔ ofName? text ≠ some a := fun a =>
    not_congr (ofName?_eq_some_iff text a).symm
  simp only [hfound, ← Option.eq_none_iff_forall_ne_some, ofName]
  cases ofName? (α := α) text <;> simp [eq_comm]

end FareGate
