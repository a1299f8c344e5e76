import FareGate.Proofs.Form.Spellings

/-! # A name means the same wherever it is read

  Named values are read in two places: from a bare text, and from JSON, where a
  text stands between quotes and may be escaped. They are shown in two places as
  well. All four agree:

  * **Shown** as a text, a value is its name; written as JSON, it is its name in
    quotes.
  * **Read** from a text or from any quoted text that denotes it, a value is the
    one whose name it is.
  * A text that is **no name** is refused in both places, and reported as it was
    offered.

  Both readers look a name up with `ofName?`: `ofName` in the bare text, and
  `decodeName?` in the string that it takes out of JSON. So it is enough that
  every quoted text of a string is read as that string. -/

namespace FareGate

theorem Json.spelledBy_quoted {s : String} {body : List Char}
    (hbody : Quoted.Denotes body s.toList) :
    (Json.ofString s).SpelledBy (String.ofList ('"' :: (body ++ ['"']))) := by
  have hblanks : ∀ c ∈ ([] : List Char), Token.isBlank c := by simp
  have hlaid : Token.Laid Token.Spelled [.string (some s)]
      ([] ++ ('"' :: (body ++ ['"']) ++ [])) :=
    .next hblanks (.text hbody) (.done hblanks)
  rw [List.nil_append, List.append_nil] at hlaid
  rw [SpelledBy, String.toList_ofList]
  exact hlaid

namespace Form

/-- **Agreement** on the names of a type, where a text that is no name is
    reported by `unknown`. -/
structure NamesAgree (α : Type) [Readable α] [ToString α] [Form α]
    (unknown : String → NameError) : Prop where
  /-- No two values share a name. -/
  distinct : ∀ a b : α, Named.name a = Named.name b → a = b
  shown : ∀ a : α, toString a = Named.name a
  written : ∀ a : α, write a = "\"" ++ Named.name a ++ "\""
  /-- A value is read from its name and from no other text. -/
  read : ∀ (s : String) (a : α), ofName s = .ok a ↔ s = Named.name a
  /-- It is decoded from its name in any spelling, and from no other string. -/
  decoded : ∀ {text s : String} (a : α), (Json.ofString s).SpelledBy text →
    (read? text = some a ↔ s = Named.name a)
  /-- What is no name is reported unchanged, and not decoded from any spelling. -/
  refused : ∀ s : String, (∀ a : α, Named.name a ≠ s) →
    ofName s = (.error (unknown s) : Except NameError α) ∧
      ∀ text, (Json.ofString s).SpelledBy text → (read? text : Option α) = none

section agreement
variable {α : Type} [Readable α] [Form α]

theorem read?_of_spelledBy_string (hdecode : (decode? : Json → Option α) = decodeName?)
    {text s : String} (htext : (Json.ofString s).SpelledBy text) :
    (read? text : Option α) = ofName? s := by
  rw [read?_of_spelledBy htext, hdecode]
  rfl

/-- Names agree where `decode?` is `decodeName?`. -/
theorem namesAgree_of_name [LawfulNamed α] [ToString α]
    (hshown : ∀ a : α, toString a = Named.name a)
    (hwritten : ∀ a : α, write a = "\"" ++ Named.name a ++ "\"")
    (hdecode : (decode? : Json → Option α) = decodeName?) :
    NamesAgree α (Readable.unknown α) where
  distinct := LawfulNamed.name_injective
  shown := hshown
  written := hwritten
  read s a := by
    rw [ofName_eq_ok_iff, eq_comm]
  decoded a htext := by
    rw [read?_of_spelledBy_string hdecode htext, ofName?_eq_some_iff, eq_comm]
  refused s hnone := by
    refine ⟨(ofName_eq_error_iff s _).mpr ⟨hnone, rfl⟩, fun text htext => ?_⟩
    rw [read?_of_spelledBy_string hdecode htext, Option.eq_none_iff_forall_ne_some]
    intro a ha
    exact hnone a ((ofName?_eq_some_iff s a).mp ha)

end agreement

/-- **Names mean the same everywhere.** For states, events, actions and lamps, a
    text is read as a value if and only if it is the value's name, and this
    holds if and only if the value is decoded from any JSON text that spells it
    (`Json.SpelledBy`), in whatever way it is escaped. A text that is no name is
    not decoded, and is reported as it was offered, as an unknown name of its
    kind. The names are different from one another, and are what is shown and
    written. -/
theorem names_agree :
    NamesAgree State .unknownState ∧ NamesAgree Event .unknownEvent ∧
      NamesAgree Action .unknownAction ∧ NamesAgree Lamp .unknownAction := by
  refine ⟨namesAgree_of_name (fun _ => rfl) ?_ rfl, namesAgree_of_name (fun _ => rfl) ?_ rfl,
    namesAgree_of_name (fun _ => rfl) ?_ rfl, namesAgree_of_name (fun _ => rfl) ?_ rfl⟩
  · intro s
    cases s <;> decide
  · intro e
    cases e <;> decide
  · intro a
    cases a <;> decide
  · intro l
    cases l <;> decide

/-- A state is read from its name with the first letter escaped, and not from a
    text in small letters. A colour is written in quotes, and one that no lamp
    has is reported as an unknown action. -/
theorem escapedNames_read :
    (Json.ofString "Locked").SpelledBy "\"\\u004cocked\"" ∧
      read? "\"\\u004cocked\"" = some State.locked ∧ ofName "Locked" = .ok State.locked ∧
      ofName "locked" = (.error (.unknownState "locked") : Except NameError State) ∧
      (read? (Json.ofString "locked").compact : Option State) = none ∧
      write Lamp.darkBlue = "\"DarkBlue\"" ∧
      ofName "Blue" = (.error (.unknownAction "Blue") : Except NameError Lamp) := by
  have hletter : Quoted.Spells ['\\', 'u', '0', '0', '4', 'c'] 'L' := .unit (by decide)
  have hbody : Quoted.Denotes ['\\', 'u', '0', '0', '4', 'c', 'o', 'c', 'k', 'e', 'd']
      ['L', 'o', 'c', 'k', 'e', 'd'] :=
    .cons hletter (Quoted.denotes_encodeChars ['o', 'c', 'k', 'e', 'd'])
  have hchars : "Locked".toList = ['L', 'o', 'c', 'k', 'e', 'd'] := by decide
  rw [← hchars] at hbody
  have hescaped : (Json.ofString "Locked").SpelledBy "\"\\u004cocked\"" :=
    Json.spelledBy_quoted hbody
  have hsmall : (Json.ofString "locked").SpelledBy (Json.ofString "locked").compact :=
    Json.spelledBy_compact (Json.wellSpelled_ofString _) (by decide)
  obtain ⟨hstate, -, -, hlamp⟩ := names_agree
  obtain ⟨hreported, hrefused⟩ := hstate.refused "locked" (by intro s; cases s <;> decide)
  refine ⟨hescaped, (hstate.decoded _ hescaped).mpr rfl, (hstate.read _ _).mpr rfl, hreported,
    hrefused _ hsmall, hlamp.written _, ?_⟩
  exact (hlamp.refused "Blue" (by intro l; cases l <;> decide)).1

end Form

end FareGate
