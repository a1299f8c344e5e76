import FareGate.Proofs.Json.Spelling

/-! # The grammar of JSON texts

  Which texts spell a value, said without the reader:

  * **Denoting** (`Quoted.Denotes`): what stands between quotes, character by
    character. A character can stand for itself, or be escaped by a letter, by
    its code unit or by the two halves of its surrogate pair.
  * **Spelled** values (`Json.SpelledBy`): the tokens of a value in order, each
    of them spelled in any of these ways, and any blanks.

  The reader takes every such text for the value. -/

namespace FareGate

/-! ## Quoted texts -/

namespace Quoted

/-- **Spellings** of a character between quotes. -/
inductive Spells : List Char → Char → Prop where
  /-- The character itself, unless it must be escaped. -/
  | plain {c : Char} (hquote : c ≠ '"') (hbackslash : c ≠ '\\') (hcontrol : isControl c = false) :
      Spells [c] c
  /-- A letter that stands for it. -/
  | letter {letter c : Char} (hletter : unescapeLetter? letter = some c) : Spells ['\\', letter] c
  /-- Its UTF-16 code unit. -/
  | unit {c x₁ x₂ x₃ x₄ : Char} (hunit : hex4? x₁ x₂ x₃ x₄ = some c.toNat) :
      Spells ['\\', 'u', x₁, x₂, x₃, x₄] c
  /-- Its two UTF-16 code units, if it has two. -/
  | pair {c x₁ x₂ x₃ x₄ y₁ y₂ y₃ y₄ : Char} {high low : Nat}
      (hhigh : hex4? x₁ x₂ x₃ x₄ = some high) (hlow : hex4? y₁ y₂ y₃ y₄ = some low)
      (hhighHalf : isHighHalf high) (hlowHalf : isLowHalf low)
      (hc : c.toNat = 0x10000 + (high - 0xd800) * 0x400 + (low - 0xdc00)) :
      Spells ['\\', 'u', x₁, x₂, x₃, x₄, '\\', 'u', y₁, y₂, y₃, y₄] c

/-- What stands between quotes **denotes** characters, one after the other. -/
inductive Denotes : List Char → List Char → Prop where
  | nil : Denotes [] []
  | cons {spelling body cs : List Char} {c : Char} (hc : Spells spelling c)
      (rest : Denotes body cs) : Denotes (spelling ++ body) (c :: cs)

/-- No character is half of a surrogate pair. -/
theorem toNat_not_half (c : Char) : isHighHalf c.toNat = false ∧ isLowHalf c.toNat = false := by
  have hvalid : c.toNat.isValidChar := c.valid
  simp only [Nat.isValidChar] at hvalid
  constructor
  · simp only [isHighHalf, Bool.and_eq_false_iff, decide_eq_false_iff_not]
    omega
  · simp only [isLowHalf, Bool.and_eq_false_iff, decide_eq_false_iff_not]
    omega

theorem join?_unit (c : Char) (more : List Piece) :
    join? (.unit c.toNat :: more) = (join? more).map (c :: ·) := by
  obtain ⟨hhigh, hlow⟩ := toNat_not_half c
  have hback : Char.ofNat c.toNat = c := Char.ofNat_toNat c
  cases more with
  | nil => simp [join?, hhigh, hlow, hback]
  | cons p rest => cases p <;> simp [join?, hhigh, hlow, hback]

/-- `Quoted.pieces?` takes some pieces for a spelling, and `Quoted.join?` joins
    them to the character, whatever follows. -/
theorem Spells.pieces {spelling : List Char} {c : Char} (hc : Spells spelling c) :
    ∃ ps : List Piece,
      (∀ rest, pieces? (spelling ++ rest) = (pieces? rest).map fun p => (ps ++ p.1, p.2)) ∧
      ∀ more, join? (ps ++ more) = (join? more).map (c :: ·) := by
  cases hc with
  | plain hquote hbackslash hcontrol =>
    refine ⟨[.char c], fun rest => ?_, fun more => by simp [join?]⟩
    rw [List.cons_append, List.nil_append, pieces?]
    · simp only [hbackslash, hcontrol, Bool.false_eq_true, or_self, if_false]
      cases pieces? rest <;> simp
    · exact hquote
    · intro _ _ _ _ _ heq
      exact absurd heq hbackslash
    · intro _ _ heq
      exact absurd heq hbackslash
  | @letter l c hletter =>
    refine ⟨[.char c], fun rest => ?_, fun more => by simp [join?]⟩
    have hu : l ≠ 'u' := by
      rintro rfl
      cases hletter
    rw [List.cons_append, List.cons_append, List.nil_append, pieces?]
    · cases pieces? rest <;> simp [hletter]
    · intro _ _ _ _ _ heq
      exact absurd heq hu
  | unit hunit =>
    refine ⟨[.unit c.toNat], fun rest => ?_, join?_unit c⟩
    simp only [List.cons_append, List.nil_append, pieces?, hunit]
    cases pieces? rest <;> simp
  | @pair c x₁ x₂ x₃ x₄ y₁ y₂ y₃ y₄ high low hhigh hlow hhighHalf hlowHalf hc =>
    refine ⟨[.unit high, .unit low], fun rest => ?_, fun more => ?_⟩
    · simp only [List.cons_append, List.nil_append, pieces?, hhigh, hlow]
      cases pieces? rest <;> simp
    · have hjoin : joinHalves high low = c := by
        rw [joinHalves, ← hc]
        exact Char.ofNat_toNat c
      simp [join?, hhighHalf, hlowHalf, hjoin]

/-- A text is read by `Quoted.read` from all that denotes it. -/
theorem Denotes.read {body cs : List Char} (h : Denotes body cs) (rest : List Char) :
    read (body ++ '"' :: rest) = some (some (String.ofList cs), rest) := by
  have hpieces : ∃ ps, pieces? (body ++ '"' :: rest) = some (ps, rest) ∧ join? ps = some cs := by
    induction h with
    | nil => exact ⟨[], rfl, rfl⟩
    | cons hc _ ih =>
      obtain ⟨ps, hread, hjoin⟩ := ih
      obtain ⟨first, hfirst, hfirstJoin⟩ := hc.pieces
      refine ⟨first ++ ps, ?_, ?_⟩
      · rw [List.append_assoc, hfirst, hread, Option.map_some]
      · rw [hfirstJoin, hjoin, Option.map_some]
  obtain ⟨ps, hread, hjoin⟩ := hpieces
  rw [Quoted.read, hread]
  simp [hjoin]

theorem spells_encodeChar (c : Char) : Spells (encodeChar c) c := by
  unfold encodeChar
  split
  · rename_i letter hletter
    exact .letter (unescapeLetter?_escapeLetter? hletter).1
  · rename_i hnone
    split
    · rename_i hcontrol
      exact .unit (hex4?_control c.toNat (by simpa [isControl] using hcontrol))
    · rename_i hcontrol
      refine .plain ?_ ?_ (by simpa using hcontrol)
      · rintro rfl
        cases hnone
      · rintro rfl
        cases hnone

theorem denotes_encodeChars (cs : List Char) : Denotes (cs.flatMap encodeChar) cs := by
  induction cs with
  | nil => exact .nil
  | cons c rest ih => exact .cons (spells_encodeChar c) ih

end Quoted

/-! ## Tokens and values -/

namespace Token

/-- **Spellings** of a token in the grammar. A text that denotes no string has
    none. -/
inductive Spelled : Token → List Char → Prop where
  | number {literal : String} (h : Numeral.Formed literal.toList) :
      Spelled (.number literal) literal.toList
  | text {s : String} {body : List Char} (h : Quoted.Denotes body s.toList) :
      Spelled (.string (some s)) ('"' :: (body ++ ['"']))
  /-- A bracket, a comma, a colon or a word. -/
  | mark {t : Token} (hnumber : t.isNumber = false) (htext : ∀ text, t ≠ .string text) :
      Spelled t t.spell

theorem spelled_spell {t : Token} (ht : t.WellSpelled) (htext : t ≠ .string none) :
    Spelled t t.spell := by
  cases t with
  | number literal => exact .number (Numeral.isNumeral_iff_formed.mp ht)
  | string text =>
    cases text with
    | none => exact absurd rfl htext
    | some s => exact .text (Quoted.denotes_encodeChars s.toList)
  | _ => exact .mark rfl (by simp)

/-- The reader knows all spellings of the grammar. -/
theorem legible_spelled : Legible Spelled where
  known := by
    intro t spelling rest ht hrest
    cases ht with
    | number h =>
      have hspelled : WellSpelled (.number _) := Numeral.isNumeral_iff_formed.mpr h
      exact read?_spell_append hspelled hrest
    | @text s body h =>
      have hread := h.read rest
      rw [String.ofList_toList] at hread
      rw [List.cons_append, List.append_assoc, read?, List.singleton_append, hread]
      rfl
    | mark hnumber htext => exact read?_spell_append (wellSpelled_of_isNumber hnumber) hrest
  ends := by
    intro t spelling ht hnumber rest
    cases ht with
    | number h => cases hnumber
    | text h =>
      intro c hc
      cases hc
      decide
    | mark hnumber htext =>
      exact legible_spell.ends ⟨rfl, wellSpelled_of_isNumber hnumber⟩ hnumber rest

end Token

/-- Texts by which a value is **spelled**: its tokens in order, with any blanks
    around and between them. -/
def Json.SpelledBy (j : Json) (text : String) : Prop :=
  Token.Laid Token.Spelled j.tokens text.toList

/-- **Readable** values: every text among their tokens denotes a string. -/
def Json.Readable (j : Json) : Prop := ∀ t ∈ j.tokens, t ≠ .string none

namespace Json

theorem readable_ofString (text : String) : (ofString text).Readable := by
  simp [Readable, ofString, tokens]

theorem readable_array {items : List Json} (hitems : ∀ j ∈ items, j.Readable) :
    (array items).Readable :=
  forall_tokens_array (fun _ _ htext => htext none) hitems

theorem readable_ofFields {fields : List (String × Json)} (hfields : ∀ f ∈ fields, f.2.Readable) :
    (ofFields fields).Readable := by
  apply forall_tokens_object fun _ _ htext => htext none
  intro m hm
  obtain ⟨f, hf, rfl⟩ := List.mem_map.mp hm
  exact ⟨by simp, hfields f hf⟩

end Json

theorem Json.spelledBy_compact {j : Json} (hspelled : j.WellSpelled)
    (htexts : ∀ t ∈ j.tokens, t ≠ .string none) : j.SpelledBy j.compact := by
  rw [SpelledBy, compact, String.toList_ofList]
  exact (Token.spaced_flatMap j.tokens).laid fun t ht =>
    Token.spelled_spell (hspelled t ht) (htexts t ht)

/-- A value is read by `Json.parse?` from every text by which it is spelled. -/
theorem Json.SpelledBy.parse? {j : Json} {text : String} (h : j.SpelledBy text) :
    parse? text = some j :=
  parse?_of_laid Token.legible_spelled h

end FareGate
