import FareGate.Json.Reading
import FareGate.Proofs.Json.Numeral
import Mathlib.Data.List.Chain

/-! # Texts that are read as values

  What may stand between tokens, and what must not, for a text to be read as
  the value that it spells:

  * **Laid out** texts (`Token.Laid`): spellings of tokens in order, with any
    blanks. Their tokens are read from them, if the spellings are **legible**
    (`Token.Legible`) and no two numbers stand side by side. **Spaced** texts
    (`Token.Spaced`) have every token as it is written; this is legible if what
    stands for a number is a numeral.
  * **Values**: no two numbers stand side by side among the tokens of a value.
    So if its numbers are numerals, it is read from each of its spaced texts,
    and from the one without blanks in particular. -/

namespace FareGate

/-! ## Tokens -/

namespace Token

def isNumber : Token → Bool
  | number _ => true
  | _ => false

/-- **Well spelled**: what stands for a number is a numeral. -/
def WellSpelled : Token → Prop
  | number literal => Numeral.IsNumeral literal.toList
  | _ => True

theorem wellSpelled_of_isNumber {t : Token} (ht : t.isNumber = false) : t.WellSpelled := by
  cases t with
  | number literal => cases ht
  | _ => trivial

/-- Two tokens that can stand side by side: they are not both numbers. -/
def Apart (a b : Token) : Prop := a.isNumber → b.isNumber = false

/-! ### One token -/

/-- A blank is no part of a numeral, and no token starts with one. -/
theorem blank_facts {c : Char} (hc : isBlank c) (rest : List Char) :
    Numeral.isPart c = false ∧ read? (c :: rest) = none := by
  have hcases : c = ' ' ∨ c = '\t' ∨ c = '\n' ∨ c = '\r' := by
    simpa [isBlank, or_assoc] using hc
  rcases hcases with rfl | rfl | rfl | rfl <;> exact ⟨by decide, rfl⟩

/-- A token is read as `Token.spell` writes it, if it is no number that the rest
    of the text goes on with. -/
theorem read?_spell_append {t : Token} {rest : List Char} (ht : t.WellSpelled)
    (hrest : t.isNumber → Numeral.Ends rest) : read? (t.spell ++ rest) = some (t, rest) := by
  cases t with
  | bool b => cases b <;> rfl
  | number literal =>
    have hnumeral := Numeral.IsNumeral.read_append ht (hrest rfl)
    obtain ⟨c, more, hcs, hc⟩ := Numeral.IsNumeral.exists_cons ht
    simp only [spell]
    rw [hcs, List.cons_append] at hnumeral ⊢
    -- no other token starts like a numeral
    rw [read?, hnumeral, ← hcs]
    · simp
    all_goals
      rintro more' heq
      have hhead := (List.cons.inj heq).1
      subst hhead
      revert hc
      decide
  | string text =>
    show (Quoted.read (Quoted.encodeBody text ++ rest)).map _ = _
    rw [Quoted.read_encodeBody]
    rfl
  | _ => rfl

/-! ### All tokens -/

theorem readAll?_of_read? {blanks cs rest : List Char} {t : Token}
    (hblanks : ∀ c ∈ blanks, isBlank c) (hread : read? cs = some (t, rest)) :
    readAll? (blanks ++ cs) = (readAll? rest).map (t :: ·) := by
  cases cs with
  | nil => cases hread
  | cons c more =>
    have hc : isBlank c = false := by
      by_contra hblank
      rw [(blank_facts (by simpa using hblank) more).2] at hread
      cases hread
    have hskip : (blanks ++ c :: more).dropWhile isBlank = c :: more := by
      rw [List.dropWhile_append_of_pos hblanks]
      simp [hc]
    rw [readAll?]
    split
    · rename_i hnil
      rw [hskip] at hnil
      cases hnil
    · rename_i d others hcons
      rw [hskip] at hcons
      cases hcons
      split
      · rename_i hnone
        rw [hread] at hnone
        cases hnone
      · rename_i t' rest' hsome
        rw [hread] at hsome
        cases hsome
        rfl

/-- **Laid out** texts of tokens: the tokens in order, each of them as `spells`
    allows, with any blanks around and between them. -/
inductive Laid (spells : Token → List Char → Prop) : List Token → List Char → Prop where
  | done {blanks : List Char} (hblanks : ∀ c ∈ blanks, isBlank c) : Laid spells [] blanks
  | next {blanks : List Char} (hblanks : ∀ c ∈ blanks, isBlank c) {t : Token}
      {spelling : List Char} (ht : spells t spelling) {ts : List Token} {cs : List Char}
      (more : Laid spells ts cs) : Laid spells (t :: ts) (blanks ++ (spelling ++ cs))

/-- **Legible** spellings. -/
structure Legible (spells : Token → List Char → Prop) : Prop where
  /-- A token is known by its spelling, if it is no number that the rest of the
      text goes on with. -/
  known : ∀ {t : Token} {spelling rest : List Char}, spells t spelling →
    (t.isNumber → Numeral.Ends rest) → read? (spelling ++ rest) = some (t, rest)
  /-- What is no number ends the number before it. -/
  ends : ∀ {t : Token} {spelling : List Char}, spells t spelling → t.isNumber = false →
    ∀ rest, Numeral.Ends (spelling ++ rest)

section laid
variable {spells : Token → List Char → Prop} {ts : List Token} {cs : List Char}

theorem Laid.ends (hspells : Legible spells) (h : Laid spells ts cs)
    (hhead : ∀ t ∈ ts.head?, t.isNumber = false) : Numeral.Ends cs := by
  intro c hc
  cases h with
  | done hblanks => exact (blank_facts (hblanks c (List.mem_of_mem_head? hc)) []).1
  | @next blanks hblanks t spelling ht ts cs more =>
    cases blanks with
    | cons b others =>
      cases hc
      exact (blank_facts (hblanks c List.mem_cons_self) []).1
    | nil => exact hspells.ends ht (hhead t rfl) cs c hc

/-- The tokens of a text that is laid out legibly are read from it. -/
theorem Laid.readAll? (hspells : Legible spells) (h : Laid spells ts cs)
    (hapart : ts.IsChain Apart) : readAll? cs = some ts := by
  induction h with
  | @done blanks hblanks =>
    have hskip : blanks.dropWhile isBlank = [] := by
      rw [List.dropWhile_eq_nil_iff]
      exact hblanks
    rw [Token.readAll?]
    split
    · rfl
    · rename_i c more hcons
      rw [hskip] at hcons
      cases hcons
  | @next blanks hblanks t spelling ht ts cs more ih =>
    rw [List.isChain_cons] at hapart
    obtain ⟨hnext, hrest⟩ := hapart
    have hends : t.isNumber → Numeral.Ends cs := by
      intro hnumber
      exact more.ends hspells fun u hu => hnext u hu hnumber
    rw [readAll?_of_read? hblanks (hspells.known ht hends), ih hrest]
    rfl

end laid

theorem legible_spell : Legible fun t spelling => spelling = t.spell ∧ t.WellSpelled where
  known := by
    rintro t spelling rest ⟨rfl, ht⟩ hrest
    exact read?_spell_append ht hrest
  ends := by
    rintro t spelling ⟨rfl, -⟩ ht rest c hc
    cases t with
    | number literal => cases ht
    | bool b => cases b <;> (cases hc; decide)
    | _ => cases hc; decide

section spaced
variable {spells : Token → List Char → Prop} {ts : List Token} {cs : List Char}

/-- **Spaced** texts of tokens are laid out with every token as `Token.spell`
    writes it. -/
def Spaced : List Token → List Char → Prop := Laid fun t spelling => spelling = t.spell

theorem spaced_flatMap (ts : List Token) : Spaced ts (ts.flatMap spell) := by
  have hnone : ∀ c ∈ ([] : List Char), isBlank c := by simp
  induction ts with
  | nil => exact .done hnone
  | cons t rest ih => exact .next hnone rfl ih

/-- A spaced text is laid out in any way that allows its tokens as they are
    written. -/
theorem Spaced.laid (h : Spaced ts cs) (hspells : ∀ t ∈ ts, spells t t.spell) :
    Laid spells ts cs := by
  induction h with
  | done hblanks => exact .done hblanks
  | next hblanks ht _ ih =>
    subst ht
    exact .next hblanks (hspells _ List.mem_cons_self)
      (ih fun u hu => hspells u (List.mem_cons_of_mem _ hu))

end spaced

end Token

/-! ## Values -/

namespace Json

theorem isChain_apart_separated {ts us : List Token} {t : Token} (ht : t.isNumber = false)
    (hts : ts.IsChain Token.Apart) (hus : us.IsChain Token.Apart) :
    (ts ++ t :: us).IsChain Token.Apart := by
  rw [List.isChain_append, List.isChain_cons]
  refine ⟨hts, ⟨?_, hus⟩, ?_⟩
  · intro y _ hnumber
    rw [ht] at hnumber
    cases hnumber
  · intro x _ y hy _
    cases hy
    exact ht

mutual
/-- No two numbers stand side by side among the tokens of a value. -/
theorem isChain_tokens (j : Json) : j.tokens.IsChain Token.Apart := by
  match j with
  | .null => exact .singleton _
  | .bool b => exact .singleton _
  | .number literal => exact .singleton _
  | .string text => exact .singleton _
  | .array items => exact isChain_apart_separated rfl .nil (isChain_itemTokens items)
  | .object members => exact isChain_apart_separated rfl .nil (isChain_memberTokens members)
termination_by sizeOf j

theorem isChain_itemTokens (items : List Json) : (itemTokens items).IsChain Token.Apart := by
  match items with
  | [] => exact .singleton _
  | [j] => exact isChain_apart_separated rfl (isChain_tokens j) .nil
  | j :: next :: rest =>
    exact isChain_apart_separated rfl (isChain_tokens j) (isChain_itemTokens (next :: rest))
termination_by sizeOf items

theorem isChain_memberTokens (members : List (Option String × Json)) :
    (memberTokens members).IsChain Token.Apart := by
  match members with
  | [] => exact .singleton _
  | [(key, j)] =>
    have hvalue := isChain_apart_separated (t := .closeObject) rfl (isChain_tokens j) .nil
    have hcolon := isChain_apart_separated (t := .colon) rfl .nil hvalue
    exact isChain_apart_separated (t := .string key) rfl .nil hcolon
  | (key, j) :: next :: rest =>
    have hvalue := isChain_apart_separated (t := .comma) rfl (isChain_tokens j)
      (isChain_memberTokens (next :: rest))
    have hcolon := isChain_apart_separated (t := .colon) rfl .nil hvalue
    exact isChain_apart_separated (t := .string key) rfl .nil hcolon
termination_by sizeOf members
end

section everyToken
variable {P : Token → Prop}

/-- What holds of brackets and commas and of the tokens of all items holds of the
    tokens of an array. -/
theorem forall_tokens_array (hmark : ∀ t : Token, t.isNumber = false → (∀ text, t ≠ .string text) →
    P t) {items : List Json} (hitems : ∀ j ∈ items, ∀ t ∈ j.tokens, P t) :
    ∀ t ∈ (array items).tokens, P t := by
  have hinside : ∀ t ∈ itemTokens items, P t := by
    induction items with
    | nil =>
      rw [itemTokens, List.forall_mem_singleton]
      exact hmark _ rfl (by simp)
    | cons j rest ih =>
      obtain ⟨hj, hothers⟩ := List.forall_mem_cons.mp hitems
      have hrest := ih hothers
      cases rest with
      | nil =>
        rw [itemTokens, List.forall_mem_append, List.forall_mem_singleton]
        exact ⟨hj, hmark _ rfl (by simp)⟩
      | cons next more =>
        rw [itemTokens, List.forall_mem_append, List.forall_mem_cons]
        · exact ⟨hj, hmark _ rfl (by simp), hrest⟩
        · simp
  rw [tokens, List.forall_mem_cons]
  exact ⟨hmark _ rfl (by simp), hinside⟩

/-- What holds of brackets, commas and colons, of the keys and of the tokens of
    all values holds of the tokens of an object. -/
theorem forall_tokens_object (hmark : ∀ t : Token, t.isNumber = false → (∀ text, t ≠ .string text) →
    P t) {members : List (Option String × Json)}
    (hmembers : ∀ m ∈ members, P (.string m.1) ∧ ∀ t ∈ m.2.tokens, P t) :
    ∀ t ∈ (object members).tokens, P t := by
  have hinside : ∀ t ∈ memberTokens members, P t := by
    induction members with
    | nil =>
      rw [memberTokens, List.forall_mem_singleton]
      exact hmark _ rfl (by simp)
    | cons m rest ih =>
      obtain ⟨key, j⟩ := m
      obtain ⟨⟨hkey, hj⟩, hothers⟩ := List.forall_mem_cons.mp hmembers
      have hrest := ih hothers
      cases rest with
      | nil =>
        rw [memberTokens, List.forall_mem_append, List.forall_mem_cons, List.forall_mem_cons,
          List.forall_mem_singleton]
        exact ⟨⟨hkey, hmark _ rfl (by simp), hj⟩, hmark _ rfl (by simp)⟩
      | cons next more =>
        rw [memberTokens, List.forall_mem_append, List.forall_mem_cons, List.forall_mem_cons,
          List.forall_mem_cons]
        · exact ⟨⟨hkey, hmark _ rfl (by simp), hj⟩, hmark _ rfl (by simp), hrest⟩
        · simp
  rw [tokens, List.forall_mem_cons]
  exact ⟨hmark _ rfl (by simp), hinside⟩

end everyToken

/-- **Well spelled** values: every number among their tokens is a numeral. -/
def WellSpelled (j : Json) : Prop := ∀ t ∈ j.tokens, t.WellSpelled

theorem wellSpelled_null : null.WellSpelled := by
  simp [WellSpelled, tokens, Token.WellSpelled]

theorem wellSpelled_ofString (text : String) : (ofString text).WellSpelled := by
  simp [WellSpelled, ofString, tokens, Token.WellSpelled]

theorem wellSpelled_number {literal : String} (h : Numeral.IsNumeral literal.toList) :
    (number literal).WellSpelled := by
  simpa [WellSpelled, tokens, Token.WellSpelled] using h

theorem wellSpelled_array {items : List Json} (hitems : ∀ j ∈ items, j.WellSpelled) :
    (array items).WellSpelled :=
  forall_tokens_array (fun _ ht _ => Token.wellSpelled_of_isNumber ht) hitems

theorem wellSpelled_object {members : List (Option String × Json)}
    (hmembers : ∀ m ∈ members, m.2.WellSpelled) : (object members).WellSpelled :=
  forall_tokens_object (fun _ ht _ => Token.wellSpelled_of_isNumber ht) fun m hm =>
    ⟨trivial, hmembers m hm⟩

/-- A value is read from a text where its tokens are laid out legibly. -/
theorem parse?_of_laid {spells : Token → List Char → Prop} {j : Json} {text : String}
    (hspells : Token.Legible spells) (htext : Token.Laid spells j.tokens text.toList) :
    parse? text = some j := by
  unfold parse?
  rw [htext.readAll? hspells (isChain_tokens j)]
  simp only [Option.bind_eq_bind, Option.bind_some, Reading.steps_tokens]
  rfl

theorem parse?_of_spaced {j : Json} {text : String} (hspelled : j.WellSpelled)
    (htext : Token.Spaced j.tokens text.toList) : parse? text = some j :=
  parse?_of_laid Token.legible_spell (htext.laid fun t ht => ⟨rfl, hspelled t ht⟩)

/-- What `compact` writes for a well spelled value is read back by `parse?`. -/
theorem parse?_compact {j : Json} (hspelled : j.WellSpelled) : parse? j.compact = some j := by
  apply parse?_of_spaced hspelled
  rw [compact, String.toList_ofList]
  exact Token.spaced_flatMap j.tokens

end Json

end FareGate
