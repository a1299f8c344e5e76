import FareGate.Proofs.Form.ReadBack
import FareGate.Proofs.Json.Grammar

/-! # Other spellings of values with parts

  A rule, a table, a record or a history is written by its parts, in order and
  without blanks. The reader is less strict in some ways, and no less in others:

  * **Admitted** (`FreelySpelled`): an object with the parts in any order, with
    members of other names anywhere among them, and an array of the parts alone,
    each of them in any text that spells it.
  * **Refused** (`Refuses`): a part that is missing, a known name that comes
    twice, an array of another length.
  * **Required** parts are those that may not be missing. Only the limit of a
    history is not required.

  What a form has to do with all this is said by what it makes of its parts,
  wherever they come from (`MadeOf`), and by the parts it cannot do without
  (`Requires`). -/

namespace FareGate

/-! ## Where parts are found -/

namespace Json

theorem ofFields_injective : Function.Injective ofFields := by
  intro fields fields' heq
  have hmap := Json.object.inj heq
  refine List.map_injective_iff.mpr ?_ hmap
  rintro ⟨key, value⟩ ⟨key', value'⟩ hmember
  cases hmember
  rfl

theorem lookup_eq_head?_filter (fields : List (String × Json)) (name : String) :
    fields.lookup name = (fields.filter fun f => f.1 = name).head?.map (·.2) := by
  induction fields with
  | nil => rfl
  | cons f rest ih =>
    obtain ⟨key, value⟩ := f
    by_cases hkey : key = name
    · simp [hkey]
    · rw [List.lookup_cons, beq_false_of_ne (Ne.symm hkey), ih]
      simp [hkey]

theorem count_keys (fields : List (String × Json)) (name : String) :
    (fields.map (·.1)).count name = (fields.filter fun f => f.1 = name).length := by
  rw [List.count, List.countP_map, List.countP_eq_length_filter]
  congr 1

section known
variable {members fields : List (String × Json)} {names : List String}

/-- Under a known name stands what stands under it among the known members. -/
theorem filter_name_of_known (hkeys : (fields.map (·.1)).Nodup)
    (hknown : (members.filter fun m => m.1 ∈ names).Perm fields) {name : String}
    (hname : name ∈ names) :
    (members.filter fun m => m.1 = name) = fields.filter fun f => f.1 = name := by
  have hperm := hknown.filter fun m => decide (m.1 = name)
  have hsub : ((members.filter fun m => m.1 ∈ names).filter fun m => m.1 = name) =
      members.filter fun m => m.1 = name := by
    rw [List.filter_filter]
    apply List.filter_congr
    intro m _
    by_cases hm : m.1 = name
    · simp [hm, hname]
    · simp [hm]
  rw [hsub] at hperm
  have honce : (fields.filter fun f => f.1 = name).length ≤ 1 := by
    rw [← count_keys]
    exact List.nodup_iff_count_le_one.mp hkeys name
  -- there are not two members whose order could matter
  generalize (fields.filter fun f => f.1 = name) = named at hperm honce ⊢
  match named, honce with
  | [], _ => exact List.perm_nil.mp hperm
  | [f], _ => exact List.perm_singleton.mp hperm

/-- In an object that has some known members, each of them once, and other
    members besides, the parts are those of the known members. -/
theorem fields?_of_known (hkeys : (fields.map (·.1)).Nodup)
    (hknown : (members.filter fun m => m.1 ∈ names).Perm fields) :
    ∃ part, (ofFields members).fields? names = some part ∧
      ∀ name ∈ names, part name = fields.lookup name := by
  refine ⟨fun name => members.lookup name, fields?_ofFields_eq_some_iff.mpr ⟨?_, rfl⟩, ?_⟩
  · intro name hname
    rw [count_keys, filter_name_of_known hkeys hknown hname, ← count_keys]
    exact List.nodup_iff_count_le_one.mp hkeys name
  · intro name hname
    simp only [lookup_eq_head?_filter, filter_name_of_known hkeys hknown hname]

end known

theorem getElem?_idxOf_eq_lookup {fields : List (String × Json)} {names : List String}
    (hnames : fields.map (·.1) <+: names) (name : String) :
    (fields.map (·.2))[names.idxOf name]? = fields.lookup name := by
  induction fields generalizing names with
  | nil => simp
  | cons f rest ih =>
    obtain ⟨key, value⟩ := f
    obtain ⟨later, rfl⟩ := hnames
    have hrest := ih (List.prefix_append (rest.map (·.1)) later)
    rw [List.map_cons, List.map_cons, List.cons_append]
    by_cases hkey : key = name
    · simp [hkey]
    · rw [List.idxOf_cons_ne _ hkey, List.getElem?_cons_succ, hrest, List.lookup_cons,
        beq_false_of_ne (Ne.symm hkey)]

/-- In an array of parts in their usual order, the parts are its items. -/
theorem fields?_array {fields : List (String × Json)} {names : List String}
    (hnames : fields.map (·.1) <+: names) :
    (array (fields.map (·.2))).fields? names = some fun name => fields.lookup name := by
  have hlength : (fields.map (·.2)).length ≤ names.length := by
    have hle := hnames.length_le
    rw [List.length_map] at hle ⊢
    exact hle
  rw [fields?, if_pos hlength]
  congr 1
  funext name
  exact getElem?_idxOf_eq_lookup hnames name

end Json

namespace Form

/-! ## Admitted and refused texts -/

section shapes
variable {α : Type} [Form α]

/-- A value is read from all its **admitted** spellings by these parts. -/
structure Admitted (names : List String) (parts : List (String × Json)) (a : α) : Prop where
  /-- An object may have its parts in any order, and other members anywhere. -/
  object : ∀ {members : List (String × Json)} {text : String},
    (members.filter fun m => m.1 ∈ names).Perm parts → (Json.ofFields members).SpelledBy text →
      read? text = some a
  /-- An array has the parts in their usual order. -/
  array : ∀ {text : String}, (Json.array (parts.map (·.2))).SpelledBy text → read? text = some a

/-- **Freely spelled** values are read from all spellings by the parts of their
    written form, which have these names. -/
def FreelySpelled (names : List String) (a : α) : Prop :=
  ∃ parts, encode a = .ofFields parts ∧ parts.map (·.1) = names ∧ Admitted names parts a

/-- **Refused** texts, for a type with parts of these names. -/
structure Refuses (α : Type) [Form α] (names required : List String) : Prop where
  /-- A required part is missing. -/
  missing : ∀ {members : List (String × Json)} {text name : String}, name ∈ required →
    name ∉ members.map (·.1) → (Json.ofFields members).SpelledBy text →
      (read? text : Option α) = none
  /-- A known name comes twice. -/
  twice : ∀ {members : List (String × Json)} {text name : String}, name ∈ names →
    2 ≤ (members.map (·.1)).count name → (Json.ofFields members).SpelledBy text →
      (read? text : Option α) = none
  /-- An array has too few items or too many. -/
  length : ∀ {items : List Json} {text : String},
    items.length < required.length ∨ names.length < items.length →
      (Json.array items).SpelledBy text → (read? text : Option α) = none

/-- A value is **made of** parts: it is decoded from what has these parts. -/
def MadeOf (names : List String) (parts : List (String × Json)) (a : α) : Prop :=
  ∀ (j : Json) (part : String → Option Json), j.fields? names = some part →
    (∀ name ∈ names, part name = parts.lookup name) → decode? j = some a

/-- Whatever is decoded has the **required** parts. -/
def Requires (α : Type) [Form α] (names required : List String) : Prop :=
  ∀ (j : Json) (a : α), decode? j = some a →
    ∃ part, j.fields? names = some part ∧ ∀ name ∈ required, part name ≠ none

theorem read?_of_spelledBy {j : Json} {text : String} (htext : j.SpelledBy text) :
    (read? text : Option α) = decode? j := by
  rw [read?, htext.parse?]
  rfl

theorem MadeOf.admitted {names : List String} {parts : List (String × Json)} {a : α}
    (ha : MadeOf names parts a) (hnames : names.Nodup) (hparts : parts.map (·.1) <+: names) :
    Admitted names parts a where
  object := by
    intro members text hmembers htext
    obtain ⟨part, hfields, hpart⟩ :=
      Json.fields?_of_known (hnames.sublist hparts.sublist) hmembers
    rw [read?_of_spelledBy htext]
    exact ha _ part hfields hpart
  array := by
    intro text htext
    rw [read?_of_spelledBy htext]
    exact ha _ _ (Json.fields?_array hparts) fun name _ => rfl

theorem Requires.read?_eq_none {names required : List String} (h : Requires α names required)
    {j : Json} {text : String} (htext : j.SpelledBy text)
    (hlack : ∀ part, j.fields? names = some part → ∃ name ∈ required, part name = none) :
    (read? text : Option α) = none := by
  rw [read?_of_spelledBy htext, Option.eq_none_iff_forall_ne_some]
  intro a ha
  obtain ⟨part, hfields, hpresent⟩ := h j a ha
  obtain ⟨name, hname, hnone⟩ := hlack part hfields
  exact hpresent name hname hnone

theorem Requires.refuses {names required : List String} (h : Requires α names required)
    (hnames : names.Nodup) (hrequired : required <+: names) : Refuses α names required where
  missing := by
    intro members text name hname habsent htext
    apply h.read?_eq_none htext
    intro part hfields
    obtain ⟨-, rfl⟩ := Json.fields?_ofFields_eq_some_iff.mp hfields
    refine ⟨name, hname, List.lookup_eq_none_iff.mpr fun m hm => ?_⟩
    rw [bne_iff_ne]
    rintro rfl
    exact habsent (List.mem_map_of_mem hm)
  twice := by
    intro members text name hname htwice htext
    apply h.read?_eq_none htext
    intro part hfields
    have honce := (Json.fields?_ofFields_eq_some_iff.mp hfields).1 name hname
    omega
  length := by
    intro items text hlength htext
    apply h.read?_eq_none htext
    intro part hfields
    rw [Json.fields?] at hfields
    split at hfields
    · rename_i hle
      cases hfields
      -- there are too few items, and the first of the missing ones is required
      have hfew : items.length < required.length := by omega
      refine ⟨required[items.length], List.getElem_mem hfew, ?_⟩
      have hidx : names.idxOf required[items.length] = items.length := by
        rw [← hrequired.idxOf_eq_of_mem (List.getElem_mem hfew)]
        exact (hnames.sublist hrequired.sublist).idxOf_getElem _ _
      show items[_]? = none
      rw [hidx, List.getElem?_eq_none (Nat.le_refl _)]
    · cases hfields

end shapes

/-! ## Rules and tables -/

theorem freelySpelled_rule (r : Rule) : FreelySpelled ruleParts r := by
  refine ⟨_, rfl, rfl, MadeOf.admitted ?_ (by decide) (List.prefix_refl _)⟩
  intro j part hfields hpart
  exact decode?_rule hfields (hpart "state" (by decide)) (hpart "event" (by decide))
    (hpart "actions" (by decide)) (hpart "next" (by decide))

theorem requires_rule : Requires Rule ruleParts ruleParts := by
  intro j r hj
  simp only [decode?, Option.bind_eq_bind, Option.bind_eq_some_iff] at hj
  obtain ⟨part, hfields, _, ⟨state, hstate, _⟩, _, ⟨event, hevent, _⟩, _, ⟨actions, hactions, _⟩,
    _, ⟨next, hnext, _⟩, _⟩ := hj
  refine ⟨part, hfields, ?_⟩
  simp [ruleParts, hstate, hevent, hactions, hnext]

theorem freelySpelled_table (t : Table) : FreelySpelled tableParts t := by
  refine ⟨_, rfl, rfl, MadeOf.admitted ?_ (by decide) (List.prefix_refl _)⟩
  intro j part hfields hpart
  exact decode?_table hfields (hpart "rules" (by decide))

theorem requires_table : Requires Table tableParts tableParts := by
  intro j t hj
  simp only [decode?, Option.bind_eq_bind, Option.bind_eq_some_iff] at hj
  obtain ⟨part, hfields, _, ⟨rules, hrules, _⟩, _⟩ := hj
  refine ⟨part, hfields, ?_⟩
  simp [tableParts, hrules]

/-! ## Records and histories -/

theorem freelySpelled_record {r : Record} (hr : r.timestamp.InCalendar) :
    FreelySpelled recordParts r := by
  refine ⟨_, rfl, rfl, MadeOf.admitted ?_ (by decide) (List.prefix_refl _)⟩
  intro j part hfields hpart
  exact decode?_record hr hfields (hpart "from" (by decide)) (hpart "to" (by decide))
    (hpart "input" (by decide)) (hpart "actions" (by decide)) (hpart "outcome" (by decide))
    (hpart "timestamp" (by decide))

theorem requires_record : Requires Record recordParts recordParts := by
  intro j r hj
  simp only [decode?, Option.bind_eq_bind, Option.bind_eq_some_iff] at hj
  obtain ⟨part, hfields, _, ⟨before, hbefore, _⟩, _, ⟨after, hafter, _⟩, _, ⟨input, hinput, _⟩,
    _, ⟨actions, hactions, _⟩, _, ⟨outcome, houtcome, _⟩, _, ⟨timestamp, htimestamp, _⟩, _⟩ := hj
  refine ⟨part, hfields, ?_⟩
  simp [recordParts, hbefore, hafter, hinput, hactions, houtcome, htimestamp]

section history
variable {h : History}

theorem madeOf_history (hh : ∀ r ∈ h.records.toList, r.timestamp.InCalendar) :
    MadeOf historyParts [("records", encode h.records.toList), ("limit", encode h.limit)] h := by
  have hrecords := readsBack_records hh
  have hlimit : ReadsBack h.limit := Faithful.readsBack h.limit
  intro j part hfields hpart
  apply decode?_history hfields (hrecords.decode?_part (hpart "records" (by decide)))
  rw [hpart "limit" (by decide)]
  exact hlimit.decoded

/-- Without a limit, its records make the history that has no limit. -/
theorem madeOf_history_records (hh : ∀ r ∈ h.records.toList, r.timestamp.InCalendar) :
    MadeOf historyParts [("records", encode h.records.toList)] { h with limit := none } := by
  have hrecords := readsBack_records hh
  intro j part hfields hpart
  apply decode?_history (h := { h with limit := none }) hfields
    (hrecords.decode?_part (hpart "records" (by decide)))
  rw [hpart "limit" (by decide)]
  rfl

end history

theorem requires_history : Requires History historyParts ["records"] := by
  intro j h hj
  simp only [decode?, Option.bind_eq_bind, Option.bind_eq_some_iff] at hj
  obtain ⟨part, hfields, _, ⟨records, hrecords, _⟩, _⟩ := hj
  refine ⟨part, hfields, ?_⟩
  simp [hrecords]

/-- **All spellings are read alike, and malformed ones are refused.** A rule, a
    table, a record or a history is read from every text that spells an object
    with its parts, in any order and with any members of other names among them,
    and from every text that spells the array of its parts. Instants on record
    are in the calendar.

    Nothing is read where a part is missing, where a known name comes twice or
    where an array is of another length. The one exception is the limit of a
    history: where it is missing, the history without a limit is read. -/
theorem all_spellings_read :
    (∀ r : Rule, FreelySpelled ruleParts r) ∧ Refuses Rule ruleParts ruleParts ∧
    (∀ t : Table, FreelySpelled tableParts t) ∧ Refuses Table tableParts tableParts ∧
    (∀ r : Record, r.timestamp.InCalendar → FreelySpelled recordParts r) ∧
      Refuses Record recordParts recordParts ∧
    (∀ h : History, (∀ r ∈ h.records.toList, r.timestamp.InCalendar) →
      FreelySpelled historyParts h ∧
        Admitted historyParts [("records", encode h.records.toList)] { h with limit := none }) ∧
      Refuses History historyParts ["records"] := by
  refine ⟨freelySpelled_rule, ?_, freelySpelled_table, ?_, fun r => freelySpelled_record,
    ?_, ?_, ?_⟩
  · exact requires_rule.refuses (by decide) (List.prefix_refl _)
  · exact requires_table.refuses (by decide) (List.prefix_refl _)
  · exact requires_record.refuses (by decide) (List.prefix_refl _)
  · intro h hh
    refine ⟨⟨_, rfl, rfl, ?_⟩, ?_⟩
    · exact (madeOf_history hh).admitted (by decide) (List.prefix_refl _)
    · exact (madeOf_history_records hh).admitted (by decide) (List.prefix_append _ _)
  · exact requires_history.refuses (by decide) (List.prefix_append _ _)

/-- The `oldRecords` under their cap, with the parts the other way round and a
    note of no meaning to a history. -/
def notedRecords : List (String × Json) :=
  [("limit", encode oldRecords.limit),
    ("note", .array [.number "-1.5E+2", .object [], .ofString "records"]),
    ("records", encode oldRecords.records.toList)]

/-- The same history is read, and from an array without a limit the history that
    has none. Nothing is read from a limit alone, or where the limit comes twice. -/
theorem notedRecords_read :
    let records := encode oldRecords.records.toList
    (Json.ofFields notedRecords).SpelledBy (Json.ofFields notedRecords).compact ∧
      read? (Json.ofFields notedRecords).compact = some oldRecords ∧
      read? (Json.array [records]).compact = some { oldRecords with limit := none } ∧
      (read? (Json.ofFields [("limit", .null)]).compact : Option History) = none ∧
      (read? (Json.ofFields [("limit", .null), ("records", records),
        ("limit", .null)]).compact : Option History) = none ∧
      (read? (Json.array [records, .null, .null]).compact : Option History) = none := by
  intro records
  have hcalendar : ∀ r ∈ oldRecords.records.toList, r.timestamp.InCalendar := by decide
  have hrecords : records.WellSpelled :=
    (readsBack_list fun r hr => readsBack_record (hcalendar r hr)).spelled
  have hlimit : (encode oldRecords.limit).WellSpelled :=
    (Faithful.readsBack oldRecords.limit).spelled
  have hnull : Json.null.WellSpelled := Json.wellSpelled_null
  have hnote : (Json.array [.number "-1.5E+2", .object [], .ofString "records"]).WellSpelled := by
    apply Json.wellSpelled_array
    simp only [List.forall_mem_cons]
    exact ⟨Json.wellSpelled_number rfl, Json.wellSpelled_object (by simp),
      Json.wellSpelled_ofString _, by simp⟩
  have hmembers : ∀ m ∈ notedRecords, m.2.WellSpelled := by
    simp only [notedRecords, List.forall_mem_cons]
    exact ⟨hlimit, hnote, hrecords, by simp⟩
  have hnoted : (Json.ofFields notedRecords).SpelledBy _ :=
    Json.spelledBy_compact (Json.wellSpelled_ofFields hmembers) (by decide +kernel)
  have hobject : (Json.ofFields [("limit", .null), ("records", records),
      ("limit", .null)]).SpelledBy _ :=
    Json.spelledBy_compact (Json.wellSpelled_ofFields (by simp [hrecords, hnull]))
      (by decide +kernel)
  have halone : (Json.ofFields [("limit", .null)]).SpelledBy _ :=
    Json.spelledBy_compact (Json.wellSpelled_ofFields (by simp [hnull])) (by decide +kernel)
  have harray : (Json.array [records]).SpelledBy _ :=
    Json.spelledBy_compact (Json.wellSpelled_array (by simp [hrecords])) (by decide +kernel)
  have hlong : (Json.array [records, .null, .null]).SpelledBy _ :=
    Json.spelledBy_compact (Json.wellSpelled_array (by simp [hrecords, hnull]))
      (by decide +kernel)
  obtain ⟨-, -, -, -, -, -, hhistory, hrefused⟩ := all_spellings_read
  obtain ⟨⟨parts, hparts, hnames, hfree⟩, hunlimited⟩ := hhistory oldRecords hcalendar
  obtain rfl : _ = parts := Json.ofFields_injective hparts
  have hrequired : "records" ∈ ["records"] := List.mem_singleton_self _
  have hknown : "limit" ∈ historyParts := by decide
  have hparts : (notedRecords.filter fun m => m.1 ∈ historyParts).Perm
      [("records", records), ("limit", encode oldRecords.limit)] := .swap _ _ _
  exact ⟨hnoted, hfree.object hparts hnoted, hunlimited.array harray,
    hrefused.missing hrequired (by decide) halone, hrefused.twice hknown (by decide) hobject,
    hrefused.length (.inr (by decide)) hlong⟩

end Form

end FareGate
