import FareGate.Form.Call
import FareGate.Form.History
import FareGate.Form.Table
import FareGate.Proofs.Json.Spelling
import FareGate.Proofs.Time.Stamp
import Mathlib.Data.List.Nodup

/-! # What is written is read back

  The text of a value is read as that value. This takes two things of the JSON
  form of a value: that it decodes to the value, and that its numbers are
  numerals, so that its text is read as the form itself:

  * **Read back** (`ReadsBack`): a value of which both hold.
  * **Faithful forms** (`Faithful`): types whose values are all read back, put
    together from names, texts and numerals by lists, tags and parts.

  Records and histories are read back as far as their instants are in the
  calendar. -/

namespace FareGate

/-! ## Numerals of numbers -/

namespace Decimal

theorem digits_ne_nil (n : Nat) : digits n ≠ [] := by
  rw [digits]
  split <;> simp

theorem eq_zero_of_head?_digits {n : Nat} (hzero : (digits n).head? = some '0') : n = 0 := by
  fun_induction digits n with
  | case1 n hsmall =>
    have hdigit : digit n = '0' := by simpa using hzero
    have hvalue := digitValue_digit hsmall
    rw [hdigit] at hvalue
    exact hvalue.symm
  | case2 n hlarge ih =>
    -- the digit in front is that of the number without its last digit
    rw [List.head?_append_of_ne_nil _ (digits_ne_nil _)] at hzero
    have hrest := ih hzero
    omega

end Decimal

theorem Numeral.isNumeral_digits (n : Nat) : IsNumeral (Decimal.digits n) := by
  have hdigits : ∀ c ∈ Decimal.digits n, c.isDigit := List.all_eq_true.mp (Decimal.all_digits n)
  obtain ⟨d, more, hcs⟩ := List.exists_cons_of_ne_nil (Decimal.digits_ne_nil n)
  rw [hcs] at hdigits ⊢
  apply isNumeral_of_digits hdigits
  intro hd
  -- a zero in front is the only digit of zero
  have hn : n = 0 := by
    apply Decimal.eq_zero_of_head?_digits
    rw [hcs, hd]
    rfl
  rw [hn, Decimal.digits, if_pos (by decide)] at hcs
  cases hcs
  rfl

/-! ## Parts of objects -/

namespace Json

theorem find?_map_some (fields : List (String × Json)) (name : String) :
    ((fields.map fun f => (some f.1, f.2)).find? fun m => m.1 = some name).map (fun m => m.2) =
      fields.lookup name := by
  induction fields with
  | nil => rfl
  | cons f rest ih =>
    obtain ⟨key, value⟩ := f
    by_cases hkey : name = key
    · simp [hkey]
    · have hkey' : ¬key = name := Ne.symm hkey
      simp only [List.map_cons, List.find?_cons, List.lookup_cons, beq_false_of_ne hkey,
        Option.some.injEq, hkey', decide_false]
      exact ih

/-- The parts of an object are known when no known key comes twice. They are
    then its values. -/
theorem fields?_ofFields_eq_some_iff {fields : List (String × Json)} {names : List String}
    {part : String → Option Json} :
    (ofFields fields).fields? names = some part ↔
      (∀ n ∈ names, (fields.map (·.1)).count n ≤ 1) ∧ (fun name => fields.lookup name) = part := by
  have hnamed : (fields.map fun f => (some f.1, f.2)).all (fun m => m.1.isSome) = true := by simp
  have hcount : ∀ n, occurrences n (fields.map fun f => (some f.1, f.2)) =
      (fields.map (·.1)).count n := by
    intro n
    rw [occurrences, List.countP_map, List.count, List.countP_map]
    apply List.countP_congr
    intro f _
    simp
  show (if _ then _ else _) = _ ↔ _
  simp only [hnamed, hcount, true_and, List.all_eq_true, decide_eq_true_eq, find?_map_some]
  split
  · simp_all
  · simp_all

theorem fields?_ofFields {fields : List (String × Json)} (hkeys : (fields.map (·.1)).Nodup)
    (names : List String) :
    (ofFields fields).fields? names = some fun name => fields.lookup name :=
  fields?_ofFields_eq_some_iff.mpr ⟨fun n _ => List.nodup_iff_count_le_one.mp hkeys n, rfl⟩

theorem wellSpelled_ofFields {fields : List (String × Json)}
    (hfields : ∀ f ∈ fields, f.2.WellSpelled) : (ofFields fields).WellSpelled := by
  apply wellSpelled_object
  intro m hm
  obtain ⟨f, hf, rfl⟩ := List.mem_map.mp hm
  exact hfields f hf

end Json

namespace Form

/-! ## Values that are read back -/

/-- A value is **read back** from its text: `decode?` undoes `encode`, and the
    written form is one that `Json.parse?` reads. -/
structure ReadsBack {α : Type} [Form α] (a : α) : Prop where
  /-- The numbers in the written form are numerals. -/
  spelled : (encode a).WellSpelled
  /-- The written form decodes to the value. -/
  decoded : decode? (encode a) = some a

theorem ReadsBack.read?_write {α : Type} [Form α] {a : α} (h : ReadsBack a) :
    read? (write a) = some a := by
  rw [read?, write, Json.parse?_compact h.spelled]
  exact h.decoded

theorem ReadsBack.decode?_part {α : Type} [Form α] {a : α} (h : ReadsBack a) {part : Option Json}
    (hpart : part = some (encode a)) : part.bind decode? = some a := by
  rw [hpart, Option.bind_some]
  exact h.decoded

/-- A **faithful** form: every value is read back. -/
class Faithful (α : Type) [Form α] : Prop where
  readsBack : ∀ a : α, ReadsBack a

theorem Faithful.spelled {α : Type} [Form α] [Faithful α] (a : α) : (encode a).WellSpelled :=
  (Faithful.readsBack a).spelled

theorem Faithful.decode?_part {α : Type} [Form α] [Faithful α] {a : α} {part : Option Json}
    (hpart : part = some (encode a)) : part.bind decode? = some a :=
  (Faithful.readsBack a).decode?_part hpart

/-- A named value is read back, if its type has the form of its name. -/
theorem readsBack_of_name {α : Type} [Form α] [Named α] [LawfulNamed α] (a : α)
    (hencode : encode a = encodeName a) (hdecode : (decode? : Json → Option α) = decodeName?) :
    ReadsBack a where
  spelled := by
    rw [hencode]
    exact Json.wellSpelled_ofString _
  decoded := by
    rw [hencode, hdecode]
    exact decodeName?_encodeName a

instance : Faithful State := ⟨fun s => readsBack_of_name s rfl rfl⟩
instance : Faithful Event := ⟨fun e => readsBack_of_name e rfl rfl⟩
instance : Faithful Action := ⟨fun a => readsBack_of_name a rfl rfl⟩
instance : Faithful Outcome := ⟨fun o => readsBack_of_name o rfl rfl⟩

theorem readsBack_list {α : Type} [Form α] {as : List α} (has : ∀ a ∈ as, ReadsBack a) :
    ReadsBack as where
  spelled := by
    apply Json.wellSpelled_array
    intro j hj
    obtain ⟨a, ha, rfl⟩ := List.mem_map.mp hj
    exact (has a ha).spelled
  decoded := decode?_encode_list as fun a ha => (has a ha).decoded

instance {α : Type} [Form α] [Faithful α] : Faithful (List α) :=
  ⟨fun _ => readsBack_list fun a _ => Faithful.readsBack a⟩

instance : Faithful Input where
  readsBack i := by
    cases i with
    | event e =>
      have he : ReadsBack e := Faithful.readsBack e
      refine ⟨Json.wellSpelled_ofFields (by simpa using he.spelled), ?_⟩
      show (decode? (encode e)).map Input.event = _
      rw [he.decoded]
      rfl
    | reset => exact ⟨Json.wellSpelled_ofString _, rfl⟩

instance : Faithful UInt64 where
  readsBack n := by
    refine ⟨Json.wellSpelled_number ?_, ?_⟩
    · rw [String.toList_ofList]
      exact Numeral.isNumeral_digits n.toNat
    · have hall := Decimal.all_digits n.toNat
      have hsize : n.toNat < UInt64.size := n.toNat_lt_size
      simp [encode, decode?, hall, hsize]

instance : Faithful (Option UInt64) where
  readsBack limit := by
    cases limit with
    | none => exact ⟨Json.wellSpelled_null, rfl⟩
    | some n =>
      have hn : ReadsBack n := Faithful.readsBack n
      refine ⟨hn.spelled, ?_⟩
      show (decode? (encode n)).map some = _
      rw [hn.decoded]
      rfl

/-! ## Calls -/

instance : Faithful Call where
  readsBack c := by
    cases c with
    | action a =>
      have ha : ReadsBack a := Faithful.readsBack a
      refine ⟨Json.wellSpelled_ofFields (by simpa using ha.spelled), ?_⟩
      show (decode? (encode a)).map Call.action = _
      rw [ha.decoded]
      rfl
    | unexpected state event =>
      have hspelled : (Json.ofFields [("state", .ofString state),
          ("event", .ofString event)]).WellSpelled := by
        apply Json.wellSpelled_ofFields
        simp [Json.wellSpelled_ofString]
      refine ⟨Json.wellSpelled_ofFields (by simpa using hspelled), ?_⟩
      show (do
        let part ← (Json.ofFields [("state", .ofString state),
          ("event", .ofString event)]).fields? reportParts
        let state ← part "state" >>= Json.string?
        let event ← part "event" >>= Json.string?
        return Call.unexpected state event) = _
      rw [Json.fields?_ofFields (by simp)]
      rfl

/-! ## Rules and tables -/

/-- A rule is decoded from its parts, wherever they stand. -/
theorem decode?_rule {j : Json} {part : String → Option Json} {r : Rule}
    (hparts : j.fields? ruleParts = some part)
    (hstate : part "state" = some (encode r.state))
    (hevent : part "event" = some (encode r.event))
    (hactions : part "actions" = some (encode r.actions))
    (hnext : part "next" = some (encode r.next)) : decode? j = some r := by
  have hstate := Faithful.decode?_part hstate
  have hevent := Faithful.decode?_part hevent
  have hactions := Faithful.decode?_part hactions
  have hnext := Faithful.decode?_part hnext
  simp only [decode?, Option.bind_eq_bind] at hstate hevent hactions hnext ⊢
  simp only [hparts, hstate, hevent, hactions, hnext, Option.bind_some]
  rfl

instance : Faithful Rule where
  readsBack r := by
    refine ⟨Json.wellSpelled_ofFields ?_, ?_⟩
    · simp only [List.forall_mem_cons]
      exact ⟨Faithful.spelled r.state, Faithful.spelled r.event, Faithful.spelled r.actions,
        Faithful.spelled r.next, by simp⟩
    · exact decode?_rule (Json.fields?_ofFields (by simp) _) rfl rfl rfl rfl

/-- A table is decoded from its only part. -/
theorem decode?_table {j : Json} {part : String → Option Json} {t : Table}
    (hparts : j.fields? tableParts = some part)
    (hrules : part "rules" = some (encode t.rules)) : decode? j = some t := by
  have hrules := Faithful.decode?_part hrules
  simp only [decode?, Option.bind_eq_bind] at hrules ⊢
  simp only [hparts, hrules, Option.bind_some]
  rfl

instance : Faithful Table where
  readsBack t := by
    refine ⟨Json.wellSpelled_ofFields ?_, ?_⟩
    · simp only [List.forall_mem_cons]
      exact ⟨Faithful.spelled t.rules, by simp⟩
    · exact decode?_table (Json.fields?_ofFields (by simp) _) rfl

/-- **Calls and tables are read back.** Any call is read back from its text,
    whatever strings a report names, and so is any list of calls. Any table is
    read back with its rules in their order, with duplicates and without rules
    as well. -/
theorem calls_and_tables_read_back :
    (∀ c : Call, read? (write c) = some c) ∧ (∀ cs : List Call, read? (write cs) = some cs) ∧
      ∀ t : Table, read? (write t) = some t := by
  refine ⟨fun c => ?_, fun cs => ?_, fun t => ?_⟩
  · exact (Faithful.readsBack c).read?_write
  · exact (Faithful.readsBack cs).read?_write
  · exact (Faithful.readsBack t).read?_write

/-! ## Records and histories -/

theorem readsBack_instant {t : Instant} (ht : t.InCalendar) : ReadsBack t where
  spelled := Json.wellSpelled_ofString t.write
  decoded := by
    show Option.bind (some t.write) Instant.read? = some t
    rw [Option.bind_some, Instant.read?_write ht]

section record
variable {j : Json} {part : String → Option Json} {r : Record}

/-- A record is decoded with the instant that its time stamp decodes to, if all
    other parts are those of the record. -/
theorem decode?_record_timestamp (hparts : j.fields? recordParts = some part)
    (hbefore : part "from" = some (encode r.before))
    (hafter : part "to" = some (encode r.after))
    (hinput : part "input" = some (encode r.input))
    (hactions : part "actions" = some (encode r.actions))
    (houtcome : part "outcome" = some (encode r.outcome)) :
    decode? j = ((part "timestamp").bind decode?).map fun t => { r with timestamp := t } := by
  have hbefore := Faithful.decode?_part hbefore
  have hafter := Faithful.decode?_part hafter
  have hinput := Faithful.decode?_part hinput
  have hactions := Faithful.decode?_part hactions
  have houtcome := Faithful.decode?_part houtcome
  simp only [decode?, Option.bind_eq_bind] at hbefore hafter hinput hactions houtcome ⊢
  simp only [hparts, hbefore, hafter, hinput, hactions, houtcome, Option.bind_some]
  rw [Option.map_eq_bind]
  rfl

theorem decode?_record (hr : r.timestamp.InCalendar) (hparts : j.fields? recordParts = some part)
    (hbefore : part "from" = some (encode r.before))
    (hafter : part "to" = some (encode r.after))
    (hinput : part "input" = some (encode r.input))
    (hactions : part "actions" = some (encode r.actions))
    (houtcome : part "outcome" = some (encode r.outcome))
    (htimestamp : part "timestamp" = some (encode r.timestamp)) : decode? j = some r := by
  rw [decode?_record_timestamp hparts hbefore hafter hinput hactions houtcome,
    (readsBack_instant hr).decode?_part htimestamp]
  rfl

/-- The parts of a record are well spelled, with any text for its time stamp. -/
theorem wellSpelled_record (r : Record) (stamp : String) :
    (Json.ofFields [("from", encode r.before), ("to", encode r.after), ("input", encode r.input),
      ("actions", encode r.actions), ("outcome", encode r.outcome),
      ("timestamp", .ofString stamp)]).WellSpelled := by
  apply Json.wellSpelled_ofFields
  simp only [List.forall_mem_cons]
  exact ⟨Faithful.spelled r.before, Faithful.spelled r.after, Faithful.spelled r.input,
    Faithful.spelled r.actions, Faithful.spelled r.outcome, Json.wellSpelled_ofString stamp,
    by simp⟩

/-- A record is read back if its instant is `InCalendar`. -/
theorem readsBack_record (hr : r.timestamp.InCalendar) : ReadsBack r where
  spelled := wellSpelled_record r r.timestamp.write
  decoded := decode?_record hr (Json.fields?_ofFields (by simp) _) rfl rfl rfl rfl rfl rfl

end record

/-- A history is decoded from its parts, wherever they stand; the limit may be
    left out. -/
theorem decode?_history {j : Json} {part : String → Option Json} {h : History}
    (hparts : j.fields? historyParts = some part)
    (hrecords : (part "records").bind decode? = some h.records.toList)
    (hlimit : (match part "limit" with
      | some content => decode? content
      | none => some none) = some h.limit) : decode? j = some h := by
  show ((j.fields? historyParts).bind fun part =>
    ((part "records").bind decode?).bind fun (records : List Record) =>
      match part "limit" with
      | some content => (decode? content).bind fun limit =>
        some { records := records.toArray, limit }
      | none => some { records := records.toArray, limit := none }) = some h
  rw [hparts, Option.bind_some, hrecords, Option.bind_some]
  split at hlimit
  · simp only [hlimit, Option.bind_some]
  · simp only [Option.some.inj hlimit]

theorem readsBack_records {h : History} (hh : ∀ r ∈ h.records.toList, r.timestamp.InCalendar) :
    ReadsBack h.records.toList :=
  readsBack_list fun r hr => readsBack_record (hh r hr)

/-- A history is read back if the instants of its records are `InCalendar`. -/
theorem readsBack_history {h : History} (hh : ∀ r ∈ h.records.toList, r.timestamp.InCalendar) :
    ReadsBack h := by
  have hrecords := readsBack_records hh
  have hlimit : ReadsBack h.limit := Faithful.readsBack h.limit
  refine ⟨Json.wellSpelled_ofFields ?_, ?_⟩
  · simp only [List.forall_mem_cons]
    exact ⟨hrecords.spelled, hlimit.spelled, by simp⟩
  · exact decode?_history (Json.fields?_ofFields (by simp) _) (hrecords.decode?_part rfl)
      hlimit.decoded

/-- **Histories are read back.** A history with any records and any limit or
    none, also with more records than its limit, is read back from its text, as
    long as the instants on record are in the calendar; so is a single
    record. -/
theorem histories_read_back :
    (∀ h : History, (∀ r ∈ h.records.toList, r.timestamp.InCalendar) →
      read? (write h) = some h) ∧
    ∀ r : Record, r.timestamp.InCalendar → read? (write r) = some r := by
  constructor
  · intro h hh
    exact (readsBack_history hh).read?_write
  · intro r hr
    exact (readsBack_record hr).read?_write

/-- The last instant of a leap day long before 1970. -/
def leapDayEnd : Instant := ⟨-11670912000000000001⟩

/-- Two records under a cap of one, of the first instant in the calendar and of
    the end of a leap day. -/
def oldRecords : History where
  records := #[
    ⟨⟨.alarming, .locked, .reset, [.alarmOff, .lock], .handled⟩, ⟨-62135596800000000000⟩⟩,
    ⟨⟨.alarming, .alarming, .event .pass, [], .unexpected⟩, leapDayEnd⟩]
  limit := some 1

theorem oldRecords_read_back :
    (∀ r ∈ oldRecords.records.toList, r.timestamp.InCalendar) ∧
      leapDayEnd.write = "1600-02-29T23:59:59.999999999Z" ∧
      read? (write oldRecords) = some oldRecords ∧
      ∀ r ∈ oldRecords.records.toList, read? (write r) = some r := by
  have hcalendar : ∀ r ∈ oldRecords.records.toList, r.timestamp.InCalendar := by decide
  exact ⟨hcalendar, by decide, histories_read_back.1 oldRecords hcalendar,
    fun r hr => histories_read_back.2 r (hcalendar r hr)⟩

end Form

end FareGate
