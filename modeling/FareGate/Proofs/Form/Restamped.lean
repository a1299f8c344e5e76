import FareGate.Proofs.Form.Spellings
import FareGate.Proofs.Time.Spelling

/-! # A time stamp counts as the instant it spells

  A record is written with the time stamp of universal time. Another text can
  stand in its place:

  * **Restamped** records (`restamped`): the written form with another text for
    the time stamp, and all else as it was.
  * A spelling of the record's own instant (`Instant.SpelledBy`) makes no
    difference: the record is read, and is written as before.
  * Spellings of two instants do make one, and what spells no instant is not
    read at all. -/

namespace FareGate

namespace Json

/-- An object with another value under a key. -/
def withMember (j : Json) (key : String) (value : Json) : Json :=
  match j with
  | object members => object (members.map fun m => (m.1, if m.1 = some key then value else m.2))
  | j => j

end Json

namespace Form

/-- The written form of a record, with another text for its time stamp. -/
def restamped (r : Record) (stamp : String) : Json :=
  (encode r).withMember "timestamp" (.ofString stamp)

section restamped
variable (r : Record) (stamp : String)

theorem restamped_eq : restamped r stamp =
    .ofFields [("from", encode r.before), ("to", encode r.after), ("input", encode r.input),
      ("actions", encode r.actions), ("outcome", encode r.outcome),
      ("timestamp", .ofString stamp)] := by
  rfl

theorem readable_restamped : (restamped r stamp).Readable := by
  have hname : ∀ {α : Type} [Named α] (a : α), (encodeName a).Readable :=
    fun a => Json.readable_ofString _
  have hinput : (encode r.input).Readable := by
    cases r.input with
    | event e =>
      apply Json.readable_ofFields
      rw [List.forall_mem_singleton]
      exact hname e
    | reset => exact Json.readable_ofString _
  have hactions : (encode r.actions).Readable := by
    apply Json.readable_array
    intro j hj
    obtain ⟨a, -, rfl⟩ := List.mem_map.mp hj
    exact hname a
  rw [restamped_eq]
  apply Json.readable_ofFields
  simp only [List.forall_mem_cons]
  exact ⟨hname r.before, hname r.after, hinput, hactions, hname r.outcome,
    Json.readable_ofString stamp, by simp⟩

theorem spelledBy_restamped : (restamped r stamp).SpelledBy (restamped r stamp).compact := by
  apply Json.spelledBy_compact ?_ (readable_restamped r stamp)
  rw [restamped_eq]
  exact wellSpelled_record r stamp

/-- A restamped record is decoded with what `Instant.read?` makes of the
    text. -/
theorem decode?_restamped :
    decode? (restamped r stamp) =
      (Instant.read? stamp).map fun t => { r with timestamp := t } := by
  rw [restamped_eq,
    decode?_record_timestamp (Json.fields?_ofFields (by simp) _) rfl rfl rfl rfl rfl]
  rfl

end restamped

/-- From a restamped record in any text, the record is read at the instant that
    the time stamp spells, and nothing if it spells none. -/
theorem read?_restamped {r : Record} {stamp text : String}
    (htext : (restamped r stamp).SpelledBy text) (a : Record) :
    read? text = some a ↔
      a.timestamp.SpelledBy stamp ∧ a = { r with timestamp := a.timestamp } := by
  rw [read?_of_spelledBy htext, decode?_restamped, Option.map_eq_some_iff]
  constructor
  · rintro ⟨t, ht, rfl⟩
    exact ⟨Instant.read?_eq_some_iff.mp ht, rfl⟩
  · rintro ⟨hstamp, ha⟩
    exact ⟨a.timestamp, Instant.read?_eq_some_iff.mpr hstamp, ha.symm⟩

/-- **A time stamp counts as the instant it spells.** Take the written form of a
    record and put in place of its time stamp any spelling of the same instant
    (`Instant.SpelledBy`): what a clock shows at any offset of hours and
    minutes, in a year of four digits, with any fraction of up to nine digits
    that stands for the same nanoseconds. From every text of this the record is
    read, and it is written as it was before.

    Spellings of two instants are read as two records that differ, whatever
    records they are put in. And nothing is read but the record at the instant
    that is spelled. -/
theorem stamps_count_as_instants :
    (∀ (r : Record) (stamp : String), r.timestamp.SpelledBy stamp →
      let j := restamped r stamp
      j.SpelledBy j.compact ∧ ∀ text, j.SpelledBy text →
        read? text = some r ∧ (read? text : Option Record).map write = some (write r)) ∧
    (∀ (t t' : Instant) (stamp stamp' : String), t.SpelledBy stamp → t'.SpelledBy stamp' →
      t ≠ t' → ∀ (r r' : Record) (text text' : String), (restamped r stamp).SpelledBy text →
        (restamped r' stamp').SpelledBy text' →
          ∃ a a' : Record, read? text = some a ∧ read? text' = some a' ∧ a ≠ a') ∧
    ∀ (r : Record) (stamp text : String), (restamped r stamp).SpelledBy text → ∀ a : Record,
      read? text = some a ↔
        a.timestamp.SpelledBy stamp ∧ a = { r with timestamp := a.timestamp } := by
  refine ⟨?_, ?_, ?_⟩
  · intro r stamp hstamp j
    refine ⟨spelledBy_restamped r stamp, fun text htext => ?_⟩
    have hread : read? text = some r := (read?_restamped htext r).mpr ⟨hstamp, rfl⟩
    rw [hread]
    exact ⟨rfl, rfl⟩
  · intro t t' stamp stamp' ht ht' hdifferent r r' text text' htext htext'
    refine ⟨{ r with timestamp := t }, { r' with timestamp := t' }, ?_, ?_, ?_⟩
    · exact (read?_restamped htext _).mpr ⟨ht, rfl⟩
    · exact (read?_restamped htext' _).mpr ⟨ht', rfl⟩
    · intro hsame
      exact hdifferent (congrArg Record.timestamp hsame)
  · intro r stamp text htext
    exact read?_restamped htext

/-- The instant after `leapDayEnd`. -/
def marchStart : Instant := ⟨-11670912000000000000⟩

/-- Somebody pushes through an alarming gate at the end of the leap day. -/
def leapDayPush : Record :=
  ⟨⟨.alarming, .alarming, .event .pass, [], .unexpected⟩, leapDayEnd⟩

/-- A clock one minute ahead shows the first of March already, and the record is
    read all the same. A clock almost a day behind shows the leap day a
    nanosecond later, and another record is read. -/
theorem leapDayPush_stamps_count :
    let early := "1600-03-01T00:00:59.999999999+00:01"
    let late := "1600-02-29T00:01:00.000-23:59"
    leapDayEnd.SpelledBy early ∧ marchStart.SpelledBy late ∧
      read? (restamped leapDayPush early).compact = some leapDayPush ∧
      (read? (restamped leapDayPush early).compact : Option Record).map write =
        some (write leapDayPush) ∧
      (∃ a a' : Record, read? (restamped leapDayPush early).compact = some a ∧
        read? (restamped leapDayPush late).compact = some a' ∧ a ≠ a') ∧
      read? (restamped leapDayPush late).compact =
        some { leapDayPush with timestamp := marchStart } := by
  intro early late
  have hdigits : ∀ (k : Nat) (d : Char), d.isDigit → ∀ c ∈ List.replicate k d, c.isDigit := by
    intro k d hd c hc
    rw [List.eq_of_mem_replicate hc]
    exact hd
  have hnines : Stamp.FractionOf leapDayEnd.subsecond ('.' :: List.replicate 9 '9') :=
    .digits (hdigits 9 '9' (by decide)) (by decide) (by decide)
  have hzeros : Stamp.FractionOf marchStart.subsecond ('.' :: List.replicate 3 '0') :=
    .digits (hdigits 3 '0' (by decide)) (by decide) (by decide)
  have hearly : leapDayEnd.SpelledBy early := .shown (.ahead 0 1) (by decide) hnines
  have hlate : marchStart.SpelledBy late := .shown (.behind 23 59) (by decide) hzeros
  obtain ⟨hown, hother, hread⟩ := stamps_count_as_instants
  obtain ⟨htext, hback⟩ := hown leapDayPush early hearly
  have htext' := spelledBy_restamped leapDayPush late
  obtain ⟨hsame, hwritten⟩ := hback _ htext
  exact ⟨hearly, hlate, hsame, hwritten,
    hother _ _ _ _ hearly hlate (by decide) _ _ _ _ htext htext',
    (hread leapDayPush late _ htext' _).mpr ⟨hlate, rfl⟩⟩

end Form

end FareGate
