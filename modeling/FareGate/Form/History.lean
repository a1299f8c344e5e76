import FareGate.Form
import FareGate.History
import FareGate.Time.Stamp

/-! # The JSON form of records and histories

  An instant is written as a time stamp. A history may leave out its limit and
  then has none; it may also hold more records than its limit. -/

namespace FareGate.Form

/-- An instant is written as a time stamp in universal time. -/
instance : Form Instant where
  encode t := .ofString t.write
  decode? j := j.string? >>= Instant.read?

/-- A limit is a plain numeral below 2 ^ 64. -/
instance : Form UInt64 where
  encode n := .number (String.ofList (Decimal.digits n.toNat))
  decode?
    | .number literal =>
      let n := Decimal.value literal.toList
      if literal.toList.all Char.isDigit ∧ n < UInt64.size then some (.ofNat n) else none
    | _ => none

/-- The absence of a value is written as `null`. -/
instance {α : Type} [Form α] : Form (Option α) where
  encode
    | some a => encode a
    | none => .null
  decode?
    | .null => some none
    | j => (decode? j).map some

def recordParts : List String := ["from", "to", "input", "actions", "outcome", "timestamp"]

/-- A record is written by its parts. -/
instance : Form Record where
  encode r :=
    .ofFields [("from", encode r.before), ("to", encode r.after), ("input", encode r.input),
      ("actions", encode r.actions), ("outcome", encode r.outcome),
      ("timestamp", encode r.timestamp)]
  decode? j := do
    let part ← j.fields? recordParts
    let before ← part "from" >>= decode?
    let after ← part "to" >>= decode?
    let input ← part "input" >>= decode?
    let actions ← part "actions" >>= decode?
    let outcome ← part "outcome" >>= decode?
    let timestamp ← part "timestamp" >>= decode?
    return { before, after, input, actions, outcome, timestamp }

def historyParts : List String := ["records", "limit"]

/-- A history is written by its parts; a limit that is left out is none. -/
instance : Form History where
  encode h := .ofFields [("records", encode h.records.toList), ("limit", encode h.limit)]
  decode? j := do
    let part ← j.fields? historyParts
    let records : List Record ← part "records" >>= decode?
    let limit ← match part "limit" with
      | some content => decode? content
      | none => some none
    return { records := records.toArray, limit }

end FareGate.Form
