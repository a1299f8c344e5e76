import FareGate.Form
import FareGate.Handler

/-! # The JSON form of calls

  A call is written under a tag that says what it asks for. The names in a
  report of an unforeseen input are any two strings. -/

namespace FareGate.Form

def reportParts : List String := ["state", "event"]

/-- An action is written under the tag `Action`, a report under `Unexpected`. -/
instance : Form Call where
  encode
    | .action a => .ofFields [("Action", encode a)]
    | .unexpected state event =>
      .ofFields [("Unexpected",
        .ofFields [("state", .ofString state), ("event", .ofString event)])]
  decode? j :=
    match j.tagged? with
    | some ("Action", some content) => (decode? content).map Call.action
    | some ("Unexpected", some content) => do
      let part ← content.fields? reportParts
      let state ← part "state" >>= Json.string?
      let event ← part "event" >>= Json.string?
      return .unexpected state event
    | _ => none

end FareGate.Form
