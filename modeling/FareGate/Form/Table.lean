import FareGate.Form
import FareGate.Table

/-! # The JSON form of rules and tables -/

namespace FareGate.Form

def ruleParts : List String := ["state", "event", "actions", "next"]

/-- A rule is written by its parts. -/
instance : Form Rule where
  encode r :=
    .ofFields [("state", encode r.state), ("event", encode r.event),
      ("actions", encode r.actions), ("next", encode r.next)]
  decode? j := do
    let part ← j.fields? ruleParts
    let state ← part "state" >>= decode?
    let event ← part "event" >>= decode?
    let actions ← part "actions" >>= decode?
    let next ← part "next" >>= decode?
    return { state, event, actions, next }

def tableParts : List String := ["rules"]

/-- A table is written as its list of rules. It need not be free of problems. -/
instance : Form Table where
  encode t := .ofFields [("rules", encode t.rules)]
  decode? j := do
    let part ← j.fields? tableParts
    let rules ← part "rules" >>= decode?
    return { rules }

end FareGate.Form
