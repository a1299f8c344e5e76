import FareGate.Transition

/-! # The log

  A gate writes one line to its log when it is set up with settings of its own,
  and one for each input it takes up, before it makes any call for that input.
  An input that is broken off in its calls is in the log all the same. -/

namespace FareGate

/-- How urgent a log line is. -/
inductive Level where
  /-- Of interest when looking for a fault. -/
  | debug
  /-- Something went differently than foreseen. -/
  | warn
deriving DecidableEq

def Level.name : Level → String
  | debug => "DEBUG"
  | warn => "WARN"

/-- A list of actions in square brackets, as log lines show it. -/
def Action.showAll (actions : List Action) : String :=
  "[" ++ ", ".intercalate (actions.map Action.name) ++ "]"

inductive LogEntry where
  /-- A gate was set up. -/
  | built (initial : State) (rules : Nat) (historyLimit : UInt64)
  /-- An event is answered by a rule. -/
  | transition (state : State) (event : Event) (next : State) (actions : List Action)
  /-- The gate is being reset. -/
  | reset (state : State) (actions : List Action)
  /-- No rule answers an event. -/
  | unexpected (state : State) (event : Event)
deriving DecidableEq

namespace LogEntry

/-- Only an event without a rule deserves a warning. -/
def level : LogEntry → Level
  | unexpected _ _ => .warn
  | _ => .debug

def message : LogEntry → String
  | built _ _ _ => "built turnstile"
  | transition _ _ _ _ => "turnstile transition"
  | reset _ _ => "turnstile reset"
  | unexpected _ _ => "unexpected turnstile transition"

/-- The particulars of a line, each under its name. -/
def fields : LogEntry → List (String × String)
  | built initial rules historyLimit =>
    [("initial", initial.name), ("rules", toString rules),
     ("history_limit", toString historyLimit.toNat)]
  | transition state event next actions =>
    [("state", state.name), ("event", event.name), ("next", next.name),
     ("actions", Action.showAll actions)]
  | reset state actions =>
    [("state", state.name), ("actions", Action.showAll actions)]
  | unexpected state event =>
    [("state", state.name), ("event", event.name)]

end LogEntry

/-- The line that a step leaves in the log, by its input and its outcome. -/
def Transition.logEntry (t : Transition) : LogEntry :=
  match t.input, t.outcome with
  | .reset, _ => .reset t.before t.actions
  | .event e, .handled => .transition t.before e t.after t.actions
  | .event e, .unexpected => .unexpected t.before e

end FareGate
