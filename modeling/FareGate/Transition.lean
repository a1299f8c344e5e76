import FareGate.Handler
import FareGate.Table

/-! # Transitions

  What a table and a state make of an input, before anything is done about it:
  the states before and after, the actions asked for, and whether the input was
  foreseen.

  * An event with a rule is handled as the rule says.
  * An event without one leaves the state as it is and is reported.
  * A reset locks the arm whatever the table says, and silences the alarm first
    if it sounds. -/

namespace FareGate

/-- One step of a gate. -/
structure Transition where
  before : State
  after : State
  input : Input
  actions : List Action
  outcome : Outcome
deriving DecidableEq

namespace Transition

def changesState (t : Transition) : Bool := t.before ≠ t.after

/-- The calls that a step stands for: its actions, or the one report of an input
    that was not foreseen. -/
def calls (t : Transition) : List Call :=
  match t.outcome with
  | .handled => t.actions.map .action
  | .unexpected => [.unexpected t.before.name t.input.name]

end Transition

def State.resetActions (s : State) : List Action :=
  if s.isAlarming then [.alarmOff, .lock] else [.lock]

/-- What a table and a state make of an input. -/
def Table.transition (t : Table) (s : State) : Input → Transition
  | .event e =>
    match t.lookup s e with
    | some rule => ⟨s, rule.next, .event e, rule.actions, .handled⟩
    | none => ⟨s, s, .event e, [], .unexpected⟩
  | .reset => ⟨s, State.afterReset, .reset, s.resetActions, .handled⟩

namespace Table

@[simp] theorem before_transition (t : Table) (s : State) (i : Input) :
    (t.transition s i).before = s := by
  cases i with
  | event e => simp only [transition]; split <;> rfl
  | reset => rfl

@[simp] theorem input_transition (t : Table) (s : State) (i : Input) :
    (t.transition s i).input = i := by
  cases i with
  | event e => simp only [transition]; split <;> rfl
  | reset => rfl

@[simp] theorem transition_reset (t : Table) (s : State) :
    t.transition s .reset = ⟨s, State.afterReset, .reset, s.resetActions, .handled⟩ := rfl

end Table

end FareGate
