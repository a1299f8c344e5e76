import FareGate.Table

/-! # Problems of a table

  A gate is only set up with a table that has no problems. The problems of a
  table are listed all together and in a fixed order:

  * **No rules**: the table is empty.
  * **Duplicate rules**: a rule whose state and event an earlier rule already
    answers, in the order of the rules.
  * **Unused states**: a state that no rule leads to and that is neither the
    initial state nor the one a reset leads to, in declaration order. -/

namespace FareGate

/-- One reason not to use a table. -/
inductive Problem where
  | noRules
  /-- An earlier rule already answers this event in this state. -/
  | duplicateRule (state : State) (event : Event)
  /-- The gate can never be in this state. -/
  | unusedState (state : State)
deriving DecidableEq

def Problem.message : Problem → String
  | noRules => "Transition table has no rules"
  | duplicateRule state event => "Duplicate rule for " ++ state.name ++ "(" ++ event.name ++ ")"
  | unusedState state => "State " ++ state.name ++ " is never entered"

namespace Table

/-- The rules whose state and event are among those seen or belong to an
    earlier rule. -/
def duplicates (seen : List (State × Event)) : List Rule → List Rule
  | [] => []
  | r :: rest =>
    if r.key ∈ seen then r :: duplicates seen rest else duplicates (r.key :: seen) rest

/-- Whether a gate that starts in `initial` has a way into `state`. -/
def uses (t : Table) (initial state : State) : Bool :=
  state = initial || state = State.afterReset || t.rules.any fun r => r.next = state

def unusedStates (t : Table) (initial : State) : List State :=
  (Named.all (α := State)).filter fun s => !t.uses initial s

/-- Every problem of a table for a gate that starts in `initial`: the kinds in
    the order of `Problem`. -/
def problems (t : Table) (initial : State) : List Problem :=
  (if t.isEmpty then [.noRules] else [])
    ++ (duplicates [] t.rules).map (fun r => .duplicateRule r.state r.event)
    ++ (t.unusedStates initial).map .unusedState

/-- The standard table has no problems, wherever a gate starts. -/
@[simp] theorem problems_twoCoin (initial : State) : twoCoin.problems initial = [] := by
  cases initial <;> rfl

end Table

end FareGate
