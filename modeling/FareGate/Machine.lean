import FareGate.History
import FareGate.Log

/-! # The machine of a gate

  A machine joins a table and a current state with a handler and a history.
  `Machine.handle` takes an input in this order:

  1. `Table.transition` says what the step is;
  2. the handler is called, once for each of the `Transition.calls`;
  3. the state changes, and the step is recorded.

  If the handler breaks off, the machine stops at 2: the handler keeps what was
  done to it, and state and history stay as they were.

  `handle` writes no log. The line for an input is the `Transition.logEntry` of
  its step, and `Machine.runThrough` writes it before the input is handled. -/

namespace FareGate

/-- A gate in operation, with a handler of type `σ`. -/
structure Machine (σ : Type) where
  state : State
  table : Table
  /-- The handler that carries out the effects. -/
  handler : σ
  /-- The records of the steps completed. -/
  history : History

namespace Machine

variable {σ : Type}

/-- A gate with a given table and initial state, which are not checked. -/
def start (table : Table) (initial : State) (limit : UInt64) (handler : σ) : Machine σ where
  state := initial
  table := table
  handler := handler
  history := .capped limit

/-- The standard gate: the two-coin table, locked, with the usual cap on its
    history. -/
def standard (handler : σ) : Machine σ :=
  start .twoCoin .initial History.defaultLimit handler

/-- What the machine would make of an input now, by its table and state. -/
def transition (m : Machine σ) (i : Input) : Transition := m.table.transition m.state i

/-- The machine after completing a step at `now`, with the handler that its
    calls have left. -/
def complete (t : Transition) (now : Instant) (handler : σ) (m : Machine σ) : Machine σ where
  state := t.after
  table := m.table
  handler := handler
  history := m.history.record (t.recordAt now)

/-- Work on the handler alone, by whoever owns the gate. -/
def onHandler (work : σ → Attempt σ) : Machine σ → Attempt (Machine σ)
  | ⟨state, table, handler, history⟩ =>
    (work handler).map fun handler => ⟨state, table, handler, history⟩

def clearHistory (m : Machine σ) : Machine σ := { m with history := m.history.clear }

/-! ## Taking an input -/

variable [Handler σ]

/-- Takes an input: makes the calls of the step and, if they are finished,
    completes it. -/
def handle (now : Instant) (i : Input) : Machine σ → Attempt (Machine σ)
  | ⟨state, table, handler, history⟩ =>
    let t := table.transition state i
    match performAll t.calls handler with
    | .finished handler => .finished ⟨t.after, table, handler, history.record (t.recordAt now)⟩
    | .brokenOff handler => .brokenOff ⟨state, table, handler, history⟩

theorem handle_finished {now : Instant} {i : Input} {m : Machine σ} {handler : σ}
    (hcalls : performAll (m.transition i).calls m.handler = .finished handler) :
    m.handle now i = .finished (m.complete (m.transition i) now handler) := by
  obtain ⟨state, table, handler', history⟩ := m
  simp only [transition] at hcalls
  simp [handle, complete, transition, hcalls]

theorem handle_brokenOff {now : Instant} {i : Input} {m : Machine σ} {handler : σ}
    (hcalls : performAll (m.transition i).calls m.handler = .brokenOff handler) :
    m.handle now i = .brokenOff { m with handler := handler } := by
  obtain ⟨state, table, handler', history⟩ := m
  simp only [transition] at hcalls
  simp [handle, hcalls]

end Machine

end FareGate
