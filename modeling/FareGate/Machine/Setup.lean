import FareGate.Machine
import FareGate.Table.Problem

/-! # Setting up a gate

  * **Setup**: the handler, table, initial state and cap on the history that a
    gate is to have. All but the handler have a usual value.
  * **Setting**: one of these given; a later one takes the place of an earlier
    one of its kind.
  * **Build**: a gate, if there is a handler and the table has no problems.
    A missing handler is reported before any problem of the table. -/

namespace FareGate

/-- Why a gate could not be set up. -/
inductive SetupError where
  | missingHandler
  | invalidTable (first : Problem) (others : List Problem)
deriving DecidableEq

namespace SetupError

/-- The wording of an error; the problems of a table are all listed. -/
def message : SetupError → String
  | missingHandler => "Action handler not specified. Call .actions(handler) before .build()"
  | invalidTable first others =>
    "Transition table is invalid: "
      ++ "; ".intercalate ((first :: others).map Problem.message)

/-- The problems of the table that an error tells of. -/
def problems : SetupError → List Problem
  | missingHandler => []
  | invalidTable first others => first :: others

end SetupError

/-- What a gate is to be set up with. -/
structure Setup (σ : Type) where
  handler : Option σ := none
  table : Table := .twoCoin
  initial : State := .initial
  historyLimit : UInt64 := History.defaultLimit

/-- One thing that can be set. -/
inductive Setting (σ : Type) where
  | handler (h : σ)
  | table (t : Table)
  | initial (s : State)
  | historyLimit (limit : UInt64)

namespace Setup

variable {σ : Type}

def set (p : Setup σ) : Setting σ → Setup σ
  | .handler h => { p with handler := some h }
  | .table t => { p with table := t }
  | .initial s => { p with initial := s }
  | .historyLimit limit => { p with historyLimit := limit }

/-- The setup that these settings lead to, made in order. -/
def ofSettings (settings : List (Setting σ)) : Setup σ := settings.foldl set {}

/-- The gate, and the line that its setting up leaves in the log. A missing
    handler is reported first, then the `Table.problems`. -/
def build (p : Setup σ) : Except SetupError (LogEntry × Machine σ) :=
  match p.handler with
  | none => .error .missingHandler
  | some handler =>
    match p.table.problems p.initial with
    | first :: others => .error (.invalidTable first others)
    | [] => .ok (.built p.initial p.table.size p.historyLimit,
        .start p.table p.initial p.historyLimit handler)

theorem build_cases (p : Setup σ) :
    (p.handler = none ∧ p.build = .error .missingHandler) ∨
    (∃ first others, p.handler ≠ none ∧ p.table.problems p.initial = first :: others ∧
      p.build = .error (.invalidTable first others)) ∨
    (∃ handler, p.handler = some handler ∧ p.table.problems p.initial = [] ∧
      p.build = .ok (.built p.initial p.table.size p.historyLimit,
        .start p.table p.initial p.historyLimit handler)) := by
  unfold build
  cases hhandler : p.handler with
  | none => exact .inl ⟨rfl, rfl⟩
  | some handler =>
    cases hproblems : p.table.problems p.initial with
    | nil => exact .inr (.inr ⟨handler, rfl, rfl, rfl⟩)
    | cons first others => exact .inr (.inl ⟨first, others, by simp, rfl, rfl⟩)

/-- What is known of a gate that came of `build`. -/
theorem of_build {p : Setup σ} {line : LogEntry} {m : Machine σ}
    (hbuilt : p.build = .ok (line, m)) :
    ∃ handler, p.handler = some handler ∧ p.table.problems p.initial = [] ∧
      line = .built p.initial p.table.size p.historyLimit ∧
      m = .start p.table p.initial p.historyLimit handler := by
  rcases p.build_cases with ⟨_, heq⟩ | ⟨_, _, _, _, heq⟩ | ⟨handler, hgiven, hvalid, heq⟩
  · rw [heq] at hbuilt
    cases hbuilt
  · rw [heq] at hbuilt
    cases hbuilt
  · rw [heq] at hbuilt
    cases hbuilt
    exact ⟨handler, hgiven, hvalid, rfl, rfl⟩

/-- With a handler and nothing else set, the gate is the standard one. -/
theorem build_standard (handler : σ) :
    (ofSettings [.handler handler]).build =
      .ok (.built .initial 7 History.defaultLimit, .standard handler) := rfl

end Setup

end FareGate
