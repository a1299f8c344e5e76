import FareGate.Machine

/-! # Runs of a machine

  * **Command**: everything that can be asked of a machine in operation.
  * **Report**: what a command leaves behind, namely the lines it wrote to the
    log and the machine, finished with or broken off in the middle.
  * **Run**: commands in order. `runThrough` stops at the first one that breaks
    off; `runOn` uses the machine further whatever happened. -/

namespace FareGate

/-- Something asked of a machine whose handler has type `σ`. -/
inductive Command (σ : Type) where
  /-- Take an input at this instant. -/
  | input (now : Instant) (i : Input)
  /-- Drop the records. -/
  | clearHistory
  /-- Let the owner work on the handler. -/
  | onHandler (work : σ → Attempt σ)

/-- What some work on a machine leaves behind. -/
structure Report (σ : Type) where
  /-- The lines written to the log, in order. -/
  log : Array LogEntry
  /-- The machine, and whether the work was finished. -/
  result : Attempt (Machine σ)

namespace Machine

variable {σ : Type} [Handler σ]

/-- The line that a command writes to the log, if it writes one. -/
def logOf (m : Machine σ) : Command σ → Option LogEntry
  | .input _ i => some (m.transition i).logEntry
  | .clearHistory => none
  | .onHandler _ => none

def obey (m : Machine σ) : Command σ → Attempt (Machine σ)
  | .input now i => m.handle now i
  | .clearHistory => .finished m.clearHistory
  | .onHandler work => m.onHandler work

/-- Carries out commands in order, up to the first that breaks off, and adds the
    line of each to `log` before it is obeyed. -/
def runThrough (log : Array LogEntry) : List (Command σ) → Machine σ → Report σ
  | [], m => ⟨log, .finished m⟩
  | c :: rest, m =>
    let log := match m.logOf c with
      | some line => log.push line
      | none => log
    match m.obey c with
    | .finished m => runThrough log rest m
    | .brokenOff m => ⟨log, .brokenOff m⟩

theorem runThrough_cons (log : Array LogEntry) (c : Command σ) (rest : List (Command σ))
    (m : Machine σ) : runThrough log (c :: rest) m =
      match m.obey c with
      | .finished m' => runThrough (log ++ (m.logOf c).toArray) rest m'
      | .brokenOff m' => ⟨log ++ (m.logOf c).toArray, .brokenOff m'⟩ := by
  -- without a line, nothing is pushed
  simp only [runThrough]
  cases m.logOf c <;> cases m.obey c <;> simp

/-- The machine after commands in order, each carried out on what the one before
    it left, finished or not. -/
def runOn (commands : List (Command σ)) (m : Machine σ) : Machine σ :=
  commands.foldl (fun m c => (m.obey c).value) m

/-- The lines that `runOn` writes to the log. -/
def logOn : List (Command σ) → Machine σ → List LogEntry
  | [], _ => []
  | c :: rest, m => (m.logOf c).toList ++ logOn rest (m.obey c).value

@[simp] theorem runOn_nil (m : Machine σ) : m.runOn [] = m := rfl

@[simp] theorem runOn_cons (c : Command σ) (rest : List (Command σ)) (m : Machine σ) :
    m.runOn (c :: rest) = (m.obey c).value.runOn rest := rfl

theorem runOn_append (first second : List (Command σ)) (m : Machine σ) :
    m.runOn (first ++ second) = (m.runOn first).runOn second := by
  simp [runOn]

end Machine

end FareGate
