import FareGate.Proofs.Machine.Run

/-! # Inputs as they come in, and the records they offer

  A run seen from outside, input by input and command by command:

  * **Occasion** (`occasions`): an input as it comes in, with the state that it
    finds the machine in, the lines that it writes to the log and whether it is
    completed.
  * **Offer** (`offered`): the records that a command hands to the history, seen
    on an empty history without a cap, which keeps every one of them.

  An input that is completed offers one record of its step; any other command,
  and an input that breaks off, offers none. Unless the records are dropped, the
  history after a run is what the one before it makes of the records
  offered. -/

namespace FareGate

/-- An input as it comes in. -/
structure Occasion where
  /-- The state that the input finds the machine in. -/
  state : State
  input : Input
  /-- The lines that are written to the log for it, in order. -/
  log : List LogEntry
  /-- The input is not broken off. -/
  completed : Bool
deriving DecidableEq

namespace Machine

variable {σ : Type} [Handler σ]

/-! ## Occasions -/

/-- The inputs of a run as they come in, in order. -/
def occasions : List (Instant × Input) → Machine σ → List Occasion
  | [], _ => []
  | (now, i) :: rest, m =>
    { state := m.state
      input := i
      log := (m.logOf (.input now i)).toList
      completed := (m.handle now i).isFinished } :: occasions rest (m.handle now i).value

theorem input_occasions (timed : List (Instant × Input)) (m : Machine σ) :
    (m.occasions timed).map (·.input) = timed.map (·.2) := by
  induction timed generalizing m with
  | nil => rfl
  | cons p rest ih =>
    simp only [occasions, List.map_cons]
    rw [ih]

/-- What `logOn` writes is written as the inputs come in. -/
theorem log_occasions (timed : List (Instant × Input)) (m : Machine σ) :
    (m.occasions timed).flatMap (·.log) = m.logOn (feed timed) := by
  induction timed generalizing m with
  | nil => rfl
  | cons p rest ih =>
    simp only [occasions, List.flatMap_cons]
    rw [ih]
    rfl

/-- With a steady handler, inputs come in along the `Table.walk`. -/
theorem occasions_steady {m : Machine σ} (hm : Steady m.handler)
    (timed : List (Instant × Input)) :
    (m.occasions timed).map (fun o => (o.state, o.input)) =
      (m.table.walk m.state (timed.map (·.2))).map fun t => (t.before, t.input) := by
  induction timed generalizing m with
  | nil => rfl
  | cons p rest ih =>
    obtain ⟨now, i⟩ := p
    obtain ⟨s, hcalls⟩ := hm (m.transition i).calls
    have hrest := ih (m := m.complete (m.transition i) now s) (hm.after_calls hcalls)
    simp only [occasions, List.map_cons, Table.walk, Table.before_transition,
      Table.input_transition]
    rw [handle_finished hcalls]
    exact congrArg _ hrest

/-! ## Offers -/

/-- The records that a command offers to the history: those that an empty
    history without a cap holds after it. -/
def offer (m : Machine σ) (c : Command σ) : List Record :=
  (obey { m with history := .uncapped } c).value.history.records.toList

/-- The records that a run offers to the history, in order. -/
def offered : List (Command σ) → Machine σ → List Record
  | [], _ => []
  | c :: rest, m => m.offer c ++ offered rest (m.obey c).value

@[simp] theorem offer_clearHistory (m : Machine σ) : m.offer .clearHistory = [] := rfl

@[simp] theorem offer_onHandler (m : Machine σ) (work : σ → Attempt σ) :
    m.offer (.onHandler work) = [] := by
  simp only [offer, obey, value_onHandler]
  rfl

/-- An input that is completed offers one record of its step. The calls are the
    same whatever history the machine has. -/
theorem offer_finished {m : Machine σ} {now : Instant} {i : Input} {s : σ}
    (hcalls : performAll (m.transition i).calls m.handler = .finished s) :
    m.offer (.input now i) = [(m.transition i).recordAt now] := by
  simp only [offer, obey]
  rw [handle_finished (m := { m with history := .uncapped }) hcalls]
  rfl

theorem offer_brokenOff {m : Machine σ} {now : Instant} {i : Input} {s : σ}
    (hcalls : performAll (m.transition i).calls m.handler = .brokenOff s) :
    m.offer (.input now i) = [] := by
  simp only [offer, obey]
  rw [handle_brokenOff (m := { m with history := .uncapped }) hcalls]
  rfl

/-- Unless the records are dropped, the history takes in what a command
    offers. -/
theorem history_obey (m : Machine σ) {c : Command σ} (hc : c ≠ .clearHistory) :
    (m.obey c).value.history = m.history.recordAll (m.offer c) := by
  cases c with
  | input now i =>
    rcases handle_cases m now i with ⟨s, hcalls, hhandle⟩ | ⟨s, hcalls, hhandle⟩
    · rw [offer_finished hcalls, obey, hhandle]
      rfl
    · rw [offer_brokenOff hcalls, obey, hhandle]
      rfl
  | clearHistory => exact absurd rfl hc
  | onHandler work =>
    rw [offer_onHandler, obey, value_onHandler]
    rfl

/-- After a run in which the records are never dropped, the history is what
    `recordAll` makes of the one before it and the records offered. -/
theorem history_runOn (m : Machine σ) {commands : List (Command σ)}
    (hcommands : .clearHistory ∉ commands) :
    (m.runOn commands).history = m.history.recordAll (m.offered commands) := by
  induction commands generalizing m with
  | nil => rfl
  | cons c rest ih =>
    have hfirst : c ≠ .clearHistory := fun h => hcommands (h ▸ List.mem_cons_self)
    have hrest : .clearHistory ∉ rest := fun h => hcommands (List.mem_cons_of_mem c h)
    rw [runOn_cons, ih _ hrest, history_obey m hfirst, offered, History.recordAll_append]

omit [Handler σ] in
theorem clearHistory_notMem_feed (timed : List (Instant × Input)) :
    (.clearHistory : Command σ) ∉ feed timed := by
  simp [feed]

end Machine

end FareGate
