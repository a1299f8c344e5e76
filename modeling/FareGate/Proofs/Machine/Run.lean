import FareGate.Machine.Command
import FareGate.Machine.Setup
import FareGate.Proofs.Handler.Steady
import FareGate.Proofs.History.Retention
import FareGate.Proofs.Table.Walk

/-! # Machines and walks

  A machine that takes inputs walks through its table, and the handler has a
  say only in which inputs are completed:

  * **New** (`IsNew`): the machines that can be set up.
  * **One input** is either completed or changes nothing but the handler.
  * **Advanced** (`Advanced`): what a machine is after completing some inputs,
    in terms of the walk of its table.
  * **Abreast** (`Abreast`): machines in the same state with the same steps on
    record. They stay so as both advance by the same inputs.
  * **Stopping** (`takenUp`): a run that stops at the first command that breaks
    off is a run of the commands that it has taken up.
  * **A run** advances a machine by the inputs that were completed. With a
    steady handler these are all of them, and the handler is given the calls of
    the walk. -/

namespace FareGate

def Command.input? {σ : Type} : Command σ → Option Input
  | input _ i => some i
  | clearHistory => none
  | onHandler _ => none

namespace Machine

variable {σ : Type}

/-! ## Machines as they are set up -/

/-- A machine as it is set up: the standard one, or one that came of
    `Setup.build`. -/
inductive IsNew : Machine σ → Prop where
  /-- The standard gate. -/
  | standard (handler : σ) : IsNew (.standard handler)
  /-- A gate with settings that were found to be in order. -/
  | built {p : Setup σ} {line : LogEntry} {m : Machine σ} (hbuild : p.build = .ok (line, m)) :
      IsNew m

theorem IsNew.exists_start {m : Machine σ} (hnew : m.IsNew) :
    ∃ table initial limit handler, m = .start table initial limit handler := by
  cases hnew with
  | standard handler => exact ⟨_, _, _, _, rfl⟩
  | built hbuild =>
    obtain ⟨handler, -, -, -, hm⟩ := Setup.of_build hbuild
    exact ⟨_, _, _, handler, hm⟩

/-! ## What a machine is after inputs -/

/-- **Advance**: `m'` is what `m` becomes by completing these inputs, whatever
    has become of the handler and whatever the times were. -/
structure Advanced (m m' : Machine σ) (inputs : List Input) : Prop where
  table : m'.table = m.table
  state : m'.state = m.table.reach m.state inputs
  limit : m'.history.limit = m.history.limit
  steps : m'.history.steps =
    (m.table.walk m.state inputs).foldl (History.keep m.history.limit) m.history.steps

theorem steps_complete (m : Machine σ) (step : Transition) (now : Instant) (s : σ) :
    (m.complete step now s).history.steps =
      History.keep m.history.limit m.history.steps step :=
  History.map_records_record Record.toTransition _ m.history

theorem Advanced.with_handler (m : Machine σ) (s : σ) : Advanced m { m with handler := s } [] :=
  ⟨rfl, rfl, rfl, rfl⟩

theorem Advanced.complete (m : Machine σ) (now : Instant) (i : Input) (s : σ) :
    Advanced m (m.complete (m.transition i) now s) [i] where
  table := rfl
  state := rfl
  limit := History.limit_record _ _
  steps := steps_complete _ _ _ _

theorem Advanced.trans {m m' m'' : Machine σ} {xs ys : List Input}
    (h₁ : Advanced m m' xs) (h₂ : Advanced m' m'' ys) : Advanced m m'' (xs ++ ys) where
  table := h₂.table.trans h₁.table
  state := by
    rw [h₂.state, h₁.table, h₁.state, Table.reach_append]
  limit := h₂.limit.trans h₁.limit
  steps := by
    rw [h₂.steps, h₁.table, h₁.state, h₁.limit, h₁.steps, Table.walk_append, List.foldl_append]

/-! ## Machines side by side -/

section abreast
variable {τ : Type}

/-- Two machines are **abreast** if they are in the same state and have the same
    on record but for the times, whatever their tables and handlers are. -/
structure Abreast (m : Machine σ) (n : Machine τ) : Prop where
  state : n.state = m.state
  limit : n.history.limit = m.history.limit
  steps : n.history.steps = m.history.steps

theorem Abreast.start (t u : Table) (s : State) (limit : UInt64) (h : σ) (h' : τ) :
    Abreast (start t s limit h) (start u s limit h') where
  state := rfl
  limit := rfl
  steps := rfl

/-- Machines stay abreast if both `complete` the same step. -/
theorem Abreast.complete {m : Machine σ} {n : Machine τ} (h : Abreast m n) (step : Transition)
    (now now' : Instant) (s : σ) (s' : τ) :
    Abreast (m.complete step now s) (n.complete step now' s') where
  state := rfl
  limit := by
    simp only [Machine.complete, History.limit_record]
    exact h.limit
  steps := by rw [steps_complete, steps_complete, h.limit, h.steps]

/-- Machines stay abreast if both complete the same inputs, and their tables
    have the `SameAnswers`. -/
theorem Abreast.advance {m m' : Machine σ} {n n' : Machine τ} {inputs : List Input}
    (h : Abreast m n) (htables : Table.SameAnswers m.table n.table) (hm : Advanced m m' inputs)
    (hn : Advanced n n' inputs) : Abreast m' n' where
  state := by rw [hn.state, hm.state, h.state, htables.reach]
  limit := by rw [hn.limit, hm.limit, h.limit]
  steps := by rw [hn.steps, hm.steps, h.state, h.limit, h.steps, htables.walk]

/-- Machines that are **alike** are `Abreast` on the same table. They differ at
    most in their handlers and the times of their records. -/
structure Alike (m : Machine σ) (n : Machine τ) : Prop extends Abreast m n where
  table : n.table = m.table

theorem Alike.advance {m m' : Machine σ} {n n' : Machine τ} {inputs : List Input}
    (h : Alike m n) (hm : Advanced m m' inputs) (hn : Advanced n n' inputs) : Alike m' n' where
  toAbreast := by
    apply h.toAbreast.advance _ hm hn
    intro s e
    rw [h.table]
  table := by rw [hn.table, hm.table, h.table]

end abreast

/-! ## One input, one command -/

/-- Work on the handler by `onHandler` changes nothing else. -/
theorem value_onHandler (m : Machine σ) (work : σ → Attempt σ) :
    (m.onHandler work).value = { m with handler := (work m.handler).value } := by
  obtain ⟨state, table, handler, history⟩ := m
  simp only [onHandler]
  cases work handler with
  | finished s => rfl
  | brokenOff s => rfl

variable [Handler σ]

/-- An input is completed, or it changes nothing but the handler. -/
theorem handle_cases (m : Machine σ) (now : Instant) (i : Input) :
    (∃ s, performAll (m.transition i).calls m.handler = .finished s ∧
      m.handle now i = .finished (m.complete (m.transition i) now s)) ∨
    (∃ s, performAll (m.transition i).calls m.handler = .brokenOff s ∧
      m.handle now i = .brokenOff { m with handler := s }) := by
  cases hcalls : performAll (m.transition i).calls m.handler with
  | finished s => exact .inl ⟨s, rfl, handle_finished hcalls⟩
  | brokenOff s => exact .inr ⟨s, rfl, handle_brokenOff hcalls⟩

/-- A command completes the step of its input, drops the records, or changes
    nothing but the handler. -/
theorem obey_cases (m : Machine σ) (c : Command σ) :
    (∃ now i s, c = .input now i ∧ (m.obey c).value = m.complete (m.transition i) now s) ∨
    (c = .clearHistory ∧ (m.obey c).value = m.clearHistory) ∨
    ∃ s, (m.obey c).value = { m with handler := s } := by
  cases c with
  | input now i =>
    simp only [obey]
    rcases handle_cases m now i with ⟨s, _, hhandle⟩ | ⟨s, _, hhandle⟩
    · rw [hhandle]
      exact .inl ⟨now, i, s, rfl, rfl⟩
    · rw [hhandle]
      exact .inr (.inr ⟨s, rfl⟩)
  | clearHistory => exact .inr (.inl ⟨rfl, rfl⟩)
  | onHandler work => exact .inr (.inr ⟨_, value_onHandler m work⟩)

theorem table_obey (m : Machine σ) (c : Command σ) : (m.obey c).value.table = m.table := by
  rcases obey_cases m c with ⟨now, i, s, -, hvalue⟩ | ⟨-, hvalue⟩ | ⟨s, hvalue⟩
  · rw [hvalue]
    rfl
  · rw [hvalue]
    rfl
  · rw [hvalue]

theorem table_runOn (m : Machine σ) (commands : List (Command σ)) :
    (m.runOn commands).table = m.table := by
  induction commands generalizing m with
  | nil => rfl
  | cons c rest ih =>
    rw [runOn_cons, ih, table_obey]

/-! ## Runs that stop -/

/-- The commands that `runThrough` takes up: those before the first that breaks
    off, and this one. -/
def takenUp : List (Command σ) → Machine σ → List (Command σ)
  | [], _ => []
  | c :: rest, m =>
    match m.obey c with
    | .finished m' => c :: takenUp rest m'
    | .brokenOff _ => [c]

theorem takenUp_prefix (commands : List (Command σ)) (m : Machine σ) :
    m.takenUp commands <+: commands := by
  induction commands generalizing m with
  | nil => exact List.prefix_refl []
  | cons c rest ih =>
    unfold takenUp
    cases m.obey c with
    | finished m' => exact (List.prefix_cons_inj c).mpr (ih m')
    | brokenOff m' => exact (List.prefix_cons_inj c).mpr List.nil_prefix

/-- **Stopping** makes no other difference: `runThrough` writes the lines of
    `logOn` and leaves the machine of `runOn` for the commands that it takes up,
    and if it comes to the end these are all of them. -/
theorem runThrough_eq (log : Array LogEntry) (commands : List (Command σ)) (m : Machine σ) :
    (runThrough log commands m).log.toList = log.toList ++ m.logOn (m.takenUp commands) ∧
      (runThrough log commands m).result.value = m.runOn (m.takenUp commands) ∧
      ((runThrough log commands m).result.isFinished → m.takenUp commands = commands) := by
  induction commands generalizing log m with
  | nil => exact ⟨(List.append_nil _).symm, rfl, fun _ => rfl⟩
  | cons c rest ih =>
    -- the line is written whether the command is finished or not
    have hline : (log ++ (m.logOf c).toArray).toList = log.toList ++ (m.logOf c).toList := by
      simp
    unfold takenUp
    rw [runThrough_cons]
    cases hobey : m.obey c with
    | finished m' =>
      obtain ⟨hlog, hvalue, hall⟩ := ih (log ++ (m.logOf c).toArray) m'
      simp only [logOn, runOn_cons, hobey, Attempt.value]
      refine ⟨?_, hvalue, fun hfinished => ?_⟩
      · rw [hlog, hline, List.append_assoc]
      · rw [hall hfinished]
    | brokenOff m' =>
      simp only [logOn, runOn_cons, hobey, Attempt.value]
      refine ⟨?_, rfl, fun hfinished => ?_⟩
      · rw [hline, List.append_nil]
      · cases hfinished

/-! ## Runs of inputs -/

def feed (timed : List (Instant × Input)) : List (Command σ) :=
  timed.map fun p => .input p.1 p.2

/-- Those inputs of a run that were completed, in order. -/
def completed : List (Instant × Input) → Machine σ → List Input
  | [], _ => []
  | (now, i) :: rest, m =>
    match m.handle now i with
    | .finished m' => i :: completed rest m'
    | .brokenOff m' => completed rest m'

/-- A run advances a machine by the inputs that were completed. -/
theorem runOn_feed (timed : List (Instant × Input)) (m : Machine σ) :
    Advanced m (m.runOn (feed timed)) (completed timed m) := by
  induction timed generalizing m with
  | nil => exact Advanced.with_handler m m.handler
  | cons p rest ih =>
    obtain ⟨now, i⟩ := p
    -- an input that breaks off leaves the machine where it was for the rest
    show Advanced m ((m.handle now i).value.runOn (feed rest)) _
    unfold completed
    rcases handle_cases m now i with ⟨s, _, hhandle⟩ | ⟨s, _, hhandle⟩
    · rw [hhandle]
      exact (Advanced.complete m now i s).trans (ih _)
    · rw [hhandle]
      exact (Advanced.with_handler m s).trans (ih _)

/-- With a steady handler every input is completed, and the handler is given the
    calls of the `Table.walk`, in order. -/
theorem runOn_feed_steady (timed : List (Instant × Input)) {m : Machine σ}
    (hm : Steady m.handler) :
    Advanced m (m.runOn (feed timed)) (timed.map (·.2)) ∧
      performAll ((m.table.walk m.state (timed.map (·.2))).flatMap (·.calls)) m.handler =
        .finished (m.runOn (feed timed)).handler := by
  induction timed generalizing m with
  | nil => exact ⟨Advanced.with_handler m m.handler, rfl⟩
  | cons p rest ih =>
    obtain ⟨now, i⟩ := p
    -- the first input is completed, and leaves a handler that is steady still
    obtain ⟨s, hcalls⟩ := hm (m.transition i).calls
    have hhandle : m.handle now i = .finished (m.complete (m.transition i) now s) :=
      handle_finished hcalls
    obtain ⟨hrest, hmore⟩ := ih (m := m.complete (m.transition i) now s) (hm.after_calls hcalls)
    have hrun : m.runOn (feed ((now, i) :: rest)) =
        (m.complete (m.transition i) now s).runOn (feed rest) := by
      show (m.handle now i).value.runOn (feed rest) = _
      rw [hhandle]
      rfl
    rw [hrun]
    constructor
    · exact (Advanced.complete m now i s).trans hrest
    · rw [List.map_cons, Table.walk, List.flatMap_cons, performAll_append]
      show (performAll (m.transition i).calls m.handler).andThen _ = _
      rw [hcalls]
      exact hmore

/-- A recorder completes every input, and notes the calls of the walk. -/
theorem runOn_feed_recorder (timed : List (Instant × Input)) (m : Machine Recorder) :
    Advanced m (m.runOn (feed timed)) (timed.map (·.2)) ∧
      (m.runOn (feed timed)).handler =
        m.handler.noteAll ((m.table.walk m.state (timed.map (·.2))).flatMap (·.calls)) := by
  obtain ⟨hadvanced, hcalls⟩ := runOn_feed_steady timed (Recorder.steady m.handler)
  rw [Recorder.performAll_noteAll] at hcalls
  exact ⟨hadvanced, (Attempt.finished.inj hcalls).symm⟩

/-- Under watch, the calls that are noted are those of the walk. -/
theorem runOn_feed_watched (timed : List (Instant × Input)) {m : Machine (Watched σ)}
    (hm : Steady m.handler.handler) :
    Advanced m (m.runOn (feed timed)) (timed.map (·.2)) ∧
      (m.runOn (feed timed)).handler.recorder =
        m.handler.recorder.noteAll
          ((m.table.walk m.state (timed.map (·.2))).flatMap (·.calls)) := by
  obtain ⟨hadvanced, hcalls⟩ := runOn_feed_steady timed (Watched.steady hm)
  refine ⟨hadvanced, ?_⟩
  -- the handler beneath is steady too, and so finishes the same calls
  obtain ⟨s, hs⟩ := hm ((m.table.walk m.state (timed.map (·.2))).flatMap (·.calls))
  rw [Watched.performAll_finished hs] at hcalls
  have hwatched := Attempt.finished.inj hcalls
  rw [← hwatched]

end Machine

end FareGate
