import FareGate.Proofs.Machine.Run

/-! # What a machine does has nothing to do with its past

  Table and state alone decide what a machine makes of an input. What is on
  record, how much of it may be kept and what has been done to the handler in
  the meantime take no part in it:

  * **Sight** (`sights`): what is seen of a machine as it takes an input, namely
    the state it comes to, the calls that the handler is given and the lines in
    the log.
  * **Smooth** runs (`Smooth`): no input is broken off.
  * **Same conduct** (`SameConduct`): on the same inputs, with anything else
    done in between, two machines show the same sights.

  The sights of a smooth run are those of the walk of its table, and so they
  are the same for any two machines with the same table in the same state. -/

namespace FareGate

/-! ## What is seen of a machine -/

/-- What is seen of a machine as it takes an input. -/
structure Sight where
  /-- The state it comes to. -/
  state : State
  /-- The calls that the handler is given, in order. -/
  calls : List Call
  /-- The lines written to the log, in order. -/
  log : List LogEntry
deriving DecidableEq

def Transition.sight (t : Transition) : Sight := ⟨t.after, t.calls, [t.logEntry]⟩

namespace Machine

variable {σ τ : Type} [Handler σ] [Handler τ]

/-- The sights of a run, one for each input. The calls are those that the
    recorder beside the handler has noted since the input came in. -/
def sights : List (Command (Watched σ)) → Machine (Watched σ) → List Sight
  | [], _ => []
  | c :: rest, m =>
    let m' := (m.obey c).value
    match c.input? with
    | none => sights rest m'
    | some _ =>
      { state := m'.state
        calls := m'.handler.recorder.calls.toList.drop m.handler.recorder.calls.size
        log := (m.logOf c).toList } :: sights rest m'

/-- **Smoothness** of a run: the handler does not break off on any input. -/
def Smooth : List (Command σ) → Machine σ → Prop
  | [], _ => True
  | c :: rest, m => (c.input?.isSome → (m.obey c).isFinished) ∧ Smooth rest (m.obey c).value

theorem smooth_of_steady (hσ : ∀ s : σ, Steady s) (commands : List (Command σ)) (m : Machine σ) :
    m.Smooth commands := by
  induction commands generalizing m with
  | nil => trivial
  | cons c rest ih =>
    refine ⟨?_, ih _⟩
    intro hinput
    cases c with
    | input now i =>
      obtain ⟨s, hcalls⟩ := hσ m.handler (m.transition i).calls
      simp [obey, handle_finished hcalls, Attempt.isFinished]
    | clearHistory => cases hinput
    | onHandler work => cases hinput

/-! ## One command -/

/-- An input that is not broken off completes its step, and the recorder notes
    the calls of the step. -/
theorem obey_of_input {m : Machine (Watched σ)} {now : Instant} {i : Input}
    (hfinished : (m.obey (.input now i)).isFinished) :
    ∃ w, (m.obey (.input now i)).value = m.complete (m.transition i) now w ∧
      w.recorder = m.handler.recorder.noteAll (m.transition i).calls := by
  simp only [obey] at hfinished ⊢
  rcases handle_cases m now i with ⟨w, hcalls, hhandle⟩ | ⟨w, -, hhandle⟩
  · rw [hhandle]
    exact ⟨w, rfl, (Watched.performAll_eq_finished_iff.mp hcalls).2⟩
  · rw [hhandle] at hfinished
    cases hfinished

theorem table_state_of_reset {m m' : Machine σ} {now : Instant}
    (hreset : m.handle now .reset = .finished m') :
    m'.table = m.table ∧ m'.state = State.afterReset := by
  rcases handle_cases m now .reset with ⟨s, -, hhandle⟩ | ⟨s, -, hhandle⟩
  · rw [hhandle] at hreset
    cases hreset
    exact ⟨rfl, rfl⟩
  · rw [hhandle] at hreset
    cases hreset

/-! ## Runs -/

/-- The sights of a smooth run are those of the `Table.walk` on its inputs. -/
theorem sights_of_smooth {commands : List (Command (Watched σ))} {m : Machine (Watched σ)}
    (hsmooth : m.Smooth commands) :
    m.sights commands =
        (m.table.walk m.state (commands.filterMap Command.input?)).map Transition.sight ∧
      (m.runOn commands).state = m.table.reach m.state (commands.filterMap Command.input?) := by
  induction commands generalizing m with
  | nil => exact ⟨rfl, rfl⟩
  | cons c rest ih =>
    obtain ⟨hfinished, hrest⟩ := hsmooth
    obtain ⟨hsights, hstate⟩ := ih hrest
    cases c with
    | input now i =>
      obtain ⟨w, hvalue, hrecorder⟩ := obey_of_input (hfinished rfl)
      rw [hvalue] at hsights hstate
      simp only [sights, Command.input?, List.filterMap_cons, Table.walk, Table.reach,
        List.map_cons, runOn_cons, hvalue]
      refine ⟨?_, hstate⟩
      -- what the recorder has more than before are the calls of the step
      have hcalls := Recorder.drop_calls_noteAll (m.transition i).calls m.handler.recorder
      rw [← hrecorder] at hcalls
      rw [hsights]
      show Sight.mk (m.transition i).after (w.recorder.calls.toList.drop _) _ :: _ = _
      rw [hcalls]
      rfl
    | clearHistory => exact ⟨hsights, hstate⟩
    | onHandler work =>
      simp only [obey, value_onHandler] at hsights hstate
      simp only [sights, Command.input?, List.filterMap_cons, runOn_cons, obey, value_onHandler]
      exact ⟨hsights, hstate⟩

/-- **Same conduct** of two machines: whatever else is done to them between the
    inputs, on the same inputs they show the same sights and end in the same
    state, as long as their handlers do not break off. -/
def SameConduct (m : Machine (Watched σ)) (n : Machine (Watched τ)) : Prop :=
  ∀ (cs : List (Command (Watched σ))) (ds : List (Command (Watched τ))),
    m.Smooth cs → n.Smooth ds → cs.filterMap Command.input? = ds.filterMap Command.input? →
    m.sights cs = n.sights ds ∧ (m.runOn cs).state = (n.runOn ds).state

theorem SameConduct.of_table_state {m : Machine (Watched σ)} {n : Machine (Watched τ)}
    (htable : n.table = m.table) (hstate : n.state = m.state) : SameConduct m n := by
  intro cs ds hcs hds hinputs
  obtain ⟨hsights, hend⟩ := sights_of_smooth hcs
  obtain ⟨hsights', hend'⟩ := sights_of_smooth hds
  rw [htable, hstate, ← hinputs] at hsights' hend'
  exact ⟨hsights.trans hsights'.symm, hend.trans hend'.symm⟩

/-- **Conduct has nothing to do with the past.** Machines with the same table in
    the same state show the `SameConduct`, whatever is on record, whatever may
    be kept and whatever has become of the handlers; and machines with the same
    table do so once each of them has been reset. -/
theorem sameConduct_of_table {m : Machine (Watched σ)} {n : Machine (Watched τ)}
    (htable : n.table = m.table) :
    (n.state = m.state → SameConduct m n) ∧
      ∀ (now now' : Instant) (m' : Machine (Watched σ)) (n' : Machine (Watched τ)),
        m.handle now .reset = .finished m' → n.handle now' .reset = .finished n' →
        SameConduct m' n' := by
  refine ⟨fun hstate => SameConduct.of_table_state htable hstate, ?_⟩
  intro now now' m' n' hm hn
  obtain ⟨hmtable, hmstate⟩ := table_state_of_reset hm
  obtain ⟨hntable, hnstate⟩ := table_state_of_reset hn
  exact SameConduct.of_table_state (by rw [hntable, hmtable, htable]) (by rw [hnstate, hmstate])

def newGate : Machine (Watched Recorder) := standard ⟨.empty, .empty⟩

/-- A gate with room for two records, which has been pushed at and reset. -/
def wornGate : Machine (Watched Recorder) :=
  (start .twoCoin .initial 2 ⟨.empty, .empty⟩).runOn
    (feed [(⟨0⟩, .event .pass), (⟨1⟩, .event .pass), (⟨2⟩, .reset)])

/-- Two coins, and records and notes are dropped at different moments. -/
theorem wornGate_sameConduct :
    let cs : List (Command (Watched Recorder)) :=
      [.input ⟨3⟩ (.event .coin), .clearHistory, .input ⟨4⟩ (.event .coin)]
    let ds : List (Command (Watched Recorder)) :=
      [.onHandler fun w => .finished ⟨w.handler.clear, w.recorder.clear⟩,
        .input ⟨7⟩ (.event .coin), .input ⟨8⟩ (.event .coin), .clearHistory]
    newGate.table = wornGate.table ∧ newGate.state = wornGate.state ∧
      newGate.history.size = 0 ∧ wornGate.history.size = 2 ∧
      wornGate.Smooth cs ∧ newGate.Smooth ds ∧
      wornGate.sights cs = newGate.sights ds ∧
      newGate.sights ds =
        [⟨.firstCoin, [], [.transition .locked .coin .firstCoin []]⟩,
          ⟨.unlocked, [.action .unlock], [.transition .firstCoin .coin .unlocked [.unlock]]⟩] := by
  intro cs ds
  have hsteady : ∀ w : Watched Recorder, Steady w := fun w => Watched.steady (Recorder.steady _)
  have htable : newGate.table = wornGate.table := rfl
  have hstate : newGate.state = wornGate.state := rfl
  have hcs := smooth_of_steady hsteady cs wornGate
  have hds := smooth_of_steady hsteady ds newGate
  obtain ⟨hsights, -⟩ := (sameConduct_of_table htable).1 hstate cs ds hcs hds rfl
  exact ⟨htable, hstate, rfl, by decide +kernel, hcs, hds, hsights, by decide +kernel⟩

end Machine

end FareGate
