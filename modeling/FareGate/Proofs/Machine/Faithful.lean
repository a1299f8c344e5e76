import FareGate.Proofs.Machine.Run

/-! # The history is a true account

  Whatever is done to a machine, and however often its handler breaks off, the
  records it keeps tell the truth about it:

  * **Faithful** (`Faithful`): the records follow one on the other up to the
    current state, each says what the rules say, and there are not more than the
    cap allows.
  * **Replayable** (`Replayable`): fed with the inputs of the records, a machine
    with the same rules that starts where the oldest record starts goes through
    the same steps, makes the same calls and ends in the same state.

  Every command keeps a machine faithful, so every run does; and what is
  faithful can be replayed, since a chain of justified steps is the walk on its
  own inputs. -/

namespace FareGate.Machine

variable {σ : Type}

/-! ## The invariant -/

/-- **Faithfulness** of the history of a machine. -/
structure Faithful (m : Machine σ) : Prop where
  /-- There are not more records than the cap allows. -/
  bounded : History.Fits m.history.limit m.history.size
  /-- Each step starts where the one before it ended. -/
  chained : m.history.steps.IsChain fun a b => a.after = b.before
  /-- The newest step ended in the current state. -/
  current : ∀ last ∈ m.history.steps.getLast?, last.after = m.state
  /-- Each step says what the rules say. -/
  justified : ∀ step ∈ m.history.steps, step.JustifiedBy m.table

theorem Faithful.of_empty {m : Machine σ} (hempty : m.history.records = #[]) : m.Faithful where
  bounded := by
    intro n _
    simp [History.size, hempty]
  chained := by simp [History.steps, hempty]
  current := by simp [History.steps, hempty]
  justified := by simp [History.steps, hempty]

theorem Faithful.of_isNew {m : Machine σ} (hnew : m.IsNew) : m.Faithful := by
  obtain ⟨table, initial, limit, handler, rfl⟩ := hnew.exists_start
  exact Faithful.of_empty rfl

theorem Faithful.complete {m : Machine σ} (hm : m.Faithful) (now : Instant) (i : Input) (s : σ) :
    (m.complete (m.transition i) now s).Faithful := by
  let t := m.transition i
  have hlimit : (m.complete t now s).history.limit = m.history.limit := History.limit_record _ _
  have hsteps : (m.complete t now s).history.steps =
      History.newest m.history.limit (m.history.steps ++ [t]) := by
    rw [← History.keep_eq_newest t (by simpa using hm.bounded)]
    exact steps_complete m t now s
  -- what is kept is the end of a list that has the new step last
  have hsuffix : (m.complete t now s).history.steps <:+ m.history.steps ++ [t] := by
    rw [hsteps]
    exact History.newest_suffix _ _
  have hbefore : t.before = m.state := Table.before_transition _ _ _
  have hchain : (m.history.steps ++ [t]).IsChain fun a b => a.after = b.before := by
    refine hm.chained.append (List.isChain_singleton t) ?_
    intro last hlast first hfirst
    cases hfirst
    rw [hm.current last hlast, hbefore]
  refine ⟨?_, ?_, ?_, ?_⟩
  · rw [← History.length_steps, hsteps, hlimit]
    exact History.fits_newest _ _
  · exact hchain.suffix hsuffix
  · intro last hlast
    obtain ⟨dropped, hdropped⟩ := hsuffix
    have hend := congrArg List.getLast? hdropped
    rw [List.getLast?_append, Option.mem_def.mp hlast, List.getLast?_concat] at hend
    cases hend
    rfl
  · intro step hstep
    rcases List.mem_append.mp (hsuffix.subset hstep) with hold | hnew
    · exact hm.justified step hold
    · rw [List.mem_singleton.mp hnew]
      exact Table.transition_justified _ _ _

theorem Faithful.with_handler {m : Machine σ} (hm : m.Faithful) (s : σ) :
    Faithful { m with handler := s } :=
  ⟨hm.bounded, hm.chained, hm.current, hm.justified⟩

/-! ## Replay -/

/-- **Replay**: take any machine with the same rules, an empty history with
    room for as many records and a steady handler, in the state where the
    oldest record starts. Fed with the inputs of the records, at any instants,
    it leaves the same records but for the times, makes the calls that they
    tell of and ends in the same state. -/
def Replayable (m : Machine σ) : Prop :=
  ∀ {τ : Type} [Handler τ] (other : Machine τ) (timed : List (Instant × Input)),
    other.table = m.table →
    (∀ oldest ∈ m.history.steps.head?, other.state = oldest.before) →
    other.history.records = #[] → History.Fits other.history.limit m.history.size →
    Steady other.handler →
    timed.map (·.2) = m.history.steps.map (·.input) →
    (other.runOn (feed timed)).history.steps = m.history.steps ∧
      performAll (m.history.steps.flatMap (·.calls)) other.handler =
        .finished (other.runOn (feed timed)).handler ∧
      (m.history.steps ≠ [] → (other.runOn (feed timed)).state = m.state)

theorem Faithful.replayable {m : Machine σ} (hm : m.Faithful) : m.Replayable := by
  intro τ _ other timed htable hstart hempty hfits hsteady hinputs
  obtain ⟨hadvanced, hcalls⟩ := runOn_feed_steady timed hsteady
  obtain ⟨hwalk, hreach⟩ := Table.walk_of_chain (s := other.state) hm.chained
    (fun oldest holdest => (hstart oldest holdest).symm) hm.justified
  -- by the chain, the other machine's walk is the steps on record
  have hsteps := hadvanced.steps
  have hstate := hadvanced.state
  rw [htable, hinputs] at hsteps hstate hcalls
  rw [hwalk] at hsteps hcalls
  refine ⟨?_, hcalls, ?_⟩
  · -- there is room for all of the steps, so that none is dropped
    have hnone : other.history.steps = [] := by simp [History.steps, hempty]
    rw [hsteps, hnone, History.foldl_keep _ (fun n _ => Nat.zero_le _), List.nil_append]
    exact History.newest_of_fits (by simpa using hfits)
  · intro hne
    obtain ⟨last, hlast⟩ := Option.isSome_iff_exists.mp (List.getLast?_isSome.mpr hne)
    rw [hstate, hreach last hlast, hm.current last hlast]

/-! ## Commands and runs -/

variable [Handler σ]

/-- Every command keeps a machine faithful, finished or not. -/
theorem Faithful.obey {m : Machine σ} (hm : m.Faithful) (c : Command σ) :
    (m.obey c).value.Faithful := by
  rcases obey_cases m c with ⟨now, i, s, -, hvalue⟩ | ⟨-, hvalue⟩ | ⟨s, hvalue⟩
  · rw [hvalue]
    exact hm.complete now i s
  · rw [hvalue]
    exact Faithful.of_empty rfl
  · rw [hvalue]
    exact hm.with_handler s

theorem Faithful.runOn {m : Machine σ} (hm : m.Faithful) (commands : List (Command σ)) :
    (m.runOn commands).Faithful := by
  induction commands generalizing m with
  | nil => exact hm
  | cons c rest ih =>
    rw [runOn_cons]
    exact ih (hm.obey c)

/-- **Any run of a machine leaves a true account.** From the machine as it was
    set up, through any commands, with the handler breaking off wherever it may,
    the rules stay as they are and the history is `Faithful` and
    `Replayable`. -/
theorem runOn_history_faithful {m : Machine σ} (hnew : m.IsNew) (commands : List (Command σ)) :
    (m.runOn commands).table = m.table ∧ (m.runOn commands).Faithful ∧
      (m.runOn commands).Replayable := by
  have hfaithful := (Faithful.of_isNew hnew).runOn commands
  exact ⟨table_runOn m commands, hfaithful, hfaithful.replayable⟩

/-- A gate with room for two records, whose handler breaks off on its second
    call. -/
def brittleGate : Machine Fragile := .start .twoCoin .initial 2 (.fresh fun n => n == 2)

/-- Somebody pushes, a coin fails to silence the alarm, somebody pushes again,
    and the second coin is taken. -/
def brittleDay : List (Command Fragile) :=
  [.input ⟨0⟩ (.event .pass), .input ⟨1⟩ (.event .coin), .input ⟨2⟩ (.event .pass),
    .input ⟨3⟩ (.event .coin)]

/-- The coin that failed is not on record, and the first push has made room. -/
theorem brittleGate_history_faithful :
    brittleGate.IsNew ∧
      (brittleGate.runOn brittleDay).history.steps =
        [⟨.alarming, .alarming, .event .pass, [], .unexpected⟩,
          ⟨.alarming, .unlocked, .event .coin, [.alarmOff, .unlock], .handled⟩] ∧
      (brittleGate.runOn brittleDay).table = brittleGate.table ∧
      (brittleGate.runOn brittleDay).Faithful ∧ (brittleGate.runOn brittleDay).Replayable := by
  have hnew : brittleGate.IsNew :=
    .built (p := { handler := some (.fresh fun n => n == 2), historyLimit := 2 }) rfl
  exact ⟨hnew, by decide +kernel, runOn_history_faithful hnew brittleDay⟩

end FareGate.Machine
