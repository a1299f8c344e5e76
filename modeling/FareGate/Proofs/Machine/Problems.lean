import FareGate.Proofs.Machine.Run
import FareGate.Proofs.Table.Pruned

/-! # What the problems of a table mean for a gate

  A gate can be run on a table with problems, though it cannot be set up with
  one. What is reported of the table is then true of every run:

  * **An unused state** is never entered, whatever is done to the gate: every
    command leaves it where it was, resets it or takes it where a rule leads.
  * **A duplicate rule** is never followed. Without it, a gate goes through the
    same states, makes the same calls and leaves the same steps on record.

  For the second, two gates are compared that **agree** in all of this
  (`Agree`). They go on to agree as long as their tables have the same answers,
  and a table has the answers that it has without the duplicates. -/

namespace FareGate.Machine

variable {σ τ : Type}

/-! ## The states of a run -/

section states
variable [Handler σ]

/-- A command leaves a machine where it was, resets it or takes it where a rule
    leads. -/
theorem state_obey_cases (m : Machine σ) (c : Command σ) :
    (m.obey c).value.state = m.state ∨ (m.obey c).value.state = State.afterReset ∨
      ∃ r ∈ m.table.rules, r.next = (m.obey c).value.state := by
  rcases obey_cases m c with ⟨now, i, s, -, hvalue⟩ | ⟨-, hvalue⟩ | ⟨s, hvalue⟩
  · rw [hvalue]
    exact Table.after_transition m.table m.state i
  · rw [hvalue]
    exact .inl rfl
  · rw [hvalue]
    exact .inl rfl

/-- A run ends where it started, in `State.afterReset` or where a rule leads. -/
theorem state_runOn_cases (m : Machine σ) (commands : List (Command σ)) :
    (m.runOn commands).state = m.state ∨ (m.runOn commands).state = State.afterReset ∨
      ∃ r ∈ m.table.rules, r.next = (m.runOn commands).state := by
  induction commands generalizing m with
  | nil => exact .inl rfl
  | cons c rest ih =>
    have hrest := ih (m.obey c).value
    rw [table_obey] at hrest
    rw [runOn_cons]
    rcases hrest with hstay | hlater
    · -- nothing happened after the first command
      rw [hstay]
      exact state_obey_cases m c
    · exact .inr hlater

/-- A machine is never in a state that `Table.problems` reports as unused. -/
theorem state_runOn_ne_of_unused {m : Machine σ} {s : State}
    (hunused : .unusedState s ∈ m.table.problems m.state) (commands : List (Command σ)) :
    (m.runOn commands).state ≠ s := by
  obtain ⟨hstart, hreset, hrules⟩ := Table.unusedState_mem_problems_iff.mp hunused
  intro hend
  rcases state_runOn_cases m commands with hstay | hafter | ⟨r, hr, hnext⟩
  · exact hstart (hend.symm.trans hstay)
  · exact hreset (hend.symm.trans hafter)
  · exact hrules r hr (hnext.trans hend)

end states

/-! ## Machines that agree -/

/-- **Agreement** of two machines with handlers under watch: they are `Abreast`,
    and the same calls were made. -/
structure Agree (m : Machine (Watched σ)) (n : Machine (Watched τ)) : Prop
    extends Abreast m n where
  calls : n.handler.recorder = m.handler.recorder

theorem Agree.start (t u : Table) (s : State) (limit : UInt64) (r : Recorder) (h : σ) (h' : τ) :
    Agree (start t s limit ⟨h, r⟩) (start u s limit ⟨h', r⟩) where
  toAbreast := Abreast.start t u s limit _ _
  calls := rfl

variable [Handler σ] [Handler τ]

/-- Fed with the same inputs, at whatever times, machines that agree are still
    in agreement at every point of their runs, if their tables have the
    `SameAnswers` and their handlers are steady. -/
theorem Agree.runOn_take {m : Machine (Watched σ)} {n : Machine (Watched τ)} (h : Agree m n)
    (htables : Table.SameAnswers m.table n.table) (hm : Steady m.handler.handler)
    (hn : Steady n.handler.handler) {timed timed' : List (Instant × Input)}
    (hinputs : timed'.map (·.2) = timed.map (·.2)) (k : Nat) :
    Agree (m.runOn (feed (timed.take k))) (n.runOn (feed (timed'.take k))) := by
  obtain ⟨hadvanced, hcalls⟩ := runOn_feed_watched (timed.take k) hm
  obtain ⟨hadvanced', hcalls'⟩ := runOn_feed_watched (timed'.take k) hn
  rw [List.map_take, hinputs, ← List.map_take] at hadvanced' hcalls'
  refine ⟨h.toAbreast.advance htables hadvanced hadvanced', ?_⟩
  -- both walk along the same steps, and so make the same calls
  rw [hcalls', hcalls, h.state, h.calls, htables.walk]

/-! ## Problems are true of every run -/

/-- **The problems of a table are true of every run.** Take any table and any
    initial state.

    * A machine that starts there, whatever its handler is and whatever is done
      to it, is in the initial state, in the one after a reset or in one that a
      rule leads to, and never in one that is reported as unused.
    * In the `pruned` table, without the duplicate rules, the first rule for
      each state and event is left, and as many are gone as are reported. From
      every state, and with handlers that do not break off, machines on either
      table `Agree` at every point of their runs. -/
theorem problems_true_of_runs (t : Table) (initial : State) :
    (∀ (m : Machine σ) (commands : List (Command σ)), m.table = t → m.state = initial →
      let s := (m.runOn commands).state
      (s = initial ∨ s = State.afterReset ∨ ∃ r ∈ t.rules, r.next = s) ∧
        ∀ u, .unusedState u ∈ t.problems initial → s ≠ u) ∧
    t.pruned.rules.Sublist t.rules ∧
    (∀ (s : State) (e : Event),
      t.pruned.rules.filter (fun r => r.key = (s, e)) =
          (t.rules.filter fun r => r.key = (s, e)).take 1 ∧
        t.pruned.rules.countP (fun r => r.key = (s, e)) +
            (t.problems initial).count (.duplicateRule s e) =
          t.rules.countP fun r => r.key = (s, e)) ∧
    ∀ (m : Machine (Watched σ)) (n : Machine (Watched τ)), m.table = t → n.table = t.pruned →
      Agree m n → Steady m.handler.handler → Steady n.handler.handler →
      ∀ timed timed' : List (Instant × Input), timed'.map (·.2) = timed.map (·.2) →
        ∀ k, Agree (m.runOn (feed (timed.take k))) (n.runOn (feed (timed'.take k))) := by
  refine ⟨?_, Table.firsts_sublist t.rules, fun s e => ⟨?_, ?_⟩, ?_⟩
  · rintro m commands rfl rfl
    exact ⟨state_runOn_cases m commands, fun u hunused => state_runOn_ne_of_unused hunused commands⟩
  · exact Table.filter_firsts t.rules (s, e)
  · exact Table.count_duplicateRule_problems t initial s e
  · rintro m n rfl hpruned hagree hm hn timed timed' hinputs k
    have htables := Table.sameAnswers_pruned m.table
    rw [← hpruned] at htables
    exact hagree.runOn_take htables hm hn hinputs k

/-- A table for a gate that opens for one coin, with a rule that is not followed
    and without an alarm. -/
def oneCoin : Table where
  rules := [
    ⟨.locked, .coin, [.unlock], .unlocked⟩,
    ⟨.locked, .coin, [], .firstCoin⟩,
    ⟨.unlocked, .pass, [.lock], .locked⟩]

/-- A push without a coin has no rule, and the coin opens the gate with either
    table. -/
theorem oneCoin_problems_true :
    let m : Machine (Watched Recorder) := start oneCoin .locked 2 ⟨.empty, .empty⟩
    let n : Machine (Watched Recorder) := start oneCoin.pruned .locked 2 ⟨.empty, .empty⟩
    let timed : List (Instant × Input) := [(⟨0⟩, .event .pass), (⟨1⟩, .event .coin)]
    let timed' : List (Instant × Input) := [(⟨70⟩, .event .pass), (⟨80⟩, .event .coin)]
    oneCoin.problems .locked = [.duplicateRule .locked .coin, .unusedState .alarming] ∧
      oneCoin.pruned.rules =
        [⟨.locked, .coin, [.unlock], .unlocked⟩, ⟨.unlocked, .pass, [.lock], .locked⟩] ∧
      Steady Recorder.empty ∧ (m.runOn (feed timed)).state ≠ .alarming ∧
      Agree (m.runOn (feed timed)) (n.runOn (feed timed')) ∧
      (n.runOn (feed timed')).state = .unlocked ∧
      (n.runOn (feed timed')).handler.recorder.calls.toList =
        [.unexpected "Locked" "Pass", .action .unlock] := by
  intro m n timed timed'
  have hproblems : oneCoin.problems .locked =
      [.duplicateRule .locked .coin, .unusedState .alarming] := by decide
  have hunused : .unusedState .alarming ∈ oneCoin.problems .locked := by rw [hproblems]; simp
  have hsteady : Steady Recorder.empty := Recorder.steady _
  obtain ⟨hstates, -⟩ := problems_true_of_runs (σ := Watched Recorder) (τ := Recorder)
    oneCoin .locked
  obtain ⟨-, -, -, hagree⟩ := problems_true_of_runs (σ := Recorder) (τ := Recorder)
    oneCoin .locked
  exact ⟨hproblems, by decide, hsteady, (hstates m (feed timed) rfl rfl).2 _ hunused,
    hagree m n rfl rfl (Agree.start _ _ _ _ _ _ _) hsteady hsteady timed timed' rfl 2,
    by decide, by decide⟩

end FareGate.Machine
