import FareGate.Proofs.Machine.Run

/-! # A handler that breaks off never leaves a machine half changed

  For the handler that breaks off on chosen calls:

  * **Calls**: those before the first chosen one go through and are recorded,
    and the chosen one is counted only.
  * **One input** is done in full or, but for the handler, not at all
    (`AllOrNothing`).
  * **A run** leaves the state and the records that a run without breakage
    leaves on those inputs alone that were completed. -/

namespace FareGate

/-! ## The calls of a fragile handler -/

namespace Fragile

theorem receive_eq (c : Call) (f : Fragile) :
    f.receive c =
      if f.failsAt (f.count + 1) then .brokenOff { f with count := f.count + 1 }
      else .finished ⟨f.recorder.note c, f.count + 1, f.failsAt⟩ := by
  cases f
  rfl

/-- If none of the calls is to break off, all of them go through. -/
theorem performAll_finished {cs : List Call} {f : Fragile}
    (hnone : ∀ k < cs.length, f.failsAt (f.count + k + 1) = false) :
    performAll cs f = .finished ⟨f.recorder.noteAll cs, f.count + cs.length, f.failsAt⟩ := by
  induction cs generalizing f with
  | nil => simp
  | cons c rest ih =>
    have hfirst : f.failsAt (f.count + 1) = false := hnone 0 (by simp)
    -- the call after this one is the first that the rest makes
    have hrest := ih (f := ⟨f.recorder.note c, f.count + 1, f.failsAt⟩) (by
      intro k hk
      have hnext := hnone (k + 1) (by simpa using hk)
      rwa [show f.count + (k + 1) + 1 = f.count + 1 + k + 1 from by omega] at hnext)
    rw [performAll_cons, perform_eq, receive_eq, hfirst]
    show performAll rest _ = _
    rw [hrest, Recorder.noteAll_note, List.length_cons]
    rw [show f.count + 1 + rest.length = f.count + (rest.length + 1) from by omega]

/-- The calls before the first that is to break off go through, and the work
    ends with that one. -/
theorem performAll_brokenOff {cs : List Call} {f : Fragile} {j : Nat} (hj : j < cs.length)
    (hfails : f.failsAt (f.count + j + 1) = true)
    (hbefore : ∀ k < j, f.failsAt (f.count + k + 1) = false) :
    performAll cs f =
      .brokenOff ⟨f.recorder.noteAll (cs.take j), f.count + j + 1, f.failsAt⟩ := by
  induction cs generalizing f j with
  | nil => exact absurd hj (Nat.not_lt_zero j)
  | cons c rest ih =>
    rw [performAll_cons, perform_eq, receive_eq]
    cases j with
    | zero =>
      -- the first call breaks off, and nothing is recorded
      rw [hfails]
      simp
    | succ j =>
      have hfirst : f.failsAt (f.count + 1) = false := hbefore 0 (by omega)
      have hlater := ih (f := ⟨f.recorder.note c, f.count + 1, f.failsAt⟩)
        (by simpa using hj)
        (by rwa [show f.count + (j + 1) + 1 = f.count + 1 + j + 1 from by omega] at hfails)
        (by
          intro k hk
          have hnext := hbefore (k + 1) (by omega)
          rwa [show f.count + (k + 1) + 1 = f.count + 1 + k + 1 from by omega] at hnext)
      rw [hfirst]
      show performAll rest _ = _
      rw [hlater, Recorder.noteAll_note, List.take_succ_cons]
      rw [show f.count + 1 + j + 1 = f.count + (j + 1) + 1 from by omega]

end Fragile

namespace Machine

/-! ## All or nothing -/

/-- **All or nothing** for one input at a machine with a fragile handler. The
    input stands for one justified step and asks for some calls. If none of
    them is to break off, all are recorded, the state is the one after the step
    and one record of it is offered to the history. Otherwise those before the
    first that breaks off are recorded, the count stands at that one, and
    nothing else has changed. -/
def AllOrNothing (m : Machine Fragile) (now : Instant) (i : Input) : Prop :=
  let f := m.handler
  let calls := m.table.requests m.state i
  ∃ step : Transition, step.before = m.state ∧ step.input = i ∧ step.JustifiedBy m.table ∧
    ((∀ k < calls.length, f.failsAt (f.count + k + 1) = false) →
      m.handle now i = .finished
        { state := step.after
          table := m.table
          handler := ⟨f.recorder.noteAll calls, f.count + calls.length, f.failsAt⟩
          history := m.history.record ⟨step, now⟩ }) ∧
    ∀ j < calls.length, f.failsAt (f.count + j + 1) = true →
      (∀ k < j, f.failsAt (f.count + k + 1) = false) →
      m.handle now i = .brokenOff
        { m with handler := ⟨f.recorder.noteAll (calls.take j), f.count + j + 1, f.failsAt⟩ }

theorem allOrNothing (m : Machine Fragile) (now : Instant) (i : Input) :
    m.AllOrNothing now i := by
  have hcalls : (m.transition i).calls = m.table.requests m.state i :=
    Table.calls_transition _ _ _
  refine ⟨m.transition i, Table.before_transition _ _ _, Table.input_transition _ _ _,
    Table.transition_justified _ _ _, ?_, ?_⟩
  · intro hnone
    have hall := Fragile.performAll_finished hnone
    rw [← hcalls] at hall ⊢
    exact handle_finished hall
  · intro j hj hfails hbefore
    have hbroken := Fragile.performAll_brokenOff hj hfails hbefore
    rw [← hcalls] at hbroken ⊢
    exact handle_brokenOff hbroken

/-- A run of inputs and a run with a steady handler on the `completed` ones of
    them leave machines that are alike, if they were alike before. -/
theorem alike_on_completed {σ τ : Type} [Handler σ] [Handler τ] {m : Machine σ} {n : Machine τ}
    (h : Alike m n) (hn : Steady n.handler) {timed timed' : List (Instant × Input)}
    (hinputs : timed'.map (·.2) = completed timed m) :
    Alike (m.runOn (feed timed)) (n.runOn (feed timed')) := by
  obtain ⟨hadvanced, -⟩ := runOn_feed_steady timed' hn
  rw [hinputs] at hadvanced
  exact h.advance (runOn_feed timed m) hadvanced

/-- **Breakage leaves nothing half done.** Each input at a machine with a
    fragile handler is all or nothing (`AllOrNothing`); and a run of inputs,
    wherever it breaks off, leaves the state and the steps on record of a run
    that never breaks off, on the inputs that were `completed` alone. -/
theorem fragile_run_all_or_nothing :
    (∀ (m : Machine Fragile) (now : Instant) (i : Input), m.AllOrNothing now i) ∧
    ∀ {τ : Type} [Handler τ] (m : Machine Fragile) (n : Machine τ)
      (timed timed' : List (Instant × Input)),
      Alike m n → Steady n.handler → timed'.map (·.2) = completed timed m →
      Alike (m.runOn (feed timed)) (n.runOn (feed timed')) := by
  constructor
  · intro m now i
    exact allOrNothing m now i
  · intro τ _ m n timed timed' h hn hinputs
    exact alike_on_completed h hn hinputs

/-- A gate with its alarm on, whose handler breaks off on its second call. -/
def jammedGate : Machine Fragile := .start .twoCoin .alarming 2 (.fresh fun n => n == 2)

def soundGate : Machine Recorder := .start .twoCoin .alarming 2 .empty

/-- The first coin silences the alarm but does not free the arm, and the gate
    is as alarmed as before; only the second coin counts. -/
theorem jammedGate_all_or_nothing :
    (∃ f : Fragile,
      jammedGate.handle ⟨0⟩ (.event .coin) = .brokenOff { jammedGate with handler := f } ∧
      f.recorder.calls.toList = [.action .alarmOff] ∧ f.count = 2) ∧
    Alike (jammedGate.runOn (feed [(⟨0⟩, .event .coin), (⟨1⟩, .event .coin)]))
      (soundGate.runOn (feed [(⟨5⟩, .event .coin)])) := by
  constructor
  · obtain ⟨_, _, _, _, _, hbroken⟩ :=
      fragile_run_all_or_nothing.1 jammedGate ⟨0⟩ (.event .coin)
    exact ⟨_, hbroken 1 (by decide) (by decide) (by decide), by decide, by decide⟩
  · exact fragile_run_all_or_nothing.2 jammedGate soundGate _ _ ⟨⟨rfl, rfl, rfl⟩, rfl⟩
      (Recorder.steady _) rfl

end Machine

end FareGate
