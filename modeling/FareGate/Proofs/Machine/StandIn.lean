import FareGate.Handler.Holding
import FareGate.Proofs.Machine.Run

/-! # The recorder as a stand-in for any handler

  What a machine does with a handler can be tried out with a recorder in its
  place:

  * **Replay** (`replay`): recorded calls are handed to a handler one after the
    other, each through the entry point it belongs to.
  * **Exchange** (`withHandler`): a machine with another handler in the place of
    its own.
  * **The stand-in**: a machine with a handler that does not break off leaves it
    as a replay of what a fresh recorder has noted would, and the recorder's run
    goes through the same states and leaves the same steps on record. It makes
    no difference whether the handler is lent, housed or owned. -/

namespace FareGate

/-! ## Replay -/

section replay
variable {σ : Type} [Handler σ]

/-- Hands a call to the entry point that it belongs to. -/
def Call.handTo : Call → σ → Attempt σ
  | action .lock, s => Handler.lock s
  | action .unlock, s => Handler.unlock s
  | action .thankyou, s => Handler.thankyou s
  | action .alarmOn, s => Handler.alarmOn s
  | action .alarmOff, s => Handler.alarmOff s
  | unexpected state event, s => Handler.unexpected state event s

/-- **Replay** of calls on a handler, in order. -/
def replay (cs : List Call) (s : σ) : Attempt σ :=
  cs.foldl (fun work c => work.andThen c.handTo) (.finished s)

theorem Call.handTo_eq_perform (c : Call) : (c.handTo : σ → Attempt σ) = c.perform := by
  cases c with
  | action a => cases a <;> rfl
  | unexpected state event => rfl

/-- A replay makes the calls that `performAll` makes. -/
theorem replay_eq_performAll (cs : List Call) (s : σ) : replay cs s = performAll cs s := by
  have hfold : ∀ work : Attempt σ,
      cs.foldl (fun work c => work.andThen c.handTo) work = work.andThen (performAll cs) := by
    induction cs with
    | nil =>
      intro work
      cases work <;> rfl
    | cons c rest ih =>
      intro work
      rw [List.foldl_cons, ih, Call.handTo_eq_perform, Attempt.andThen_assoc]
      rfl
  exact hfold (.finished s)

theorem steady_of_total (htotal : ∀ (c : Call) (s : σ), ∃ s', c.handTo s = .finished s') (s : σ) :
    Steady s := by
  intro cs
  induction cs generalizing s with
  | nil => exact ⟨s, rfl⟩
  | cons c rest ih =>
    obtain ⟨s', hc⟩ := htotal c s
    obtain ⟨s'', hrest⟩ := ih s'
    rw [Call.handTo_eq_perform] at hc
    refine ⟨s'', ?_⟩
    rw [performAll_cons, hc]
    exact hrest

theorem Holding.performAll_hold (h : Holding) (cs : List Call) (s : σ) :
    performAll cs (h.hold s) = (performAll cs s).map h.hold := by
  induction cs generalizing s with
  | nil => rfl
  | cons c rest ih =>
    rw [performAll_cons, performAll_cons, perform_hold]
    cases c.perform s with
    | finished s' => exact ih s'
    | brokenOff s' => rfl

theorem Holding.steady_hold (h : Holding) {s : σ} (hs : Steady s) : Steady (h.hold s) := by
  intro cs
  obtain ⟨s', hcs⟩ := hs cs
  exact ⟨h.hold s', by rw [performAll_hold, hcs]; rfl⟩

end replay

namespace Machine

/-! ## Exchange of the handler -/

variable {σ τ : Type}

def withHandler (m : Machine σ) (other : τ) : Machine τ where
  state := m.state
  table := m.table
  handler := other
  history := m.history

theorem alike_withHandler (m : Machine σ) (other : τ) : Alike m (m.withHandler other) :=
  ⟨⟨rfl, rfl, rfl⟩, rfl⟩

/-- With a fresh recorder, a machine notes the calls of its `Table.walk`. -/
theorem calls_runOn_recorder (m : Machine σ) (timed : List (Instant × Input)) :
    ((m.withHandler Recorder.empty).runOn (feed timed)).handler.calls.toList =
      (m.table.walk m.state (timed.map (·.2))).flatMap (·.calls) := by
  obtain ⟨-, hhandler⟩ := runOn_feed_recorder timed (m.withHandler Recorder.empty)
  rw [hhandler, Recorder.calls_noteAll]
  rfl

variable [Handler σ] [Handler τ]

/-- Fed with the same inputs, at whatever times, machines that are alike and
    have steady handlers are alike at every point of their runs. -/
theorem Alike.runOn_take {m : Machine σ} {n : Machine τ} (h : Alike m n)
    (hm : Steady m.handler) (hn : Steady n.handler) {timed timed' : List (Instant × Input)}
    (hinputs : timed'.map (·.2) = timed.map (·.2)) (k : Nat) :
    Alike (m.runOn (feed (timed.take k))) (n.runOn (feed (timed'.take k))) := by
  obtain ⟨hadvanced, -⟩ := runOn_feed_steady (timed.take k) hm
  obtain ⟨hadvanced', -⟩ := runOn_feed_steady (timed'.take k) hn
  rw [List.map_take, hinputs, ← List.map_take] at hadvanced'
  exact h.advance hadvanced hadvanced'

/-! ## The stand-in -/

/-- **The recorder stands in for any handler.** Take any machine whose handler
    does not break off. What a fresh recorder in its place notes on the same
    inputs can be replayed on the handler, which is then as the machine's own
    run leaves it; and at every point the two runs are `Alike`. A handler that
    is lent or housed, in any number of layers, is given back by
    `Holding.release` as the run with the handler itself leaves it, and the runs
    are alike at every point. -/
theorem recorder_stands_in {m : Machine σ} (hsteady : Steady m.handler)
    {timed timed' : List (Instant × Input)} (hinputs : timed'.map (·.2) = timed.map (·.2)) :
    (replay ((m.withHandler Recorder.empty).runOn (feed timed')).handler.calls.toList m.handler =
        .finished (m.runOn (feed timed)).handler ∧
      ∀ k, Alike (m.runOn (feed (timed.take k)))
        ((m.withHandler Recorder.empty).runOn (feed (timed'.take k)))) ∧
    ∀ h : Holding,
      h.release ((m.withHandler (h.hold m.handler)).runOn (feed timed)).handler =
          (m.runOn (feed timed)).handler ∧
        ∀ k, Alike (m.runOn (feed (timed.take k)))
          ((m.withHandler (h.hold m.handler)).runOn (feed (timed.take k))) := by
  obtain ⟨-, hcalls⟩ := runOn_feed_steady timed hsteady
  refine ⟨⟨?_, fun k => ?_⟩, fun h => ⟨?_, fun k => ?_⟩⟩
  · rw [calls_runOn_recorder, hinputs, replay_eq_performAll]
    exact hcalls
  · exact (alike_withHandler m _).runOn_take hsteady (Recorder.steady _) hinputs k
  · -- the layers pass on the same calls, and what is inside answers them
    obtain ⟨-, hheld⟩ := runOn_feed_steady (m := m.withHandler (h.hold m.handler)) timed
      (h.steady_hold hsteady)
    change performAll ((m.table.walk m.state (timed.map (·.2))).flatMap (·.calls))
      (h.hold m.handler) = _ at hheld
    rw [Holding.performAll_hold, hcalls] at hheld
    rw [← Attempt.finished.inj hheld, Holding.release_hold]
  · exact (alike_withHandler m _).runOn_take hsteady (h.steady_hold hsteady) rfl k

end Machine

/-- A panel beside the arm: how often the arm was freed, and what was last to
    be told. -/
structure Panel where
  freed : Nat
  text : String
deriving DecidableEq

namespace Panel

instance : Handler Panel where
  lock p := .finished { p with text := "locked" }
  unlock p := .finished ⟨p.freed + 1, "go ahead"⟩
  thankyou p := .finished { p with text := "thank you" }
  alarmOn p := .finished { p with text := "stop" }
  alarmOff p := .finished { p with text := "all clear" }
  unexpected state event p := .finished { p with text := event ++ " while " ++ state }

theorem steady (p : Panel) : Steady p := by
  apply steady_of_total
  intro c s
  cases c with
  | action a => cases a <;> exact ⟨_, rfl⟩
  | unexpected state event => exact ⟨_, rfl⟩

end Panel

namespace Machine

def panelGate : Machine Panel := .start .twoCoin .initial 2 ⟨0, ""⟩

/-- Two pushes and a coin, and the same on another day. The panel is as the
    recorder's notes have it, also when it is lent in a housing. -/
theorem panelGate_recorder_stands_in :
    let timed : List (Instant × Input) :=
      [(⟨0⟩, .event .pass), (⟨1⟩, .event .pass), (⟨2⟩, .event .coin)]
    let timed' : List (Instant × Input) :=
      [(⟨70⟩, .event .pass), (⟨80⟩, .event .pass), (⟨90⟩, .event .coin)]
    let lent : Holding := .lent (.housed .own)
    Steady panelGate.handler ∧ timed'.map (·.2) = timed.map (·.2) ∧
      replay [.action .alarmOn, .unexpected "Alarming" "Pass", .action .alarmOff, .action .unlock]
          panelGate.handler = .finished (panelGate.runOn (feed timed)).handler ∧
      (panelGate.runOn (feed timed)).handler = ⟨1, "go ahead"⟩ ∧
      lent.release ((panelGate.withHandler (lent.hold panelGate.handler)).runOn
          (feed timed)).handler = ⟨1, "go ahead"⟩ ∧
      Alike (panelGate.runOn (feed timed))
        ((panelGate.withHandler Recorder.empty).runOn (feed timed')) := by
  intro timed timed' lent
  have hsteady : Steady panelGate.handler := Panel.steady _
  have hinputs : timed'.map (·.2) = timed.map (·.2) := rfl
  obtain ⟨⟨hreplay, halike⟩, hheld⟩ := recorder_stands_in hsteady hinputs
  have hnotes : ((panelGate.withHandler Recorder.empty).runOn (feed timed')).handler.calls.toList =
      [.action .alarmOn, .unexpected "Alarming" "Pass", .action .alarmOff, .action .unlock] := by
    decide
  have hpanel : (panelGate.runOn (feed timed)).handler = ⟨1, "go ahead"⟩ := by decide
  rw [hnotes] at hreplay
  exact ⟨hsteady, hinputs, hreplay, hpanel, (hheld lent).1.trans hpanel, halike 3⟩

end Machine

end FareGate
