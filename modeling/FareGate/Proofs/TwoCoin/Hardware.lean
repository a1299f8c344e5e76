import FareGate.Proofs.Machine.Run

/-! # The arm and the alarm of the two-coin gate

  The calls of a gate move an arm and sound an alarm. On the two-coin table
  they do so safely:

  * **Hardware** (`Hardware`): whether the arm is free and whether the alarm
    sounds, and what each call makes of it.
  * **Orderly** (`Orderly`): calls none of which is out of place, and between
    which the arm is never free while the alarm sounds.
  * **One step** of `Table.twoCoin` makes orderly calls and leaves the hardware
    as its state says; so does every walk, and so does every run of a machine
    with a steady handler. -/

namespace FareGate

/-- The arm and the alarm. -/
structure Hardware where
  /-- The arm is free: somebody can pass. -/
  isOpen : Bool
  /-- The alarm sounds. -/
  alarm : Bool
deriving DecidableEq

namespace Hardware

/-- What a call makes of the hardware. A report moves nothing. -/
def move (h : Hardware) : Call → Hardware
  | .action .lock => { h with isOpen := false }
  | .action .unlock => { h with isOpen := true }
  | .action .thankyou => h
  | .action .alarmOn => { h with alarm := true }
  | .action .alarmOff => { h with alarm := false }
  | .unexpected _ _ => h

def moveAll (h : Hardware) (cs : List Call) : Hardware := cs.foldl move h

/-- The hardware is **in place** for a call: the arm is only freed when it is
    not, thanks are only given when it is, the alarm is switched on or off only
    when it is not so already, and what is reported is a push at a gate whose
    alarm sounds. -/
def Allows (h : Hardware) : Call → Prop
  | .action .lock => True
  | .action .unlock => h.isOpen = false
  | .action .thankyou => h.isOpen = true
  | .action .alarmOn => h.alarm = false
  | .action .alarmOff => h.alarm = true
  | .unexpected state event => h.alarm = true ∧ state = "Alarming" ∧ event = "Pass"

/-- Nobody can pass while the alarm sounds. -/
def Safe (h : Hardware) : Prop := ¬(h.isOpen = true ∧ h.alarm = true)

/-- The hardware is as a state of the gate says. -/
def Matches (h : Hardware) (s : State) : Prop :=
  (h.isOpen = true ↔ s = .unlocked) ∧ (h.alarm = true ↔ s = .alarming)

theorem Matches.safe {h : Hardware} {s : State} (hs : h.Matches s) : h.Safe := by
  rintro ⟨hopen, halarm⟩
  have hunlocked := hs.1.mp hopen
  have halarming := hs.2.mp halarm
  rw [hunlocked] at halarming
  cases halarming

/-! ## Orderly calls -/

/-- Calls in order, each of them in place and none of them unsafe. -/
def Orderly (h : Hardware) : List Call → Prop
  | [] => h.Safe
  | c :: rest => h.Safe ∧ h.Allows c ∧ (h.move c).Orderly rest

theorem Orderly.safe {h : Hardware} {cs : List Call} (hcs : h.Orderly cs) : h.Safe := by
  cases cs with
  | nil => exact hcs
  | cons c rest => exact hcs.1

theorem Orderly.append {h : Hardware} {cs ds : List Call} (hcs : h.Orderly cs)
    (hds : (h.moveAll cs).Orderly ds) : h.Orderly (cs ++ ds) := by
  induction cs generalizing h with
  | nil => exact hds
  | cons c rest ih =>
    obtain ⟨hsafe, hallows, hrest⟩ := hcs
    exact ⟨hsafe, hallows, ih hrest hds⟩

/-- Of orderly calls, each is in place, and safe before and after. -/
theorem Orderly.at_call {h : Hardware} {before after : List Call} {c : Call}
    (hcs : h.Orderly (before ++ c :: after)) :
    (h.moveAll before).Allows c ∧ (h.moveAll before).Safe ∧
      ((h.moveAll before).move c).Safe := by
  induction before generalizing h with
  | nil =>
    obtain ⟨hsafe, hallows, hafter⟩ := hcs
    exact ⟨hallows, hsafe, hafter.safe⟩
  | cons b rest ih => exact ih hcs.2.2

theorem moveAll_append (h : Hardware) (cs ds : List Call) :
    h.moveAll (cs ++ ds) = (h.moveAll cs).moveAll ds := by
  simp [moveAll]

/-! ## The two-coin table -/

theorem Matches.eq {h : Hardware} {s : State} (hs : h.Matches s) :
    h = ⟨decide (s = .unlocked), decide (s = .alarming)⟩ := by
  obtain ⟨isOpen, alarm⟩ := h
  obtain ⟨hopen, halarm⟩ := hs
  have hopen' : isOpen = decide (s = .unlocked) := Bool.eq_iff_iff.mpr (by simpa using hopen)
  have halarm' : alarm = decide (s = .alarming) := Bool.eq_iff_iff.mpr (by simpa using halarm)
  rw [hopen', halarm']

/-- One step of `Table.twoCoin`: from hardware that `Matches` the state, its
    calls are orderly and leave hardware that matches the next state. -/
theorem twoCoin_step {h : Hardware} {s : State} (hs : h.Matches s) (i : Input) :
    h.Orderly (Table.twoCoin.transition s i).calls ∧
      (h.moveAll (Table.twoCoin.transition s i).calls).Matches
        (Table.twoCoin.transition s i).after := by
  rw [hs.eq]
  -- seven rules, the push that has none, and a reset from every state
  rcases i with (_ | _) | _ <;> cases s <;>
    simp [Matches, Orderly, Safe, Allows, moveAll, move, Transition.calls, Table.transition,
      Table.lookup, Table.twoCoin, Rule.matches?, Input.name, State.name, Event.name,
      State.afterReset, State.resetActions, State.isAlarming]

/-- A `walk` through `Table.twoCoin` makes `Orderly` calls, and leaves hardware
    that `Matches` the state it reaches. -/
theorem twoCoin_walk {h : Hardware} {s : State} (hs : h.Matches s) (inputs : List Input) :
    h.Orderly ((Table.twoCoin.walk s inputs).flatMap (·.calls)) ∧
      (h.moveAll ((Table.twoCoin.walk s inputs).flatMap (·.calls))).Matches
        (Table.twoCoin.reach s inputs) := by
  induction inputs generalizing h s with
  | nil => exact ⟨hs.safe, hs⟩
  | cons i rest ih =>
    -- the hardware is as the state says again before the next input
    obtain ⟨horderly, hmatches⟩ := twoCoin_step hs i
    obtain ⟨hrest, hend⟩ := ih hmatches
    rw [Table.walk, List.flatMap_cons, moveAll_append]
    exact ⟨horderly.append hrest, hend⟩

end Hardware

namespace Machine

variable {σ : Type} [Handler σ]

/-- **Safety of the two-coin gate.** Watch the calls of a machine on the
    two-coin table, from any state, with a steady handler and hardware that
    `Matches` that state. After any inputs the hardware matches the state
    reached; and at every call, also between those of one input, the hardware
    `Allows` the call and is `Safe`: the arm is not free while the alarm
    sounds. -/
theorem twoCoin_run_safe {m : Machine (Watched σ)} (htable : m.table = .twoCoin)
    (hsteady : Steady m.handler.handler) (hfresh : m.handler.recorder = .empty)
    {h : Hardware} (hstart : h.Matches m.state) (timed : List (Instant × Input)) :
    let m' := m.runOn (feed timed)
    (h.moveAll m'.handler.recorder.calls.toList).Matches m'.state ∧
      ∀ (before : List Call) (c : Call) (after : List Call),
        m'.handler.recorder.calls.toList = before ++ c :: after →
        (h.moveAll before).Allows c ∧ (h.moveAll before).Safe ∧
          ((h.moveAll before).move c).Safe := by
  intro m'
  -- what is watched is the walk of the two-coin table
  obtain ⟨hadvanced, hrecorder⟩ := runOn_feed_watched timed hsteady
  have hcalls : m'.handler.recorder.calls.toList =
      (Table.twoCoin.walk m.state (timed.map (·.2))).flatMap (·.calls) := by
    rw [hrecorder, hfresh, htable, Recorder.calls_noteAll]
    rfl
  have hstate : m'.state = Table.twoCoin.reach m.state (timed.map (·.2)) := by
    rw [hadvanced.state, htable]
  obtain ⟨horderly, hend⟩ := Hardware.twoCoin_walk hstart (timed.map (·.2))
  rw [hcalls, hstate]
  refine ⟨hend, ?_⟩
  intro before c after hsplit
  rw [hsplit] at horderly
  exact horderly.at_call

/-- A gate whose alarm sounds, with a recorder for a handler. -/
def alarmedGate : Machine (Watched Recorder) :=
  .start .twoCoin .alarming History.defaultLimit ⟨.empty, .empty⟩

/-- A coin, a passage, two pushes and a reset. -/
theorem alarmedGate_run_safe :
    let m' := alarmedGate.runOn (feed [(⟨0⟩, .event .coin), (⟨1⟩, .event .pass),
      (⟨2⟩, .event .pass), (⟨3⟩, .event .pass), (⟨4⟩, .reset)])
    m'.handler.recorder.calls.toList =
        [.action .alarmOff, .action .unlock, .action .lock, .action .alarmOn,
          .unexpected "Alarming" "Pass", .action .alarmOff, .action .lock] ∧
      (Hardware.mk false true).Matches .alarming ∧
      (Hardware.moveAll ⟨false, true⟩ m'.handler.recorder.calls.toList).Matches m'.state ∧
      (Hardware.moveAll ⟨false, true⟩ [.action .alarmOff]).Allows (.action .unlock) := by
  intro m'
  have hcalls : m'.handler.recorder.calls.toList =
      [.action .alarmOff, .action .unlock, .action .lock, .action .alarmOn,
        .unexpected "Alarming" "Pass", .action .alarmOff, .action .lock] := by decide
  have hstart : (Hardware.mk false true).Matches .alarming := by
    simp [Hardware.Matches]
  obtain ⟨hend, hat⟩ :=
    twoCoin_run_safe (m := alarmedGate) rfl (Recorder.steady _) rfl hstart
      [(⟨0⟩, .event .coin), (⟨1⟩, .event .pass), (⟨2⟩, .event .pass), (⟨3⟩, .event .pass),
        (⟨4⟩, .reset)]
  exact ⟨hcalls, hstart, hend, (hat [.action .alarmOff] (.action .unlock) _ hcalls).1⟩

end Machine

end FareGate
