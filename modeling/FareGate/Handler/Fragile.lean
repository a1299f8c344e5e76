import FareGate.Handler.Recorder

/-! # A handler that breaks off

  A recorder behind a handler that numbers its calls from one and breaks off,
  without recording, on the numbers it is told to. It shows what a gate does
  when its hardware gives way in the middle of an input. -/

namespace FareGate

/-- A recorder whose owner breaks off on chosen calls. -/
structure Fragile where
  /-- The calls that went through. -/
  recorder : Recorder := .empty
  /-- How many calls have been made, those that broke off included. -/
  count : Nat := 0
  /-- The numbers of the calls that break off, the first call being one. -/
  failsAt : Nat → Bool

namespace Fragile

def fresh (failsAt : Nat → Bool) : Fragile := { failsAt }

/-- Counts a call, then notes it or breaks off as `failsAt` says. -/
def receive (c : Call) : Fragile → Attempt Fragile
  | ⟨recorder, count, failsAt⟩ =>
    if failsAt (count + 1) then
      .brokenOff ⟨recorder, count + 1, failsAt⟩
    else
      .finished ⟨recorder.note c, count + 1, failsAt⟩

instance : Handler Fragile where
  lock := receive (.action .lock)
  unlock := receive (.action .unlock)
  thankyou := receive (.action .thankyou)
  alarmOn := receive (.action .alarmOn)
  alarmOff := receive (.action .alarmOff)
  unexpected state event := receive (.unexpected state event)

@[simp] theorem perform_eq (c : Call) (f : Fragile) : c.perform f = f.receive c := by
  cases c with
  | action a => cases a <;> rfl
  | unexpected state event => rfl

/-- Forgets the calls that went through; the numbering goes on. -/
def clear : Fragile → Fragile
  | ⟨recorder, count, failsAt⟩ => ⟨recorder.clear, count, failsAt⟩

end Fragile

end FareGate
