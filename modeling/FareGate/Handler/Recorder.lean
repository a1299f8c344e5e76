import FareGate.Handler

/-! # The recorder

  A handler that moves nothing and keeps every call in order. Its **trace** is
  one text for a whole run: a letter for each action, `X(state,event)` for each
  input that no rule foresaw. -/

namespace FareGate

/-- The calls made so far, oldest first. -/
structure Recorder where
  calls : Array Call := #[]
deriving DecidableEq

namespace Recorder

def empty : Recorder := {}

def note (c : Call) (r : Recorder) : Recorder := ⟨r.calls.push c⟩

def clear (_ : Recorder) : Recorder := empty

/-- The actions among the calls, in order. -/
def actions (r : Recorder) : List Action := r.calls.toList.filterMap Call.action?

/-- The `Call.symbol`s of all calls, as one text. -/
def trace (r : Recorder) : String := String.join (r.calls.toList.map Call.symbol)

/-- A recorder takes every call and never breaks off. -/
instance : Handler Recorder where
  lock r := .finished (r.note (.action .lock))
  unlock r := .finished (r.note (.action .unlock))
  thankyou r := .finished (r.note (.action .thankyou))
  alarmOn r := .finished (r.note (.action .alarmOn))
  alarmOff r := .finished (r.note (.action .alarmOff))
  unexpected state event r := .finished (r.note (.unexpected state event))

/-! ## What a recorder holds after its calls -/

@[simp] theorem calls_note (c : Call) (r : Recorder) :
    (r.note c).calls.toList = r.calls.toList ++ [c] := by
  simp [note]

@[simp] theorem perform_eq (c : Call) (r : Recorder) : c.perform r = .finished (r.note c) := by
  cases c with
  | action a => cases a <;> rfl
  | unexpected state event => rfl

end Recorder

end FareGate
