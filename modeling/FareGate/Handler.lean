import FareGate.Vocabulary

/-! # Calls and the handlers that answer them

  A gate has no hardware of its own: it *calls* a handler, which moves the arm
  and sounds the alarm.

  * **Call**: one effect asked of a handler.
  * **Attempt**: how a piece of work on a handler ended; a handler may break
    off in the middle, and is then left in the state it had reached.
  * **Handler**: the six entry points, one for each action and one for inputs
    that no rule foresaw.
  * **Performing**: calls are made one after the other, and the first that
    breaks off ends the work. -/

namespace FareGate

/-! ## Calls -/

/-- One effect asked of a handler. -/
inductive Call where
  | action (a : Action)
  /-- Take note that no rule foresees this event in this state, both given by
      name. -/
  | unexpected (state event : String)
deriving DecidableEq

def Call.action? : Call → Option Action
  | action a => some a
  | unexpected _ _ => none

/-- How a call is written in a trace: the action's letter, or
    `X(state,event)`. -/
def Call.symbol : Call → String
  | action a => a.letter.toString
  | unexpected state event => "X(" ++ state ++ "," ++ event ++ ")"

/-! ## Attempts -/

/-- The end of a piece of work on a value of type `σ`. -/
inductive Attempt (σ : Type) where
  /-- All of the work was done, and left this value. -/
  | finished (value : σ)
  /-- The work was broken off, and left this value. -/
  | brokenOff (value : σ)
deriving DecidableEq

namespace Attempt

variable {σ τ : Type}

/-- The value the work left, whether or not it was finished. -/
def value : Attempt σ → σ
  | finished s => s
  | brokenOff s => s

def isFinished : Attempt σ → Bool
  | finished _ => true
  | brokenOff _ => false

/-- The same end, seen through `f`. -/
def map (f : σ → τ) : Attempt σ → Attempt τ
  | finished s => finished (f s)
  | brokenOff s => brokenOff (f s)

/-- Goes on with `next` after finished work; broken-off work stays as it is. -/
def andThen (work : Attempt σ) (next : σ → Attempt σ) : Attempt σ :=
  match work with
  | finished s => next s
  | brokenOff s => brokenOff s

@[simp] theorem andThen_finished (s : σ) (next : σ → Attempt σ) :
    (finished s).andThen next = next s := rfl

@[simp] theorem andThen_brokenOff (s : σ) (next : σ → Attempt σ) :
    (brokenOff s).andThen next = brokenOff s := rfl

theorem andThen_assoc (work : Attempt σ) (f g : σ → Attempt σ) :
    (work.andThen f).andThen g = work.andThen fun s => (f s).andThen g := by
  cases work <;> rfl

end Attempt

/-! ## Handlers -/

/-- The six entry points of a handler whose own state has type `σ`. -/
class Handler (σ : Type) where
  lock : σ → Attempt σ
  unlock : σ → Attempt σ
  thankyou : σ → Attempt σ
  alarmOn : σ → Attempt σ
  alarmOff : σ → Attempt σ
  /-- Take note that no rule foresees this event in this state. -/
  unexpected : (state event : String) → σ → Attempt σ

variable {σ : Type} [Handler σ]

/-- Carries out an action through the entry point made for it. -/
def Action.perform : Action → σ → Attempt σ
  | lock => Handler.lock
  | unlock => Handler.unlock
  | thankyou => Handler.thankyou
  | alarmOn => Handler.alarmOn
  | alarmOff => Handler.alarmOff

def Call.perform : Call → σ → Attempt σ
  | action a => a.perform
  | unexpected state event => Handler.unexpected state event

/-- Makes the calls in order, up to the first that breaks off. -/
def performAll : List Call → σ → Attempt σ
  | [], s => .finished s
  | c :: rest, s => (c.perform s).andThen (performAll rest)

@[simp] theorem performAll_nil (s : σ) : performAll [] s = .finished s := rfl

@[simp] theorem performAll_cons (c : Call) (rest : List Call) (s : σ) :
    performAll (c :: rest) s = (c.perform s).andThen (performAll rest) := rfl

theorem performAll_append (first second : List Call) (s : σ) :
    performAll (first ++ second) s = (performAll first s).andThen (performAll second) := by
  induction first generalizing s with
  | nil => rfl
  | cons c rest ih =>
    simp only [List.cons_append, performAll_cons, Attempt.andThen_assoc]
    cases c.perform s with
    | finished s' => exact ih s'
    | brokenOff s' => rfl

end FareGate
