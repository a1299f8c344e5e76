import FareGate.Named

/-! # The vocabulary of a fare gate

  * **State**: where the gate stands.
  * **Event**: what a passenger does.
  * **Action**: what the gate does in answer.
  * **Input**: an event, or the operator's reset.
  * **Outcome**: whether the rules foresaw the input.
  * **Lamp**: the colour of the lamp above the gate.

  Each is written with the fixed names given here. -/

namespace FareGate

/-! ## States -/

/-- Where the gate stands. -/
inductive State where
  /-- The arm is locked and no coin has been taken. -/
  | locked
  /-- The arm is locked and the first of two coins has been taken. -/
  | firstCoin
  /-- The arm is free for one passage. -/
  | unlocked
  /-- Somebody pushed without paying, and the alarm sounds. -/
  | alarming
deriving DecidableEq

namespace State

def name : State → String
  | locked => "Locked"
  | firstCoin => "FirstCoin"
  | unlocked => "Unlocked"
  | alarming => "Alarming"

/-- The state a gate starts in unless it is told otherwise. -/
def initial : State := locked

/-- The state that a reset leads to from anywhere. -/
def afterReset : State := locked

def isAlarming : State → Bool
  | alarming => true
  | _ => false

instance : Inhabited State := ⟨initial⟩
instance : ToString State := ⟨name⟩

instance : Readable State where
  all := [locked, firstCoin, unlocked, alarming]
  name := name
  unknown := .unknownState

instance : LawfulNamed State where
  mem_all a := by cases a <;> decide
  name_injective a b := by cases a <;> cases b <;> decide

end State

/-! ## Events -/

/-- What a passenger does at the gate. -/
inductive Event where
  /-- A coin is put in. -/
  | coin
  /-- Somebody pushes through the arm. -/
  | pass
deriving DecidableEq

namespace Event

def name : Event → String
  | coin => "Coin"
  | pass => "Pass"

instance : ToString Event := ⟨name⟩

instance : Readable Event where
  all := [coin, pass]
  name := name
  unknown := .unknownEvent

instance : LawfulNamed Event where
  mem_all a := by cases a <;> decide
  name_injective a b := by cases a <;> cases b <;> decide

end Event

/-! ## Actions -/

/-- What the gate does in answer to an input. -/
inductive Action where
  | lock
  /-- Free the arm for one passage. -/
  | unlock
  /-- Thank for a coin that was not needed. -/
  | thankyou
  | alarmOn
  | alarmOff
deriving DecidableEq

namespace Action

def name : Action → String
  | lock => "Lock"
  | unlock => "Unlock"
  | thankyou => "Thankyou"
  | alarmOn => "AlarmOn"
  | alarmOff => "AlarmOff"

/-- The letter that stands for an action in a trace. -/
def letter : Action → Char
  | lock => 'L'
  | unlock => 'U'
  | thankyou => 'T'
  | alarmOn => 'A'
  | alarmOff => 'O'

instance : ToString Action := ⟨name⟩

instance : Readable Action where
  all := [lock, unlock, thankyou, alarmOn, alarmOff]
  name := name
  unknown := .unknownAction

instance : LawfulNamed Action where
  mem_all a := by cases a <;> decide
  name_injective a b := by cases a <;> cases b <;> decide

end Action

/-! ## Inputs -/

/-- What a gate can be asked to take in. -/
inductive Input where
  /-- Something a passenger does. -/
  | event (e : Event)
  /-- The operator's reset, which no rule can override. -/
  | reset
deriving DecidableEq

namespace Input

/-- The name of an input: the event's own, or `Reset`. -/
def name : Input → String
  | event e => e.name
  | reset => "Reset"

/-- Reads an input's name. A text that is neither `Reset` nor an event's name
    is reported as an unknown event. -/
def ofName (text : String) : Except NameError Input :=
  if text = "Reset" then .ok reset else (FareGate.ofName text).map event

instance : Coe Event Input := ⟨event⟩
instance : ToString Input := ⟨name⟩

end Input

/-! ## Outcomes -/

/-- How an input was resolved. -/
inductive Outcome where
  /-- A rule or the reset answered it. -/
  | handled
  /-- No rule foresaw it, and it was reported instead. -/
  | unexpected
deriving DecidableEq

namespace Outcome

def name : Outcome → String
  | handled => "Handled"
  | unexpected => "Unexpected"

instance : ToString Outcome := ⟨name⟩

instance : Named Outcome where
  all := [handled, unexpected]
  name := name

instance : LawfulNamed Outcome where
  mem_all a := by cases a <;> decide
  name_injective a b := by cases a <;> cases b <;> decide

end Outcome

/-! ## Lamps -/

/-- The colour shown by the lamp above the gate. -/
inductive Lamp where
  | red
  | green
  | darkBlue
deriving DecidableEq

namespace Lamp

def name : Lamp → String
  | red => "Red"
  | green => "Green"
  | darkBlue => "DarkBlue"

instance : ToString Lamp := ⟨name⟩

/-- A colour is asked for as an action is, so an unknown one is reported as an
    unknown action. -/
instance : Readable Lamp where
  all := [red, green, darkBlue]
  name := name
  unknown := .unknownAction

instance : LawfulNamed Lamp where
  mem_all a := by cases a <;> decide
  name_injective a b := by cases a <;> cases b <;> decide

end Lamp

end FareGate
