import FareGate.Vocabulary

/-! # Rules and tables

  * **Rule**: in this state, on this event, carry out these actions and go to
    that state.
  * **Table**: rules in a fixed order; of two rules for one state and event the
    earlier one counts.
  * **The two-coin table**: two coins free the arm for one passage, and pushing
    without paying raises the alarm until a coin silences it. -/

namespace FareGate

/-- What to do about one event in one state. -/
structure Rule where
  state : State
  event : Event
  actions : List Action
  next : State
deriving DecidableEq

namespace Rule

def key (r : Rule) : State × Event := (r.state, r.event)

def matches? (r : Rule) (state : State) (event : Event) : Bool :=
  r.state = state && r.event = event

end Rule

/-- Rules in a fixed order. -/
structure Table where
  rules : List Rule
deriving DecidableEq

namespace Table

/-- The first rule that answers this event in this state. -/
def lookup (t : Table) (state : State) (event : Event) : Option Rule :=
  t.rules.find? fun r => r.matches? state event

def size (t : Table) : Nat := t.rules.length

def isEmpty (t : Table) : Bool := t.rules.isEmpty

/-- The standard table. Pushing on while the alarm sounds has no rule. -/
def twoCoin : Table where
  rules := [
    ⟨.locked, .coin, [], .firstCoin⟩,
    ⟨.locked, .pass, [.alarmOn], .alarming⟩,
    ⟨.firstCoin, .coin, [.unlock], .unlocked⟩,
    ⟨.firstCoin, .pass, [.alarmOn], .alarming⟩,
    ⟨.unlocked, .coin, [.thankyou], .unlocked⟩,
    ⟨.unlocked, .pass, [.lock], .locked⟩,
    ⟨.alarming, .coin, [.alarmOff, .unlock], .unlocked⟩]

instance : Inhabited Table := ⟨twoCoin⟩

/-! ## What a look-up finds -/

theorem lookup_some {t : Table} {state : State} {event : Event} {r : Rule}
    (hfound : t.lookup state event = some r) :
    r ∈ t.rules ∧ r.state = state ∧ r.event = event := by
  refine ⟨List.mem_of_find?_eq_some hfound, ?_⟩
  simpa [Rule.matches?] using List.find?_some hfound

theorem lookup_eq_none_iff {t : Table} {state : State} {event : Event} :
    t.lookup state event = none ↔ ∀ r ∈ t.rules, r.key ≠ (state, event) := by
  simp [lookup, Rule.matches?, Rule.key]

end Table

end FareGate
