import FareGate.Transition
import Mathlib.Data.List.Chain

/-! # Walks through a table

  What the rules of a table say about steps, one by one and one after the
  other, without any machine:

  * **Justified** (`JustifiedBy`): a step that says of its input what the rules
    say.
  * **Requested calls** (`requests`): the calls that an input asks for.
  * **Walk** (`walk`): the steps that inputs lead to from a state, and the state
    that they reach (`reach`). A chain of justified steps is the walk on its own
    inputs.
  * **Same answers** (`SameAnswers`): tables that answer the same events in the
    same way. Their walks are the same. -/

namespace FareGate

/-! ## One step -/

/-- **Justification**: an event with a rule is handled as the rule says; an
    event without one is unexpected and changes nothing; a reset locks the arm,
    and silences the alarm first when it sounds. -/
def Transition.JustifiedBy (step : Transition) (t : Table) : Prop :=
  match step.input with
  | .event e =>
    match t.lookup step.before e with
    | some rule =>
      step.outcome = .handled ∧ step.actions = rule.actions ∧ step.after = rule.next
    | none => step.outcome = .unexpected ∧ step.actions = [] ∧ step.after = step.before
  | .reset =>
    step.outcome = .handled ∧ step.after = .locked ∧
      step.actions = if step.before = .alarming then [.alarmOff, .lock] else [.lock]

namespace Table

theorem transition_of_lookup_some {t : Table} {s : State} {e : Event} {r : Rule}
    (hfound : t.lookup s e = some r) :
    t.transition s (.event e) = ⟨s, r.next, .event e, r.actions, .handled⟩ := by
  simp [transition, hfound]

theorem transition_of_lookup_none {t : Table} {s : State} {e : Event}
    (hnone : t.lookup s e = none) :
    t.transition s (.event e) = ⟨s, s, .event e, [], .unexpected⟩ := by
  simp [transition, hnone]

/-- The calls that an input asks for: the actions of the rule or of the reset,
    or the one report of an event without a rule. -/
def requests (t : Table) (s : State) : Input → List Call
  | .event e =>
    match t.lookup s e with
    | some rule => rule.actions.map .action
    | none => [.unexpected s.name e.name]
  | .reset => if s = .alarming then [.action .alarmOff, .action .lock] else [.action .lock]

/-- The step of a table makes the calls that the input `requests`. -/
theorem calls_transition (t : Table) (s : State) (i : Input) :
    (t.transition s i).calls = t.requests s i := by
  cases i with
  | reset => cases s <;> rfl
  | event e =>
    unfold requests transition
    cases hfound : t.lookup s e with
    | some rule => simp only [hfound]; rfl
    | none => simp only [hfound]; rfl

theorem transition_justified (t : Table) (s : State) (i : Input) :
    (t.transition s i).JustifiedBy t := by
  cases i with
  | reset =>
    refine ⟨rfl, rfl, ?_⟩
    cases s <;> rfl
  | event e =>
    unfold transition
    cases hfound : t.lookup s e with
    | some rule => simp [Transition.JustifiedBy, hfound]
    | none => simp [Transition.JustifiedBy, hfound]

end Table

/-- Only one step from a state on an input is justified. -/
theorem Transition.eq_of_justified {step : Transition} {t : Table}
    (h : step.JustifiedBy t) : t.transition step.before step.input = step := by
  obtain ⟨before, after, input, actions, outcome⟩ := step
  cases input with
  | reset =>
    obtain ⟨houtcome, hafter, hactions⟩ := h
    dsimp only at houtcome hafter hactions
    rw [houtcome, hafter, hactions]
    cases before <;> rfl
  | event e =>
    unfold Transition.JustifiedBy at h
    unfold Table.transition
    cases hfound : t.lookup before e with
    | some rule =>
      simp only [hfound] at h ⊢
      obtain ⟨rfl, rfl, rfl⟩ := h
      rfl
    | none =>
      simp only [hfound] at h ⊢
      obtain ⟨rfl, rfl, rfl⟩ := h
      rfl

/-! ## One step after the other -/

namespace Table

/-- The steps that inputs lead to from a state. -/
def walk (t : Table) : State → List Input → List Transition
  | _, [] => []
  | s, i :: rest => t.transition s i :: t.walk (t.transition s i).after rest

/-- The state that inputs lead to from a state. -/
def reach (t : Table) : State → List Input → State
  | s, [] => s
  | s, i :: rest => t.reach (t.transition s i).after rest

theorem walk_append (t : Table) (s : State) (xs ys : List Input) :
    t.walk s (xs ++ ys) = t.walk s xs ++ t.walk (t.reach s xs) ys := by
  induction xs generalizing s with
  | nil => rfl
  | cons i rest ih =>
    simp only [List.cons_append, walk, reach]
    rw [ih]

theorem reach_append (t : Table) (s : State) (xs ys : List Input) :
    t.reach s (xs ++ ys) = t.reach (t.reach s xs) ys := by
  induction xs generalizing s with
  | nil => rfl
  | cons i rest ih =>
    simp only [List.cons_append, reach]
    rw [ih]

@[simp] theorem length_walk (t : Table) (s : State) (inputs : List Input) :
    (t.walk s inputs).length = inputs.length := by
  induction inputs generalizing s with
  | nil => rfl
  | cons i rest ih => simp only [walk, List.length_cons, ih]

theorem transition_of_mem_walk {t : Table} {s : State} {inputs : List Input} {step : Transition}
    (hstep : step ∈ t.walk s inputs) : t.transition step.before step.input = step := by
  induction inputs generalizing s with
  | nil => cases hstep
  | cons i rest ih =>
    rcases List.mem_cons.mp hstep with hfirst | hlater
    · rw [hfirst, before_transition, input_transition]
    · exact ih hlater

/-- Steps that are justified and that follow one on the other are the walk on
    their own inputs, and the last of them says where it ends. -/
theorem walk_of_chain {t : Table} {s : State} {steps : List Transition}
    (hchain : steps.IsChain fun a b => a.after = b.before)
    (hfirst : ∀ step ∈ steps.head?, step.before = s)
    (hjust : ∀ step ∈ steps, step.JustifiedBy t) :
    t.walk s (steps.map (·.input)) = steps ∧
      ∀ last ∈ steps.getLast?, t.reach s (steps.map (·.input)) = last.after := by
  induction steps generalizing s with
  | nil => simp [walk]
  | cons step rest ih =>
    -- the first step is the only justified one from its state on its input
    have hbefore : step.before = s := hfirst step rfl
    have hstep : t.transition s step.input = step := by
      rw [← hbefore]
      exact Transition.eq_of_justified (hjust step (by simp))
    -- the rest of the walk starts where this step ends
    obtain ⟨hwalk, hreach⟩ := ih (s := step.after) hchain.tail
      (fun next hnext => (hchain.rel_head? hnext).symm)
      (fun other hother => hjust other (List.mem_cons_of_mem _ hother))
    simp only [List.map_cons, walk, reach, hstep, hwalk, true_and]
    intro last hlast
    cases rest with
    | nil =>
      simp only [List.getLast?_singleton, Option.mem_def, Option.some.injEq] at hlast
      rw [← hlast]
      rfl
    | cons next more =>
      rw [List.getLast?_cons_cons] at hlast
      exact hreach last hlast

/-! ## Tables with the same answers -/

section sameAnswers
variable {t u : Table}

/-- **Same answers** of two tables, as far as `lookup` can tell. -/
def SameAnswers (t u : Table) : Prop := ∀ s e, u.lookup s e = t.lookup s e

theorem SameAnswers.transition (h : SameAnswers t u) (s : State) (i : Input) :
    u.transition s i = t.transition s i := by
  cases i with
  | event e =>
    unfold Table.transition
    simp only [h s e]
  | reset => rfl

theorem SameAnswers.walk (h : SameAnswers t u) (s : State) (inputs : List Input) :
    u.walk s inputs = t.walk s inputs := by
  induction inputs generalizing s with
  | nil => rfl
  | cons i rest ih => simp only [Table.walk, h.transition, ih]

theorem SameAnswers.reach (h : SameAnswers t u) (s : State) (inputs : List Input) :
    u.reach s inputs = t.reach s inputs := by
  induction inputs generalizing s with
  | nil => rfl
  | cons i rest ih => simp only [Table.reach, h.transition, ih]

end sameAnswers

end Table

end FareGate
