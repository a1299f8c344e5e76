import FareGate.Proofs.Table.Walk
import FareGate.Table.Problem

/-! # Rules that make no difference

  Of two rules for one state and event the earlier one counts, so the later one
  can be deleted:

  * **Pruned** (`pruned`): a table without the rules whose state and event an
    earlier rule already answers. It has the same answers, and as many rules of
    a state and event are deleted as duplicates of it are reported.

  A rule makes a difference to the states that can be reached, in that a step
  leads nowhere but to the state after a reset and to those that rules lead
  to. The others are reported as unused. -/

namespace FareGate.Table

/-! ## Pruning -/

/-- Of the rules for one state and event, the first. -/
def firsts : List Rule → List Rule
  | [] => []
  | r :: rest => r :: (firsts rest).filter fun q => q.key ≠ r.key

/-- The table without the rules whose state and event an earlier rule
    answers. -/
def pruned (t : Table) : Table := ⟨firsts t.rules⟩

theorem firsts_sublist (rules : List Rule) : (firsts rules).Sublist rules := by
  induction rules with
  | nil => exact .slnil
  | cons r rest ih => exact (List.filter_sublist.trans ih).cons_cons r

/-- Leaving out rules with a key first makes no difference to a choice of rules
    that does not take them. -/
theorem filter_filter_key_ne {p : Rule → Prop} [DecidablePred p] {k : State × Event}
    (hp : ∀ r, p r → r.key ≠ k) (rules : List Rule) :
    (rules.filter fun r => r.key ≠ k).filter (fun r => p r) = rules.filter fun r => p r := by
  rw [List.filter_filter]
  apply List.filter_congr
  intro r _
  by_cases hr : p r
  · simp [hr, hp r hr]
  · simp [hr]

theorem filter_firsts (rules : List Rule) (k : State × Event) :
    (firsts rules).filter (fun r => r.key = k) = (rules.filter fun r => r.key = k).take 1 := by
  induction rules with
  | nil => rfl
  | cons r rest ih =>
    unfold firsts
    by_cases hkey : r.key = k
    · -- the others are left out
      have hothers : ((firsts rest).filter fun q => q.key ≠ r.key).filter (fun q => q.key = k) =
          [] := by
        rw [hkey, List.filter_filter, List.filter_eq_nil_iff]
        simp
      rw [List.filter_cons_of_pos (by simpa using hkey),
        List.filter_cons_of_pos (by simpa using hkey), hothers, List.take_succ_cons, List.take_zero]
    · -- nothing with this key is left out
      have hothers : ∀ q : Rule, q.key = k → q.key ≠ r.key := by
        intro q hq
        rw [hq]
        exact Ne.symm hkey
      rw [List.filter_cons_of_neg (by simpa using hkey),
        List.filter_cons_of_neg (by simpa using hkey), filter_filter_key_ne hothers, ih]

theorem countP_key_pruned (t : Table) (k : State × Event) :
    t.pruned.rules.countP (fun r => r.key = k) =
      min 1 (t.rules.countP fun r => r.key = k) := by
  rw [List.countP_eq_length_filter, pruned, filter_firsts, List.length_take,
    List.countP_eq_length_filter]

theorem matches?_eq_decide_key (r : Rule) (s : State) (e : Event) :
    r.matches? s e = decide (r.key = (s, e)) := by
  simp [Rule.matches?, Rule.key]

/-- The rule that `lookup` finds is the first with this key. -/
theorem lookup_eq_head? (t : Table) (s : State) (e : Event) :
    t.lookup s e = (t.rules.filter fun r => r.key = (s, e)).head? := by
  simp only [lookup, matches?_eq_decide_key]
  rw [List.head?_filter]

/-- A `pruned` table has the `SameAnswers`. -/
theorem sameAnswers_pruned (t : Table) : SameAnswers t t.pruned := by
  intro s e
  rw [lookup_eq_head?, lookup_eq_head?, pruned, filter_firsts, List.head?_take,
    if_neg Nat.one_ne_zero]

/-! ## What is deleted is what is reported -/

/-- The `firsts` and the `duplicates` are all rules there are. In general, a
    state and event that was seen before has no first rule any more. -/
theorem firsts_append_duplicates_perm (seen : List (State × Event)) (rules : List Rule) :
    ((firsts rules).filter (fun r => r.key ∉ seen) ++ duplicates seen rules).Perm rules := by
  induction rules generalizing seen with
  | nil => exact .nil
  | cons r rest ih =>
    unfold firsts duplicates
    by_cases hseen : r.key ∈ seen
    · -- the rule is a duplicate, and so are the others with its key
      have hothers : ∀ q : Rule, q.key ∉ seen → q.key ≠ r.key := by
        intro q hq hkey
        exact hq (hkey ▸ hseen)
      rw [if_pos hseen, List.filter_cons_of_neg (by simpa using hseen),
        filter_filter_key_ne hothers]
      exact List.perm_middle.trans ((ih seen).cons r)
    · -- the rule is a first one, and from here on its key was seen
      have hsame : (fun q : Rule => decide (q.key ∉ seen) && decide (q.key ≠ r.key)) =
          fun q => decide (q.key ∉ r.key :: seen) := by
        funext q
        by_cases hq : q.key = r.key
        · simp [hq]
        · simp [hq]
      rw [if_neg hseen, List.filter_cons_of_pos (by simpa using hseen), List.filter_filter, hsame]
      exact (ih (r.key :: seen)).cons r

theorem pruned_append_duplicates_perm (t : Table) :
    (t.pruned.rules ++ duplicates [] t.rules).Perm t.rules := by
  have hperm := firsts_append_duplicates_perm [] t.rules
  simpa [pruned] using hperm

/-- As many duplicates of a state and event are reported as rules for it are
    deleted. -/
theorem count_duplicateRule_problems (t : Table) (initial : State) (s : State) (e : Event) :
    t.pruned.rules.countP (fun r => r.key = (s, e)) +
        (t.problems initial).count (.duplicateRule s e) =
      t.rules.countP fun r => r.key = (s, e) := by
  have hnoRules : (if t.isEmpty then [Problem.noRules] else []).count (.duplicateRule s e) = 0 := by
    split <;> rfl
  have hunused : ((t.unusedStates initial).map Problem.unusedState).count (.duplicateRule s e) =
      0 := by
    rw [List.count_eq_zero]
    simp
  have hduplicates :
      ((duplicates [] t.rules).map fun r => Problem.duplicateRule r.state r.event).count
        (.duplicateRule s e) = (duplicates [] t.rules).countP fun r => r.key = (s, e) := by
    rw [List.count, List.countP_map]
    apply List.countP_congr
    intro r _
    simp [Rule.key]
  rw [problems, List.count_append, List.count_append, hnoRules, hduplicates, hunused,
    Nat.zero_add, Nat.add_zero, ← List.countP_append]
  exact (pruned_append_duplicates_perm t).countP_eq _

/-! ## States that are reached -/

/-- A step stays where it is, goes back to the state after a reset or leads
    where a rule says. -/
theorem after_transition (t : Table) (s : State) (i : Input) :
    (t.transition s i).after = s ∨ (t.transition s i).after = State.afterReset ∨
      ∃ r ∈ t.rules, r.next = (t.transition s i).after := by
  cases i with
  | reset => exact .inr (.inl rfl)
  | event e =>
    cases hfound : t.lookup s e with
    | some r =>
      rw [transition_of_lookup_some hfound]
      exact .inr (.inr ⟨r, (lookup_some hfound).1, rfl⟩)
    | none =>
      rw [transition_of_lookup_none hfound]
      exact .inl rfl

theorem unusedState_mem_problems_iff {t : Table} {initial s : State} :
    .unusedState s ∈ t.problems initial ↔
      s ≠ initial ∧ s ≠ State.afterReset ∧ ∀ r ∈ t.rules, r.next ≠ s := by
  have hnoRules : Problem.unusedState s ∉ if t.isEmpty then [Problem.noRules] else [] := by
    split <;> simp
  simp [problems, unusedStates, uses, hnoRules, LawfulNamed.mem_all, and_assoc]

end FareGate.Table
