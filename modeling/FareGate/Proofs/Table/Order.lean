import FareGate.Proofs.Table.Pruned

/-! # Rules in another order

  The order of the rules decides which of two rules for one state and event is
  followed, and which of them is reported. It decides nothing else:

  * **Problems**: a table reports the same problems in any order of its rules,
    each as often, for how often a state and event is reported depends on the
    number of its rules only.
  * **Unique keys**: a table without problems has at most one rule for each
    state and event, and so any order of its rules gives the same answers. -/

namespace FareGate.Table

section order
variable {t u : Table}

/-! ## Problems -/

/-- Every rule with a key but one is among the `duplicates`. -/
theorem count_key_duplicates (t : Table) (k : State × Event) :
    ((duplicates [] t.rules).map Rule.key).count k =
      t.rules.countP (fun r => r.key = k) - 1 := by
  have hsum := t.pruned_append_duplicates_perm.countP_eq fun r => r.key = k
  rw [List.countP_append, countP_key_pruned] at hsum
  have hcount : ((duplicates [] t.rules).map Rule.key).count k =
      (duplicates [] t.rules).countP fun r => r.key = k := by
    rw [List.count, List.countP_map]
    apply List.countP_congr
    intro r _
    simp
  omega

/-- In any order of the rules, each state and event has as many duplicates. -/
theorem duplicates_perm (hperm : u.rules.Perm t.rules) :
    ((duplicates [] u.rules).map Rule.key).Perm ((duplicates [] t.rules).map Rule.key) := by
  rw [List.perm_iff_count]
  intro k
  rw [count_key_duplicates, count_key_duplicates, hperm.countP_eq]

/-- In any order of the rules, the same states are unused. -/
theorem unusedStates_of_perm (hperm : u.rules.Perm t.rules) (initial : State) :
    u.unusedStates initial = t.unusedStates initial := by
  unfold unusedStates
  apply List.filter_congr
  intro s _
  rw [uses, uses, hperm.any_eq]

/-- In any order of the rules, the same problems are reported. -/
theorem problems_perm (hperm : u.rules.Perm t.rules) (initial : State) :
    (u.problems initial).Perm (t.problems initial) := by
  have hempty : u.isEmpty = t.isEmpty := hperm.isEmpty_eq
  have hduplicates : ∀ rules : List Rule,
      (duplicates [] rules).map (fun r => Problem.duplicateRule r.state r.event) =
        ((duplicates [] rules).map Rule.key).map fun k => .duplicateRule k.1 k.2 := by
    intro rules
    rw [List.map_map]
    rfl
  unfold problems
  rw [hempty, hduplicates, hduplicates, unusedStates_of_perm hperm]
  -- only the duplicates may come in another order
  have hmiddle := (duplicates_perm hperm).map fun k => Problem.duplicateRule k.1 k.2
  exact (hmiddle.append_left _).append_right _

/-! ## Unique keys -/

/-- In a table without problems, at most one rule answers an event in a
    state. -/
theorem countP_matches_le_one {initial : State} (hvalid : t.problems initial = []) (s : State)
    (e : Event) : t.rules.countP (fun r => r.matches? s e) ≤ 1 := by
  unfold problems at hvalid
  obtain ⟨hrules, -⟩ := List.append_eq_nil_iff.mp hvalid
  have hnone : duplicates [] t.rules = [] :=
    List.map_eq_nil_iff.mp (List.append_eq_nil_iff.mp hrules).2
  have hcount := count_key_duplicates t (s, e)
  rw [hnone, List.map_nil, List.count_nil] at hcount
  simp only [matches?_eq_decide_key]
  omega

/-- If at most one rule answers, the answers do not depend on the order. -/
theorem SameAnswers.of_perm (hperm : u.rules.Perm t.rules)
    (hunique : ∀ s e, t.rules.countP (fun r => r.matches? s e) ≤ 1) : SameAnswers t u := by
  intro s e
  have hone := hunique s e
  simp only [matches?_eq_decide_key, List.countP_eq_length_filter] at hone
  have hrules := hperm.filter fun r => decide (r.key = (s, e))
  rw [lookup_eq_head?, lookup_eq_head?]
  -- there are not two rules whose order could matter
  generalize t.rules.filter _ = answering at hone hrules ⊢
  match answering, hone with
  | [], _ => rw [List.perm_nil.mp hrules]
  | [r], _ => rw [List.perm_singleton.mp hrules]

end order

end FareGate.Table
