import FareGate.Proofs.Table.Pruned
import Mathlib.Data.List.Nodup

/-! # The verdict on a table

  A table is looked through for problems, and each problem that is found is a
  failed check of its own. The checks are then joined to one verdict, in a way
  that comes from elsewhere:

  * **Verdict** (`verdict`): nothing was found, or problems of which there is a
    first one.
  * **Joining** in order (`JoinsInOrder`): the outcome is sound if everything
    joined is, and otherwise has all problems of the parts, one part after the
    other.
  * **Repeats** (`repeats`): the rules whose state and event belong to a rule
    before them.

  So a verdict lists the problems in a fixed order: the want of rules, the
  repeats in the order of the rules, the unused states in the order in which
  states are listed. -/

namespace FareGate

/-! ## Verdicts -/

/-- What comes of checks. -/
inductive Verdict where
  | sound
  /-- There are problems, and one of them was found first. -/
  | faulty (first : Problem) (others : List Problem)
deriving DecidableEq

namespace Verdict

def problems : Verdict → List Problem
  | sound => []
  | faulty first others => first :: others

def ofProblems : List Problem → Verdict
  | [] => sound
  | first :: others => faulty first others

@[simp] theorem problems_ofProblems (ps : List Problem) : (ofProblems ps).problems = ps := by
  cases ps <;> rfl

theorem problems_eq_nil_iff (v : Verdict) : v.problems = [] ↔ v = sound := by
  cases v <;> simp [problems]

/-- **Joining** in order: the outcome is sound if all verdicts are, and
    otherwise has the problems of all of them, in order. -/
structure JoinsInOrder (join : List Verdict → Verdict) : Prop where
  sound_iff : ∀ vs, join vs = sound ↔ ∀ v ∈ vs, v = sound
  problems : ∀ vs, join vs ≠ sound → (join vs).problems = vs.flatMap problems

theorem JoinsInOrder.problems_eq {join : List Verdict → Verdict} (h : JoinsInOrder join)
    (vs : List Verdict) : (join vs).problems = vs.flatMap Verdict.problems := by
  by_cases hsound : join vs = sound
  · have hall := (h.sound_iff vs).mp hsound
    rw [hsound, eq_comm]
    show vs.flatMap Verdict.problems = []
    rw [List.flatMap_eq_nil_iff]
    intro v hv
    exact (problems_eq_nil_iff v).mpr (hall v hv)
  · exact h.problems vs hsound

/-- The problems of all verdicts as one verdict, which is the plainest way of
    joining. -/
def together (vs : List Verdict) : Verdict := ofProblems (vs.flatMap problems)

theorem joinsInOrder_together : JoinsInOrder together where
  sound_iff vs := by
    rw [← problems_eq_nil_iff, together, problems_ofProblems, List.flatMap_eq_nil_iff]
    simp only [problems_eq_nil_iff]
  problems vs _ := problems_ofProblems _

end Verdict

namespace Table

/-- The **verdict** on a table for a gate that starts in `initial`: a failed
    check for each of its `problems`, joined. -/
def verdict (join : List Verdict → Verdict) (t : Table) (initial : State) : Verdict :=
  join ((t.problems initial).map fun p => .faulty p [])

theorem problems_verdict {join : List Verdict → Verdict} (hjoin : Verdict.JoinsInOrder join)
    (t : Table) (initial : State) : (t.verdict join initial).problems = t.problems initial := by
  rw [verdict, hjoin.problems_eq, List.flatMap_map]
  exact List.flatMap_singleton' _

/-! ## Repeats -/

/-- **Repeats**: of rules in order, those whose state and event belong to a
    rule at an earlier place. -/
def repeats (rules : List Rule) : List Rule :=
  (rules.zipIdx.filter fun p => (rules.take p.2).any fun q => q.key = p.1.key).map (·.1)

theorem repeats_concat (rules : List Rule) (r : Rule) :
    repeats (rules ++ [r]) = repeats rules ++ if r.key ∈ rules.map Rule.key then [r] else [] := by
  have hbefore : (rules.zipIdx.filter fun p =>
        ((rules ++ [r]).take p.2).any fun q => q.key = p.1.key) =
      rules.zipIdx.filter fun p => (rules.take p.2).any fun q => q.key = p.1.key := by
    apply List.filter_congr
    intro p hp
    have hplace : p.2 < 0 + rules.length := (List.mem_zipIdx hp).2.1
    rw [List.take_append_of_le_length (by omega)]
  have hlast : (rules.any fun q => q.key = r.key) ↔ r.key ∈ rules.map Rule.key := by
    simp only [List.any_eq_true, decide_eq_true_eq, List.mem_map]
  unfold repeats
  rw [List.zipIdx_append, List.filter_append, List.map_append, hbefore]
  by_cases hr : r.key ∈ rules.map Rule.key
  · simp [hr, hlast.mpr hr]
  · have hnone := Bool.eq_false_iff.mpr (mt hlast.mp hr)
    simp [hr, hnone]

/-- The same of `duplicates`, where some states and events were seen before. -/
theorem duplicates_concat (seen : List (State × Event)) (rules : List Rule) (r : Rule) :
    duplicates seen (rules ++ [r]) =
      duplicates seen rules ++ if r.key ∈ seen ∨ r.key ∈ rules.map Rule.key then [r] else [] := by
  induction rules generalizing seen with
  | nil =>
    by_cases hr : r.key ∈ seen
    · simp [duplicates, hr]
    · simp [duplicates, hr]
  | cons q rest ih =>
    rw [List.cons_append, duplicates, duplicates]
    by_cases hq : q.key ∈ seen
    · -- a state and event that was seen does not come to be seen by this rule
      have hseen : (r.key ∈ seen ∨ r.key ∈ (q :: rest).map Rule.key) ↔
          r.key ∈ seen ∨ r.key ∈ rest.map Rule.key := by
        rw [List.map_cons, List.mem_cons]
        constructor
        · rintro (h | h | h)
          · exact .inl h
          · exact .inl (h ▸ hq)
          · exact .inr h
        · rintro (h | h)
          · exact .inl h
          · exact .inr (.inr h)
      rw [if_pos hq, if_pos hq, ih, List.cons_append]
      simp only [hseen]
    · have hseen : (r.key ∈ seen ∨ r.key ∈ (q :: rest).map Rule.key) ↔
          r.key ∈ q.key :: seen ∨ r.key ∈ rest.map Rule.key := by
        rw [List.map_cons, List.mem_cons, List.mem_cons]
        exact ⟨fun h => by tauto, fun h => by tauto⟩
      rw [if_neg hq, if_neg hq, ih]
      simp only [hseen]

/-- The `duplicates` among rules are their `repeats`. -/
theorem duplicates_eq_repeats (rules : List Rule) : duplicates [] rules = repeats rules := by
  induction rules using List.reverseRecOn with
  | nil => rfl
  | append_singleton rules r ih =>
    rw [duplicates_concat, repeats_concat, ih]
    simp only [List.not_mem_nil, false_or]

theorem repeats_eq_nil_iff (rules : List Rule) :
    repeats rules = [] ↔ (rules.map Rule.key).Nodup := by
  induction rules using List.reverseRecOn with
  | nil => simp [repeats]
  | append_singleton rules r ih =>
    rw [repeats_concat, List.append_eq_nil_iff, ih, List.map_append, List.map_singleton,
      ← List.concat_eq_append, List.nodup_concat]
    by_cases hr : r.key ∈ rules.map Rule.key
    · simp only [hr, if_true, List.cons_ne_nil, and_false, not_true, false_and]
    · simp only [hr, if_false, and_true, not_false_iff, true_and]

/-! ## What a verdict lists -/

theorem uses_iff (t : Table) (initial s : State) :
    t.uses initial s ↔ s = initial ∨ s = .locked ∨ ∃ r ∈ t.rules, r.next = s := by
  unfold uses
  simp only [Bool.or_eq_true, decide_eq_true_eq, List.any_eq_true, or_assoc]
  rfl

/-- The problems of a table, in order. -/
theorem problems_eq_listed (t : Table) (initial : State) :
    t.problems initial =
      (if t.rules = [] then [.noRules] else []) ++
        (repeats t.rules).map (fun r => .duplicateRule r.state r.event) ++
        ([State.locked, .firstCoin, .unlocked, .alarming].filter fun s =>
          ¬(s = initial ∨ s = .locked ∨ ∃ r ∈ t.rules, r.next = s)).map .unusedState := by
  have hempty : t.isEmpty ↔ t.rules = [] := List.isEmpty_iff
  have hunused : t.unusedStates initial =
      [State.locked, .firstCoin, .unlocked, .alarming].filter fun s =>
        ¬(s = initial ∨ s = .locked ∨ ∃ r ∈ t.rules, r.next = s) := by
    unfold unusedStates
    apply List.filter_congr
    intro s _
    simp only [← uses_iff, decide_not, Bool.decide_eq_true]
  rw [problems, duplicates_eq_repeats, hunused]
  simp only [hempty]

/-- A table has no problems if it has rules, no two of them for the same state
    and event, and a use for every state. -/
theorem problems_eq_nil_iff (t : Table) (initial : State) :
    t.problems initial = [] ↔
      t.rules ≠ [] ∧ (t.rules.map Rule.key).Nodup ∧
        ∀ s, s = initial ∨ s = .locked ∨ ∃ r ∈ t.rules, r.next = s := by
  have hstates : t.unusedStates initial = [] ↔ ∀ s, t.uses initial s := by
    rw [unusedStates, List.filter_eq_nil_iff]
    simp [LawfulNamed.mem_all]
  have hempty : (if t.isEmpty then [Problem.noRules] else []) = [] ↔ t.rules ≠ [] := by
    simp [isEmpty]
  unfold problems
  rw [List.append_eq_nil_iff, List.append_eq_nil_iff, List.map_eq_nil_iff, List.map_eq_nil_iff,
    duplicates_eq_repeats, repeats_eq_nil_iff, hstates, hempty, and_assoc]
  simp only [uses_iff]

/-- **A verdict lists every problem, in a fixed order.** Join the checks of a
    table in any way that keeps their order. The verdict lists the want of
    rules, if there are none; then each rule whose state and event belong to an
    earlier rule (`repeats`), in the order of the rules; then each state, in the
    order in which states are listed, that is not the initial one, not the one
    after a reset and not one that a rule leads to. So each state and event is
    listed once less than there are rules for it. The verdict is sound if
    nothing is listed, which is if there are rules, no two of them for the same
    state and event, and a use for every state. -/
theorem verdict_lists_problems {join : List Verdict → Verdict} (hjoin : Verdict.JoinsInOrder join)
    (t : Table) (initial : State) :
    let v := t.verdict join initial
    v.problems =
        (if t.rules = [] then [.noRules] else []) ++
          (repeats t.rules).map (fun r => .duplicateRule r.state r.event) ++
          ([State.locked, .firstCoin, .unlocked, .alarming].filter fun s =>
            ¬(s = initial ∨ s = .locked ∨ ∃ r ∈ t.rules, r.next = s)).map .unusedState ∧
      (∀ s e, v.problems.count (.duplicateRule s e) =
        t.rules.countP (fun r => r.key = (s, e)) - 1) ∧
      (v = .sound ↔ v.problems = []) ∧
      (v = .sound ↔
        t.rules ≠ [] ∧ (t.rules.map Rule.key).Nodup ∧
          ∀ s, s = initial ∨ s = .locked ∨ ∃ r ∈ t.rules, r.next = s) := by
  intro v
  have hlisted : v.problems = t.problems initial := problems_verdict hjoin t initial
  have hsound : v = .sound ↔ v.problems = [] := (Verdict.problems_eq_nil_iff v).symm
  refine ⟨?_, fun s e => ?_, hsound, ?_⟩
  · rw [hlisted, problems_eq_listed]
  · have hcount := count_duplicateRule_problems t initial s e
    rw [countP_key_pruned] at hcount
    rw [hlisted]
    omega
  · rw [hsound, hlisted, problems_eq_nil_iff]

/-- A table with four rules, three of them for one state and event. -/
def tripled : Table where
  rules := [
    ⟨.locked, .coin, [.unlock], .unlocked⟩,
    ⟨.locked, .coin, [], .locked⟩,
    ⟨.unlocked, .pass, [.lock], .locked⟩,
    ⟨.locked, .coin, [.thankyou], .unlocked⟩]

theorem tripled_verdict :
    Verdict.JoinsInOrder Verdict.together ∧
      (tripled.verdict Verdict.together .firstCoin).problems =
        [.duplicateRule .locked .coin, .duplicateRule .locked .coin, .unusedState .alarming] ∧
      (tripled.verdict Verdict.together .firstCoin).problems.count (.duplicateRule .locked .coin) =
        2 ∧
      tripled.verdict Verdict.together .firstCoin ≠ .sound := by
  have hjoin := Verdict.joinsInOrder_together
  obtain ⟨hlisted, hcount, hsound, -⟩ := verdict_lists_problems hjoin tripled .firstCoin
  have hproblems : (tripled.verdict Verdict.together .firstCoin).problems =
      [.duplicateRule .locked .coin, .duplicateRule .locked .coin, .unusedState .alarming] := by
    rw [hlisted]
    decide
  refine ⟨hjoin, hproblems, ?_, ?_⟩
  · rw [hcount]
    decide
  · intro h
    rw [hsound, hproblems] at h
    cases h

end Table

end FareGate
