import FareGate.Proofs.Machine.Independence
import FareGate.Proofs.Table.Order

/-! # Gates whose rules stand in another order

  A gate is only set up with a table that has no problems, and the answers of
  such a table do not depend on the order of its rules. So gates whose tables
  have the same rules cannot be told apart, even by a handler that breaks off:

  * **In step** (`InStep`): machines that are `Abreast`, with handlers in the
    same condition. With tables that have the same answers, they stay in step
    through every input, completed or broken off.
  * **Same sights**: machines in step show the same `sights`. -/

namespace FareGate.Machine

variable {σ : Type}

/-! ## Machines in step -/

/-- **In step**: the machines are `Abreast`, and their handlers are in the same
    condition. They differ at most in their tables and in the times of their
    records. -/
structure InStep (m n : Machine σ) : Prop extends Abreast m n where
  handler : n.handler = m.handler

theorem InStep.start (t u : Table) (s : State) (limit : UInt64) (h : σ) :
    InStep (start t s limit h) (start u s limit h) where
  toAbreast := Abreast.start t u s limit h h
  handler := rfl

section tables
variable {m n : Machine σ}

theorem InStep.transition (h : InStep m n) (htables : Table.SameAnswers m.table n.table)
    (i : Input) : n.transition i = m.transition i := by
  unfold Machine.transition
  rw [h.state, htables.transition]

variable [Handler σ]

/-- Machines in step stay in step through an input, whether it is completed or
    broken off. -/
theorem InStep.obey_input (h : InStep m n) (htables : Table.SameAnswers m.table n.table)
    (now now' : Instant) (i : Input) :
    InStep (m.obey (.input now i)).value (n.obey (.input now' i)).value := by
  have hstep := h.transition htables i
  simp only [obey]
  rcases handle_cases m now i with ⟨s, hcalls, hhandle⟩ | ⟨s, hcalls, hhandle⟩
  · have hcalls' : performAll (n.transition i).calls n.handler = .finished s := by
      rw [hstep, h.handler, hcalls]
    rw [hhandle, handle_finished hcalls', hstep]
    exact ⟨h.toAbreast.complete _ now now' s s, rfl⟩
  · have hcalls' : performAll (n.transition i).calls n.handler = .brokenOff s := by
      rw [hstep, h.handler, hcalls]
    rw [hhandle, handle_brokenOff hcalls']
    exact ⟨⟨h.state, h.limit, h.steps⟩, rfl⟩

end tables

/-! ## Runs -/

/-- Fed with the same inputs, at whatever times, machines in step show the same
    `sights` and stay in step. -/
theorem InStep.feed [Handler σ] {m n : Machine (Watched σ)} (h : InStep m n)
    (htables : Table.SameAnswers m.table n.table) {timed timed' : List (Instant × Input)}
    (hinputs : timed'.map (·.2) = timed.map (·.2)) :
    n.sights (feed timed') = m.sights (feed timed) ∧
      InStep (m.runOn (feed timed)) (n.runOn (feed timed')) := by
  induction timed generalizing timed' m n with
  | nil =>
    rw [List.map_nil, List.map_eq_nil_iff] at hinputs
    rw [hinputs]
    exact ⟨rfl, h⟩
  | cons p rest ih =>
    obtain ⟨now, _⟩ := p
    obtain ⟨⟨now', i⟩, rest', rfl, rfl, hrest⟩ := List.map_eq_cons_iff.mp hinputs
    have hstep := h.transition htables i
    have hfirst := h.obey_input htables now now' i
    have htables' : Table.SameAnswers (m.obey (.input now i)).value.table
        (n.obey (.input now' i)).value.table := by
      rwa [table_obey, table_obey]
    obtain ⟨hsights, hrun⟩ := ih hfirst htables' hrest
    refine ⟨?_, hrun⟩
    simp only [Machine.feed, List.map_cons, sights, Command.input?, logOf]
    rw [hfirst.state, hfirst.handler, h.handler, hstep]
    exact congrArg _ hsights

theorem InStep.runOn_take [Handler σ] {m n : Machine (Watched σ)} (h : InStep m n)
    (htables : Table.SameAnswers m.table n.table) {timed timed' : List (Instant × Input)}
    (hinputs : timed'.map (·.2) = timed.map (·.2)) (k : Nat) :
    InStep (m.runOn (Machine.feed (timed.take k))) (n.runOn (Machine.feed (timed'.take k))) := by
  have htake : (timed'.take k).map (·.2) = (timed.take k).map (·.2) := by
    rw [List.map_take, hinputs, List.map_take]
  exact (h.feed htables htake).2

/-- **The order of the rules makes no difference.** Take a table and its rules
    in any other order. They have the same problems, each as often. If there are
    none, at most one rule answers an event in a state, and both tables find the
    same rule or none. A gate can then be set up with either table, for any
    handler and any cap. On the same inputs, at whatever times and wherever the
    handler breaks off, the two gates show the same `sights`, which are states,
    calls and lines in the log, and at every point of their runs they are
    `InStep`: the handlers are in the same condition and the same steps are on
    record. -/
theorem order_of_rules_irrelevant [Handler σ] {t u : Table} (hperm : u.rules.Perm t.rules)
    (initial : State) :
    (u.problems initial).Perm (t.problems initial) ∧
    (t.problems initial = [] →
      (∀ s e, t.rules.countP (fun r => r.matches? s e) ≤ 1 ∧ u.lookup s e = t.lookup s e) ∧
      ∀ (w : Watched σ) (limit : UInt64), ∃ line m n,
        Setup.build { handler := some w, table := t, initial, historyLimit := limit } =
            .ok (line, m) ∧
          Setup.build { handler := some w, table := u, initial, historyLimit := limit } =
            .ok (line, n) ∧
          ∀ timed timed' : List (Instant × Input), timed'.map (·.2) = timed.map (·.2) →
            n.sights (feed timed') = m.sights (feed timed) ∧
              ∀ k, InStep (m.runOn (feed (timed.take k))) (n.runOn (feed (timed'.take k)))) := by
  have hproblems := Table.problems_perm hperm initial
  refine ⟨hproblems, fun hvalid => ?_⟩
  have hvalid' : u.problems initial = [] := by
    rw [hvalid] at hproblems
    exact hproblems.eq_nil
  have hunique := Table.countP_matches_le_one hvalid
  have htables := Table.SameAnswers.of_perm hperm hunique
  refine ⟨fun s e => ⟨hunique s e, htables s e⟩, fun w limit => ?_⟩
  have hsize : u.size = t.size := hperm.length_eq
  refine ⟨.built initial t.size limit, .start t initial limit w, .start u initial limit w,
    ?_, ?_, fun timed timed' hinputs => ?_⟩
  · simp only [Setup.build, hvalid]
  · simp only [Setup.build, hvalid', hsize]
  · have hstart := InStep.start t u initial limit w
    exact ⟨(hstart.feed htables hinputs).1, hstart.runOn_take htables hinputs⟩

/-- The two-coin table from its last rule to its first. -/
def reversedTwoCoin : Table := ⟨Table.twoCoin.rules.reverse⟩

/-- A push and two coins, where the handler breaks off as the alarm is to be
    silenced for the first coin. -/
theorem reversedTwoCoin_order_irrelevant :
    let w : Watched Fragile := ⟨.fresh fun k => k == 2, .empty⟩
    let timed : List (Instant × Input) :=
      [(⟨0⟩, .event .pass), (⟨1⟩, .event .coin), (⟨2⟩, .event .coin)]
    let timed' : List (Instant × Input) :=
      [(⟨70⟩, .event .pass), (⟨80⟩, .event .coin), (⟨90⟩, .event .coin)]
    reversedTwoCoin.rules.Perm Table.twoCoin.rules ∧ Table.twoCoin.problems .locked = [] ∧
      reversedTwoCoin.lookup .alarming .coin =
        some ⟨.alarming, .coin, [.alarmOff, .unlock], .unlocked⟩ ∧
      ∃ line m n,
        Setup.build ⟨some w, .twoCoin, .locked, 2⟩ = .ok (line, m) ∧
        Setup.build ⟨some w, reversedTwoCoin, .locked, 2⟩ = .ok (line, n) ∧
        (n.sights (feed timed')).map (fun sight => (sight.state, sight.calls)) =
          [(.alarming, [.action .alarmOn]), (.alarming, [.action .alarmOff]),
            (.unlocked, [.action .alarmOff, .action .unlock])] ∧
        InStep (m.runOn (feed (timed.take 2))) (n.runOn (feed (timed'.take 2))) := by
  intro w timed timed'
  have hperm : reversedTwoCoin.rules.Perm Table.twoCoin.rules := List.reverse_perm _
  have hvalid : Table.twoCoin.problems .locked = [] := Table.problems_twoCoin _
  obtain ⟨-, hgates⟩ := order_of_rules_irrelevant (σ := Fragile) hperm .locked
  obtain ⟨hanswers, hruns⟩ := hgates hvalid
  obtain ⟨line, m, n, hm, hn, hsame⟩ := hruns w 2
  obtain ⟨hsights, hstep⟩ := hsame timed timed' rfl
  refine ⟨hperm, hvalid, (hanswers _ _).2, line, m, n, hm, hn, ?_, hstep 2⟩
  cases hm
  rw [hsights]
  decide

end FareGate.Machine
