import FareGate.Proofs.Machine.Order
import FareGate.Proofs.Table.Verdict

/-! # What a gate is set up with

  Settings are given one after the other, and a gate is built from what they
  lead to:

  * **Kinds** (`Setting.Kind`): a setting gives the handler, the table, the
    initial state or the cap on the history. A later one takes the place of an
    earlier one of its kind.
  * **Last values** (`lastOf`): what settings lead to is told by the last value
    of each kind, or the usual one where none was given. Their order makes no
    difference but among settings of one kind.
  * **Verdict** (`Table.verdict`): what is reported of a table is what its
    joined checks found.
  * **Valid tables**: a gate that was set up, with settings or as the standard
    gate, runs on a table without problems. -/

namespace FareGate

variable {σ : Type}

/-! ## Kinds of settings -/

namespace Setting

/-- What a setting is about. -/
inductive Kind where
  | handler
  | table
  | initial
  | historyLimit
deriving DecidableEq

def kind : Setting σ → Kind
  | .handler _ => .handler
  | .table _ => .table
  | .initial _ => .initial
  | .historyLimit _ => .historyLimit

def handler? : Setting σ → Option σ
  | .handler h => some h
  | _ => none

def table? : Setting σ → Option Table
  | .table t => some t
  | _ => none

def initial? : Setting σ → Option State
  | .initial s => some s
  | _ => none

def historyLimit? : Setting σ → Option UInt64
  | .historyLimit n => some n
  | _ => none

/-- The **last setting** of a kind. -/
def lastOf (k : Kind) (settings : List (Setting σ)) : Option (Setting σ) :=
  (settings.filter fun s => s.kind = k).getLast?

theorem lastOf_concat (k : Kind) (settings : List (Setting σ)) (s : Setting σ) :
    lastOf k (settings ++ [s]) = if s.kind = k then some s else lastOf k settings := by
  unfold lastOf
  rw [List.filter_append]
  by_cases hs : s.kind = k
  · simp [hs]
  · simp [hs]

end Setting

/-! ## What settings lead to -/

namespace Setup

open Setting

/-- `ofSettings` leads to the last value of each kind, or to the usual one. -/
theorem ofSettings_eq (settings : List (Setting σ)) :
    ofSettings settings =
      { handler := (lastOf .handler settings).bind handler?
        table := ((lastOf .table settings).bind table?).getD .twoCoin
        initial := ((lastOf .initial settings).bind initial?).getD .initial
        historyLimit :=
          ((lastOf .historyLimit settings).bind historyLimit?).getD History.defaultLimit } := by
  induction settings using List.reverseRecOn with
  | nil => rfl
  | append_singleton settings s ih =>
    have hlast : ofSettings (settings ++ [s]) = (ofSettings settings).set s :=
      List.foldl_concat _ _ _ _
    rw [hlast, ih]
    simp only [lastOf_concat]
    cases s <;> rfl

/-! ## What is built -/

/-- What a build comes to: the want of a handler, the problems of the table or
    the gate. -/
theorem build_iff (p : Setup σ) :
    (p.build = .error .missingHandler ↔ p.handler = none) ∧
    (∀ first others, p.build = .error (.invalidTable first others) ↔
      p.handler ≠ none ∧ p.table.problems p.initial = first :: others) ∧
    (∀ line m, p.build = .ok (line, m) ↔
      ∃ handler, p.handler = some handler ∧ p.table.problems p.initial = [] ∧
        line = .built p.initial p.table.size p.historyLimit ∧
        m = .start p.table p.initial p.historyLimit handler) := by
  rcases p.build_cases with ⟨hnone, hbuild⟩ | ⟨first, others, hsome, hproblems, hbuild⟩ |
    ⟨handler, hsome, hvalid, hbuild⟩
  · simp [hnone, hbuild]
  · simp [hsome, hproblems, hbuild]
  · simp [hsome, hvalid, hbuild, eq_comm]

/-- `build` goes by the `Table.verdict`, in whatever way the checks are joined: a
    gate comes about on a sound verdict, and otherwise exactly the problems of the
    verdict are reported. -/
theorem build_eq_of_joinsInOrder {join : List Verdict → Verdict} (hjoin : Verdict.JoinsInOrder join)
    (p : Setup σ) :
    p.build =
      match p.handler with
      | none => .error .missingHandler
      | some handler =>
        match p.table.verdict join p.initial with
        | .faulty first others => .error (.invalidTable first others)
        | .sound => .ok (.built p.initial p.table.size p.historyLimit,
            .start p.table p.initial p.historyLimit handler) := by
  have hproblems := Table.problems_verdict hjoin p.table p.initial
  unfold build
  rw [← hproblems]
  cases p.handler with
  | none => rfl
  | some handler =>
    cases p.table.verdict join p.initial with
    | sound => rfl
    | faulty first others => rfl

end Setup

namespace Machine

theorem IsNew.problems_eq_nil {m : Machine σ} (hnew : m.IsNew) :
    m.table.problems m.state = [] := by
  cases hnew with
  | standard handler => exact Table.problems_twoCoin _
  | built hbuild =>
    obtain ⟨-, -, hvalid, -, rfl⟩ := Setup.of_build hbuild
    exact hvalid

open Setting

/-- **A gate is built from the last settings.** Take any settings in order, and
    of each kind the last value given or the usual one.

    * Without a handler, this is what is reported, whatever the table is. With
      one, the `Table.problems` for the initial state are reported, if there are
      any. Otherwise the gate comes about in the initial state, with the table,
      an empty history under the cap and the handler as it was given.
    * Settings that differ in the order among kinds only have the same outcome.
    * Every gate that was set up runs on a table without problems for the state
      it started in.
    * The standard gate is the one built with the handler alone. On the same
      inputs, at whatever times and wherever the handler breaks off, both show
      the same `sights`, and at every point of their runs they are `InStep`. -/
theorem build_of_last_settings [Handler σ] (settings : List (Setting σ)) :
    let h := (lastOf .handler settings).bind handler?
    let t := ((lastOf .table settings).bind table?).getD .twoCoin
    let s := ((lastOf .initial settings).bind initial?).getD .locked
    let n := ((lastOf .historyLimit settings).bind historyLimit?).getD 64
    let outcome := (Setup.ofSettings settings).build
    (outcome = .error .missingHandler ↔ h = none) ∧
    (∀ first others, outcome = .error (.invalidTable first others) ↔
      h ≠ none ∧ t.problems s = first :: others) ∧
    (∀ line m, outcome = .ok (line, m) ↔
      ∃ handler, h = some handler ∧ t.problems s = [] ∧ line = .built s t.size n ∧
        m = { state := s, table := t, handler, history := { records := #[], limit := some n } }) ∧
    (∀ settings' : List (Setting σ),
      (∀ k, (settings'.filter fun p => p.kind = k) = settings.filter fun p => p.kind = k) →
        (Setup.ofSettings settings').build = outcome) ∧
    (∀ m : Machine σ, m.IsNew → ∀ commands,
      (m.runOn commands).table.problems m.state = []) ∧
    ∀ w : Watched σ, ∃ line m,
      (Setup.ofSettings [.handler w]).build = .ok (line, m) ∧ m = standard w ∧
        ∀ timed timed' : List (Instant × Input), timed'.map (·.2) = timed.map (·.2) →
          (standard w).sights (feed timed') = m.sights (feed timed) ∧
            ∀ k, InStep (m.runOn (feed (timed.take k)))
              ((standard w).runOn (feed (timed'.take k))) := by
  intro h t s n outcome
  have houtcome : outcome = Setup.build ⟨h, t, s, n⟩ :=
    congrArg Setup.build (Setup.ofSettings_eq settings)
  obtain ⟨hmissing, hinvalid, hok⟩ := Setup.build_iff (⟨h, t, s, n⟩ : Setup σ)
  simp only [← houtcome] at hmissing hinvalid hok
  refine ⟨hmissing, hinvalid, hok, ?_, ?_, ?_⟩
  · intro settings' hkinds
    have hsame : Setup.ofSettings settings' = Setup.ofSettings settings := by
      simp only [Setup.ofSettings_eq, lastOf, hkinds]
    rw [hsame]
  · intro m hnew commands
    rw [table_runOn]
    exact hnew.problems_eq_nil
  · intro w
    refine ⟨_, _, Setup.build_standard w, rfl, fun timed timed' hinputs => ?_⟩
    have hstart := InStep.start Table.twoCoin Table.twoCoin .initial History.defaultLimit w
    have htables : Table.SameAnswers .twoCoin .twoCoin := fun s e => rfl
    exact ⟨(hstart.feed htables hinputs).1, hstart.runOn_take htables hinputs⟩

/-- Settings where the first of two tables and the first of two handlers are
    replaced. The second handler breaks off on its second call. -/
def revisedSettings : List (Setting Fragile) :=
  [.table ⟨[]⟩, .handler (.fresh fun _ => true), .historyLimit 3, .table .twoCoin,
    .handler (.fresh fun k => k == 2), .initial .alarming]

/-- `revisedSettings`, with those of different kinds in another order. -/
def reorderedSettings : List (Setting Fragile) :=
  [.initial .alarming, .handler (.fresh fun _ => true), .handler (.fresh fun k => k == 2),
    .table ⟨[]⟩, .table .twoCoin, .historyLimit 3]

/-- Both lead to an alarmed gate with the two-coin table and the second handler,
    while the first three of the settings have a table without rules. With the
    second handler alone, the standard gate comes about. -/
theorem revisedSettings_build :
    let m : Machine Fragile := start .twoCoin .alarming 3 (.fresh fun k => k == 2)
    let w : Watched Fragile := ⟨.fresh fun k => k == 2, .empty⟩
    let timed : List (Instant × Input) := [(⟨0⟩, .event .pass), (⟨1⟩, .event .coin)]
    let timed' : List (Instant × Input) := [(⟨70⟩, .event .pass), (⟨80⟩, .event .coin)]
    (∀ k : Setting.Kind, (reorderedSettings.filter fun p => p.kind = k) =
      revisedSettings.filter fun p => p.kind = k) ∧
    (Setup.ofSettings revisedSettings).build = .ok (.built .alarming 7 3, m) ∧
    (Setup.ofSettings reorderedSettings).build = .ok (.built .alarming 7 3, m) ∧
    (Setup.ofSettings (revisedSettings.take 3)).build =
      .error (.invalidTable .noRules
        [.unusedState .firstCoin, .unusedState .unlocked, .unusedState .alarming]) ∧
    (Setup.ofSettings (revisedSettings.take 1)).build = .error .missingHandler ∧
    m.IsNew ∧ (m.runOn (feed timed)).table.problems m.state = [] ∧
    timed'.map (·.2) = timed.map (·.2) ∧
    ∃ line n, (Setup.ofSettings [.handler w]).build = .ok (line, n) ∧
      (standard w).sights (feed timed') = n.sights (feed timed) := by
  intro m w timed timed'
  have hkinds : ∀ k : Setting.Kind, (reorderedSettings.filter fun p => p.kind = k) =
      revisedSettings.filter fun p => p.kind = k := by
    intro k
    cases k <;> rfl
  obtain ⟨-, -, hok, hreordered, hvalid, hstandard⟩ := build_of_last_settings revisedSettings
  have hbuild : (Setup.ofSettings revisedSettings).build = .ok (.built .alarming 7 3, m) :=
    (hok _ _).mpr ⟨_, rfl, Table.problems_twoCoin _, rfl, rfl⟩
  have hnew : m.IsNew := .built hbuild
  obtain ⟨-, hinvalid, -⟩ := build_of_last_settings (revisedSettings.take 3)
  obtain ⟨hmissing, -⟩ := build_of_last_settings (revisedSettings.take 1)
  obtain ⟨line, n, hline, -, hruns⟩ := hstandard w
  refine ⟨hkinds, hbuild, ?_, ?_, hmissing.mpr rfl, hnew, hvalid m hnew _, rfl, line, n, hline,
    (hruns timed timed' rfl).1⟩
  · rw [hreordered _ hkinds, hbuild]
  · exact (hinvalid _ _).mpr ⟨Option.some_ne_none (Fragile.fresh fun _ => true), rfl⟩

end Machine

end FareGate
