import FareGate.Proofs.Machine.Occasion
import Mathlib.Data.List.Forall2
import Mathlib.Data.List.TakeWhile

/-! # The log and the history tell the same story

  A gate gives two accounts of what it does, at different moments: a line in
  the log as an input comes in, and a record in the history once the input is
  completed. They agree:

  * **Announcement** (`Announces`): what the line of an input says of it. There
    is one line for each input, also for one that is broken off in its first
    call.
  * **Telling of a record** (`Tells`): a line shows what the record holds. The
    lines of the inputs completed tell of the records offered, one by one and in
    order.
  * **Opening** (`Opening`): a gate with settings of its own has one line before
    all of these; the standard gate has none, and where no gate comes about the
    log stays empty.

  A line shows its particulars as text. The text of a list of actions is that
  of no other list, so nothing is lost in it. -/

namespace FareGate

/-! ## Lists of actions as text -/

namespace Action

def listed (as : List Action) : List Char :=
  List.intercalate [',', ' '] (as.map fun a => a.name.toList)

theorem toList_showAll (as : List Action) : (showAll as).toList = '[' :: listed as ++ [']'] := by
  simp [showAll, listed, String.toList_intercalate, Function.comp_def]

theorem comma_notMem_name (a : Action) : ',' ∉ a.name.toList := by
  cases a <;> decide

theorem takeWhile_listed (a : Action) (rest : List Action) :
    (listed (a :: rest)).takeWhile (· ≠ ',') = a.name.toList := by
  have hname : ∀ c ∈ a.name.toList, decide (c ≠ ',') = true := by
    intro c hc
    refine decide_eq_true fun hcomma => ?_
    exact comma_notMem_name a (hcomma ▸ hc)
  cases rest with
  | nil =>
    simp only [listed, List.map_cons, List.map_nil, List.intercalate_singleton]
    exact List.takeWhile_eq_self_iff.mpr hname
  | cons b more =>
    simp only [listed, List.map_cons, List.intercalate_cons_cons, List.append_assoc]
    rw [List.takeWhile_append_of_pos hname]
    simp

theorem drop_listed (a : Action) (rest : List Action) :
    (listed (a :: rest)).drop (a.name.toList.length + 2) = listed rest := by
  cases rest with
  | nil => simp [listed, List.intercalate_singleton]
  | cons b more =>
    simp only [listed, List.map_cons, List.intercalate_cons_cons, List.append_assoc]
    rw [← List.drop_drop, List.drop_left]
    rfl

theorem name_ne_nil (a : Action) : a.name.toList ≠ [] := by
  cases a <;> decide

theorem listed_injective {as bs : List Action} (h : listed as = listed bs) : as = bs := by
  -- a list with a first name is no empty text
  have hne : ∀ (a : Action) (rest : List Action), listed (a :: rest) ≠ [] := by
    intro a rest hnil
    have hfirst := takeWhile_listed a rest
    rw [hnil] at hfirst
    exact name_ne_nil a hfirst.symm
  induction as generalizing bs with
  | nil =>
    cases bs with
    | nil => rfl
    | cons b more => exact absurd h.symm (hne b more)
  | cons a rest ih =>
    cases bs with
    | nil => exact absurd h (hne a rest)
    | cons b more =>
      have hname : a.name.toList = b.name.toList := by
        rw [← takeWhile_listed a rest, h, takeWhile_listed]
      have hab : a = b := LawfulNamed.name_injective a b (String.toList_inj.mp hname)
      subst hab
      have hrest : listed rest = listed more := by
        rw [← drop_listed a rest, h, drop_listed]
      rw [ih hrest]

/-- The text of `Action.showAll` shows one list of actions only. -/
theorem showAll_inj {as bs : List Action} : showAll as = showAll bs ↔ as = bs := by
  constructor
  · intro h
    have hlists := congrArg String.toList h
    rw [toList_showAll, toList_showAll] at hlists
    exact listed_injective (List.append_cancel_right (List.cons.inj hlists).2)
  · rintro rfl
    rfl

end Action

/-! ## What a line says -/

/-- A rule of the table answers this event in this state. -/
def Table.Answers (t : Table) (s : State) (e : Event) : Prop := ∃ r ∈ t.rules, r.key = (s, e)

namespace LogEntry

/-- What `LogEntry.fields` shows under a name, if anything. -/
def particular? (line : LogEntry) (name : String) : Option String := line.fields.lookup name

/-- **Announcement** of an input that finds a gate in state `s`: an event
    without a rule is warned of, one with a rule and a reset are noted for the
    search of faults. -/
def Announces (line : LogEntry) (t : Table) (s : State) : Input → Prop
  | .event e =>
    (line.level = .warn ∧ line.message = "unexpected turnstile transition" ↔ ¬t.Answers s e) ∧
      (line.level = .debug ∧ line.message = "turnstile transition" ↔ t.Answers s e)
  | .reset => line.level = .debug ∧ line.message = "turnstile reset"

/-- **Telling of a record**: the line shows what the record holds of the step,
    and is a warning exactly if no rule foresaw the input. -/
structure Tells (line : LogEntry) (r : Record) : Prop where
  warns : line.level = .warn ↔ r.outcome = .unexpected
  resets : line.message = "turnstile reset" ↔ r.input = .reset
  before : line.particular? "state" = some r.before.name
  event : ∀ e, r.input = .event e → line.particular? "event" = some e.name
  /-- A rule is told of with the state it leads to. -/
  after : ∀ e, r.input = .event e → r.outcome = .handled →
    line.particular? "next" = some r.after.name
  /-- A rule or a reset is told of with the actions of the record and no
      others. -/
  actions : r.outcome = .handled →
    ∀ as, line.particular? "actions" = some (Action.showAll as) ↔ as = r.actions

end LogEntry

/-! ## One step -/

namespace Table

theorem answers_of_lookup_some {t : Table} {s : State} {e : Event} {r : Rule}
    (hfound : t.lookup s e = some r) : t.Answers s e := by
  obtain ⟨hmem, hstate, hevent⟩ := lookup_some hfound
  exact ⟨r, hmem, by rw [Rule.key, hstate, hevent]⟩

theorem not_answers_of_lookup_none {t : Table} {s : State} {e : Event}
    (hnone : t.lookup s e = none) : ¬t.Answers s e := by
  rintro ⟨r, hmem, hkey⟩
  exact lookup_eq_none_iff.mp hnone r hmem hkey

theorem announces_transition (t : Table) (s : State) (i : Input) :
    (t.transition s i).logEntry.Announces t s i := by
  cases i with
  | reset => exact ⟨rfl, rfl⟩
  | event e =>
    cases hfound : t.lookup s e with
    | some r =>
      have hanswers := answers_of_lookup_some hfound
      rw [transition_of_lookup_some hfound]
      simp [hanswers, LogEntry.Announces, Transition.logEntry, LogEntry.level, LogEntry.message]
    | none =>
      have hanswers := not_answers_of_lookup_none hfound
      rw [transition_of_lookup_none hfound]
      simp [hanswers, LogEntry.Announces, Transition.logEntry, LogEntry.level, LogEntry.message]

theorem tells_transition (t : Table) (s : State) (i : Input) (now : Instant) :
    (t.transition s i).logEntry.Tells ((t.transition s i).recordAt now) := by
  cases i with
  | reset =>
    constructor <;>
      simp [Transition.recordAt, Transition.logEntry, LogEntry.level, LogEntry.message,
        LogEntry.particular?, LogEntry.fields, List.lookup_cons, Action.showAll_inj, eq_comm]
  | event e =>
    cases hfound : t.lookup s e with
    | some r =>
      rw [transition_of_lookup_some hfound]
      constructor <;>
        simp [Transition.recordAt, Transition.logEntry, LogEntry.level, LogEntry.message,
          LogEntry.particular?, LogEntry.fields, List.lookup_cons, Action.showAll_inj, eq_comm]
    | none =>
      rw [transition_of_lookup_none hfound]
      constructor <;>
        simp [Transition.recordAt, Transition.logEntry, LogEntry.level, LogEntry.message,
          LogEntry.particular?, LogEntry.fields, List.lookup_cons]

end Table

namespace Machine

variable {σ : Type} [Handler σ]

/-! ## Runs -/

/-- Each input has one line, which announces it, whatever becomes of it. -/
theorem announced_occasions {m : Machine σ} {timed : List (Instant × Input)} {o : Occasion}
    (ho : o ∈ m.occasions timed) :
    ∃ line, o.log = [line] ∧ line.Announces m.table o.state o.input := by
  induction timed generalizing m with
  | nil => cases ho
  | cons p rest ih =>
    obtain ⟨now, i⟩ := p
    rcases List.mem_cons.mp ho with hfirst | hlater
    · rw [hfirst]
      exact ⟨(m.transition i).logEntry, rfl, Table.announces_transition m.table m.state i⟩
    · -- the machine has the same rules for the inputs that follow
      have htable : (m.handle now i).value.table = m.table := table_obey m (.input now i)
      rw [← htable]
      exact ih hlater

/-- The line of an input that is completed tells of the record that the input
    offers. The line is there before the calls and the record after them, so
    that an input that breaks off has a line alone. -/
theorem tells_offer (m : Machine σ) (now : Instant) (i : Input) :
    List.Forall₂ LogEntry.Tells
      (if (m.handle now i).isFinished then (m.logOf (.input now i)).toList else [])
      (m.offer (.input now i)) := by
  rcases handle_cases m now i with ⟨s, hcalls, hhandle⟩ | ⟨s, hcalls, hhandle⟩
  · rw [hhandle, offer_finished hcalls]
    exact .cons (Table.tells_transition m.table m.state i now) .nil
  · rw [hhandle, offer_brokenOff hcalls]
    exact .nil

theorem tells_offered (timed : List (Instant × Input)) (m : Machine σ) :
    List.Forall₂ LogEntry.Tells
      (((m.occasions timed).filter (·.completed)).flatMap (·.log)) (m.offered (feed timed)) := by
  induction timed generalizing m with
  | nil => exact .nil
  | cons p rest ih =>
    obtain ⟨now, i⟩ := p
    have hlines : ((m.occasions ((now, i) :: rest)).filter (·.completed)).flatMap (·.log) =
        (if (m.handle now i).isFinished then (m.logOf (.input now i)).toList else []) ++
          (((m.handle now i).value.occasions rest).filter (·.completed)).flatMap (·.log) := by
      simp only [occasions, List.filter_cons]
      split
      · rw [List.flatMap_cons]
      · rfl
    rw [hlines]
    exact List.rel_append (tells_offer m now i) (ih (m.handle now i).value)

end Machine

/-! ## Opening a gate -/

/-- How a gate is asked for. -/
inductive Opening (σ : Type) where
  /-- The standard gate with this handler. -/
  | standard (handler : σ)
  /-- A gate with settings of its own. -/
  | custom (p : Setup σ)

namespace Opening

variable {σ : Type} [Handler σ]

/-- The lines of an opening, and the gate if it comes about. -/
def result : Opening σ → List LogEntry × Option (Machine σ)
  | standard handler => ([], some (.standard handler))
  | custom p =>
    match p.build with
    | .ok (line, m) => ([line], some m)
    | .error _ => ([], none)

/-- The whole log: the lines of the opening, then those of the inputs given to
    the gate. -/
def log (o : Opening σ) (timed : List (Instant × Input)) : List LogEntry :=
  o.result.1 ++ (o.result.2.map (Machine.logOn (Machine.feed timed))).getD []

theorem log_standard (handler : σ) (timed : List (Instant × Input)) :
    (standard handler).log timed = (Machine.standard handler).logOn (Machine.feed timed) := rfl

theorem log_of_error {p : Setup σ} {e : SetupError} (herror : p.build = .error e)
    (timed : List (Instant × Input)) : (custom p).log timed = [] := by
  simp [log, result, herror]

theorem log_of_ok {p : Setup σ} {line : LogEntry} {m : Machine σ} (hok : p.build = .ok (line, m))
    (timed : List (Instant × Input)) :
    (custom p).log timed = line :: m.logOn (Machine.feed timed) := by
  simp [log, result, hok]

end Opening

/-- The line of a gate that was set up shows what it was set up with. -/
theorem Setup.line_of_build {σ : Type} {p : Setup σ} {line : LogEntry} {m : Machine σ}
    (hok : p.build = .ok (line, m)) :
    line = .built p.initial p.table.size p.historyLimit := by
  obtain ⟨-, -, -, hline, -⟩ := Setup.of_build hok
  exact hline

namespace Machine

variable {σ : Type} [Handler σ]

/-- **Log and history agree.** In a run of any machine with any handler, each
    input has exactly one line in the log, whether or not it is broken off, and
    the line `Announces` it. The lines of the inputs completed tell, one by one
    and in order, of the records that the run offers to the history (`Tells`),
    and the history has taken in just these. The log of a gate that was set up
    begins with one line about its settings; that of the standard gate has only
    the lines of its inputs, and that of a gate that could not be set up has
    none. -/
theorem log_history_agree :
    (∀ (m : Machine σ) (timed : List (Instant × Input)),
      let os := m.occasions timed
      os.map (·.input) = timed.map (·.2) ∧ os.flatMap (·.log) = m.logOn (feed timed) ∧
        (∀ o ∈ os, ∃ line, o.log = [line] ∧ line.Announces m.table o.state o.input) ∧
        List.Forall₂ LogEntry.Tells ((os.filter (·.completed)).flatMap (·.log))
          (m.offered (feed timed)) ∧
        (m.runOn (feed timed)).history = m.history.recordAll (m.offered (feed timed))) ∧
    ∀ timed : List (Instant × Input),
      (∀ handler : σ, (Opening.standard handler).log timed =
        (standard handler).logOn (feed timed)) ∧
      (∀ (p : Setup σ) (e : SetupError), p.build = .error e →
        (Opening.custom p).log timed = []) ∧
      ∀ (p : Setup σ) (line : LogEntry) (m : Machine σ), p.build = .ok (line, m) →
        (Opening.custom p).log timed = line :: m.logOn (feed timed) ∧
        line.level = .debug ∧ line.message = "built turnstile" ∧
        line.fields = [("initial", p.initial.name), ("rules", toString p.table.rules.length),
          ("history_limit", toString p.historyLimit.toNat)] := by
  refine ⟨fun m timed => ?_, fun timed => ⟨fun handler => ?_, ?_, ?_⟩⟩
  · exact ⟨input_occasions timed m, log_occasions timed m, fun o ho => announced_occasions ho,
      tells_offered timed m, history_runOn m (clearHistory_notMem_feed timed)⟩
  · exact Opening.log_standard handler timed
  · intro p e herror
    exact Opening.log_of_error herror timed
  · intro p line m hok
    refine ⟨Opening.log_of_ok hok timed, ?_⟩
    rw [Setup.line_of_build hok]
    exact ⟨rfl, rfl, rfl⟩

/-- The settings of a gate without a history, whose handler breaks off on its
    first call. -/
def forgetfulSetup : Setup Fragile :=
  { handler := some (.fresh fun n => n == 1), initial := .alarming, historyLimit := 0 }

/-- A coin fails to silence the alarm, somebody pushes, and the second coin is
    taken: four lines in the log, two records offered and none kept. -/
theorem forgetfulGate_log_history :
    let timed : List (Instant × Input) :=
      [(⟨0⟩, .event .coin), (⟨1⟩, .event .pass), (⟨2⟩, .event .coin)]
    let m : Machine Fragile := start .twoCoin .alarming 0 (.fresh fun n => n == 1)
    forgetfulSetup.build = .ok (.built .alarming 7 0, m) ∧
      (Opening.custom forgetfulSetup).log timed =
        [.built .alarming 7 0, .transition .alarming .coin .unlocked [.alarmOff, .unlock],
          .unexpected .alarming .pass,
          .transition .alarming .coin .unlocked [.alarmOff, .unlock]] ∧
      List.Forall₂ LogEntry.Tells
        [.unexpected .alarming .pass, .transition .alarming .coin .unlocked [.alarmOff, .unlock]]
        (m.offered (feed timed)) ∧
      (m.runOn (feed timed)).history.size = 0 := by
  intro timed m
  have hok : forgetfulSetup.build = .ok (.built .alarming 7 0, m) := rfl
  obtain ⟨hrun, hopening⟩ := log_history_agree (σ := Fragile)
  obtain ⟨-, -, -, htells, -⟩ := hrun m timed
  obtain ⟨hlog, -⟩ := (hopening timed).2.2 forgetfulSetup _ m hok
  exact ⟨hok, hlog, htells, rfl⟩

end Machine

end FareGate
