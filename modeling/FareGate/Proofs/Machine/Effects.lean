import FareGate.Proofs.Machine.Faithful
import FareGate.Proofs.Machine.Occasion

/-! # What is on record and what was done

  A recorder that only the machine calls has every call there was; the history
  has the newest steps only, and each of them stands for some of the calls:

  * **Hands off** (`Command.HandsOff`): nobody but the machine works on the
    handler.
  * **Calls** of a run are those of the records offered, in order, and so are
    the actions.
  * **Kept and dropped**: the records kept are the last of those offered. So
    the calls they stand for are the last ones made, and those before are the
    calls of the records dropped.

  An input may stand for one call, for several or for none, so that records and
  calls do not line up one by one; but calls are made record by record, and a
  history keeps records or drops them as a whole. -/

namespace FareGate

/-- **Hands off** the handler: only the machine works on it. -/
def Command.HandsOff {σ : Type} : Command σ → Prop
  | input _ _ => True
  | clearHistory => True
  | onHandler _ => False

namespace Table

theorem filterMap_calls_transition (t : Table) (s : State) (i : Input) :
    (t.transition s i).calls.filterMap Call.action? = (t.transition s i).actions := by
  have hactions : ∀ as : List Action, (as.map Call.action).filterMap Call.action? = as := by
    intro as
    simp [List.filterMap_map, Function.comp_def, Call.action?]
  cases i with
  | reset => exact hactions s.resetActions
  | event e =>
    cases hfound : t.lookup s e with
    | some r =>
      rw [transition_of_lookup_some hfound]
      exact hactions r.actions
    | none =>
      rw [transition_of_lookup_none hfound]
      rfl

theorem filterMap_calls_walk (t : Table) (s : State) (inputs : List Input) :
    ((t.walk s inputs).flatMap (·.calls)).filterMap Call.action? =
      (t.walk s inputs).flatMap (·.actions) := by
  induction inputs generalizing s with
  | nil => rfl
  | cons i rest ih =>
    simp only [walk, List.flatMap_cons, List.filterMap_append]
    rw [filterMap_calls_transition, ih]

end Table

namespace Machine

/-! ## The calls of a run -/

/-- A command that leaves the handler to the machine offers a record of the step
    that its input leads to, if it has one, and the recorder notes the calls of
    that step. -/
theorem offer_recorder (m : Machine Recorder) {c : Command Recorder} (hc : c.HandsOff) :
    (m.offer c).map (·.toTransition) = m.table.walk m.state c.input?.toList ∧
      (m.obey c).value.state = m.table.reach m.state c.input?.toList ∧
      (m.obey c).value.handler = m.handler.noteAll ((m.offer c).flatMap (·.calls)) := by
  cases c with
  | input now i =>
    have hcalls := Recorder.performAll_noteAll (m.transition i).calls m.handler
    rw [offer_finished hcalls, obey, handle_finished hcalls]
    simp only [List.flatMap_cons, List.flatMap_nil, List.append_nil]
    exact ⟨rfl, rfl, rfl⟩
  | clearHistory =>
    rw [offer_clearHistory, List.flatMap_nil, Recorder.noteAll_nil]
    exact ⟨rfl, rfl, rfl⟩
  | onHandler work => cases hc

/-- A run that leaves the handler to the machine offers records of the
    `Table.walk` on its inputs, and the recorder notes the calls of all of
    them. -/
theorem offered_recorder (m : Machine Recorder) {commands : List (Command Recorder)}
    (hcommands : ∀ c ∈ commands, c.HandsOff) :
    (m.offered commands).map (·.toTransition) =
        m.table.walk m.state (commands.filterMap Command.input?) ∧
      (m.runOn commands).handler =
        m.handler.noteAll ((m.offered commands).flatMap (·.calls)) := by
  induction commands generalizing m with
  | nil =>
    refine ⟨rfl, ?_⟩
    rw [runOn_nil, offered, List.flatMap_nil, Recorder.noteAll_nil]
  | cons c rest ih =>
    obtain ⟨hstep, hstate, hhandler⟩ := offer_recorder m (hcommands c List.mem_cons_self)
    obtain ⟨hwalk, hrest⟩ := ih (m.obey c).value fun d hd =>
      hcommands d (List.mem_cons_of_mem c hd)
    have hinputs : (c :: rest).filterMap Command.input? =
        c.input?.toList ++ rest.filterMap Command.input? := by
      cases hc : c.input? <;> simp [hc]
    constructor
    · -- the rest of the walk starts where this command leads
      rw [offered, List.map_append, hstep, hwalk, table_obey, hstate, hinputs, Table.walk_append]
    · rw [runOn_cons, hrest, hhandler, offered, List.flatMap_append, Recorder.noteAll_append]

/-! ## The records kept -/

variable {σ : Type} [Handler σ]

/-- After a command, the records kept are the last of those before and of those
    offered. -/
theorem Faithful.suffix_obey {m : Machine σ} (hm : m.Faithful) (c : Command σ) :
    (m.obey c).value.history.records.toList <:+ m.history.records.toList ++ m.offer c := by
  by_cases hclear : c = .clearHistory
  · rw [hclear]
    exact List.nil_suffix
  · rw [history_obey m hclear]
    cases c with
    | input now i =>
      rcases handle_cases m now i with ⟨s, hcalls, -⟩ | ⟨s, hcalls, -⟩
      · rw [offer_finished hcalls]
        show (m.history.record _).records.toList <:+ _
        rw [History.records_record, History.keep_eq_newest _ (by exact hm.bounded)]
        exact History.newest_suffix _ _
      · rw [offer_brokenOff hcalls, List.append_nil]
        exact List.suffix_refl _
    | clearHistory => exact absurd rfl hclear
    | onHandler work =>
      rw [offer_onHandler, List.append_nil]
      exact List.suffix_refl _

theorem Faithful.suffix_runOn {m : Machine σ} (hm : m.Faithful) (commands : List (Command σ)) :
    (m.runOn commands).history.records.toList <:+
      m.history.records.toList ++ m.offered commands := by
  induction commands generalizing m with
  | nil =>
    rw [offered, List.append_nil]
    exact List.suffix_refl _
  | cons c rest ih =>
    have hrest := ih (hm.obey c)
    obtain ⟨dropped, hdropped⟩ := hm.suffix_obey c
    rw [runOn_cons, offered, ← List.append_assoc, ← hdropped, List.append_assoc]
    exact hrest.trans (List.suffix_append _ _)

/-- As long as there is room for all records offered and nobody drops them, a
    history that was empty keeps them all. -/
theorem records_runOn_of_fits {m : Machine σ} (hnone : m.history.records.toList = [])
    {commands : List (Command σ)} (hcommands : .clearHistory ∉ commands)
    (hfits : History.Fits m.history.limit (m.offered commands).length) :
    (m.runOn commands).history.records.toList = m.offered commands := by
  have hempty : History.Fits m.history.limit ([] : List Record).length := fun n _ => Nat.zero_le _
  rw [history_runOn m hcommands, History.records_recordAll, hnone, History.foldl_keep _ hempty,
    List.nil_append]
  exact History.newest_of_fits hfits

/-- **What is on record was done, and what was done is on record or was
    dropped.** Take a machine as it was set up, with a fresh recorder that only
    the machine calls, through any inputs and any dropping of records. The run
    offers a record of each step of the `Table.walk` on its inputs, and the
    records kept are the last of them. The recorder has the calls of the records
    dropped and then those of the records kept; in particular the latter are the
    last calls made. No record is dropped as long as the cap leaves room for all
    inputs and nobody drops the records. The actions among the calls are those
    of all inputs. -/
theorem effects_on_record {m : Machine Recorder} (hnew : m.IsNew) (hfresh : m.handler = .empty)
    {commands : List (Command Recorder)} (hcommands : ∀ c ∈ commands, c.HandsOff) :
    let inputs := commands.filterMap Command.input?
    let m' := m.runOn commands
    let all := m.offered commands
    let kept := m'.history.records.toList
    let dropped := all.take (all.length - kept.length)
    all.map (·.toTransition) = m.table.walk m.state inputs ∧ all = dropped ++ kept ∧
      kept.flatMap (·.calls) <:+ m'.handler.calls.toList ∧
      m'.handler.calls.toList = dropped.flatMap (·.calls) ++ kept.flatMap (·.calls) ∧
      (.clearHistory ∉ commands → History.Fits m.history.limit inputs.length →
        kept = all ∧ kept.flatMap (·.calls) = m'.handler.calls.toList) ∧
      m'.handler.actions = all.flatMap (·.actions) := by
  intro inputs m' all kept dropped
  have hfaithful := Faithful.of_isNew hnew
  obtain ⟨table, initial, limit, handler, hstart⟩ := hnew.exists_start
  have hnone : m.history.records.toList = [] := by rw [hstart]; rfl
  obtain ⟨hwalk, hhandler⟩ := offered_recorder m hcommands
  -- the recorder has the calls of all records offered
  have hcalls : m'.handler.calls.toList = all.flatMap (·.calls) := by
    rw [hhandler, hfresh, Recorder.calls_noteAll]
    rfl
  have hsuffix : kept <:+ all := by
    have hrun := hfaithful.suffix_runOn commands
    rwa [hnone, List.nil_append] at hrun
  have hsplit : all = dropped ++ kept := by
    have hdrop : kept = all.drop (all.length - kept.length) := List.suffix_iff_eq_drop.mp hsuffix
    conv_lhs => rw [← List.take_append_drop (all.length - kept.length) all, ← hdrop]
  have hboth : m'.handler.calls.toList =
      dropped.flatMap (·.calls) ++ kept.flatMap (·.calls) := by
    rw [hcalls, ← List.flatMap_append, ← hsplit]
  refine ⟨hwalk, hsplit, ?_, hboth, ?_, ?_⟩
  · rw [hboth]
    exact List.suffix_append _ _
  · intro hnoclear hfits
    have hlength : all.length = inputs.length := by
      simpa using congrArg List.length hwalk
    have hkept : kept = all := by
      apply records_runOn_of_fits hnone hnoclear
      rwa [← hlength] at hfits
    exact ⟨hkept, by rw [hkept, hcalls]⟩
  · have hactions := Table.filterMap_calls_walk m.table m.state inputs
    rw [← hwalk, List.flatMap_map, List.flatMap_map] at hactions
    rw [Recorder.actions, hcalls]
    exact hactions

/-- A gate with room for two records and a fresh recorder. -/
def narrowGate : Machine Recorder := .start .twoCoin .initial 2 .empty

/-- Two coins are both on record. After a passage the records are dropped, then
    there are three pushes and a reset: the third push and the reset are on
    record, and they stand for the last three of seven calls. -/
theorem narrowGate_effects_on_record :
    let commands : List (Command Recorder) :=
      [.input ⟨0⟩ (.event .coin), .input ⟨1⟩ (.event .coin), .input ⟨2⟩ (.event .pass),
        .clearHistory, .input ⟨3⟩ (.event .pass), .input ⟨4⟩ (.event .pass),
        .input ⟨5⟩ (.event .pass), .input ⟨6⟩ .reset]
    let m' := narrowGate.runOn commands
    narrowGate.IsNew ∧ narrowGate.handler = .empty ∧ (∀ c ∈ commands, c.HandsOff) ∧
      (narrowGate.runOn (commands.take 2)).history.records.toList.flatMap (·.calls) =
        (narrowGate.runOn (commands.take 2)).handler.calls.toList ∧
      m'.history.steps =
        [⟨.alarming, .alarming, .event .pass, [], .unexpected⟩,
          ⟨.alarming, .locked, .reset, [.alarmOff, .lock], .handled⟩] ∧
      [.unexpected "Alarming" "Pass", .action .alarmOff, .action .lock] <:+
        m'.handler.calls.toList ∧
      m'.handler.calls.toList =
        [.action .unlock, .action .lock, .action .alarmOn, .unexpected "Alarming" "Pass"]
          ++ [.unexpected "Alarming" "Pass", .action .alarmOff, .action .lock] := by
  intro commands m'
  have hnew : narrowGate.IsNew :=
    .built (p := { handler := some .empty, historyLimit := 2 }) rfl
  have hcommands : ∀ c ∈ commands, c.HandsOff := by
    simp [commands, Command.HandsOff]
  obtain ⟨-, -, hsuffix, hcalls, -⟩ := effects_on_record hnew rfl hcommands
  -- there is room for the two coins, and nothing has been dropped yet
  have hcoins : ∀ c ∈ commands.take 2, c.HandsOff := fun c hc =>
    hcommands c (List.mem_of_mem_take hc)
  obtain ⟨-, -, -, -, hall, -⟩ := effects_on_record hnew rfl hcoins
  have hroom : History.Fits narrowGate.history.limit 2 := by
    intro n hn
    cases hn
    decide
  have hkept : m'.history.records.toList.flatMap (·.calls) =
      [.unexpected "Alarming" "Pass", .action .alarmOff, .action .lock] := by
    decide +kernel
  have hdropped :
      ((narrowGate.offered commands).take
        ((narrowGate.offered commands).length - m'.history.records.toList.length)).flatMap
          (·.calls) =
        [.action .unlock, .action .lock, .action .alarmOn, .unexpected "Alarming" "Pass"] := by
    decide +kernel
  rw [hdropped, hkept] at hcalls
  rw [hkept] at hsuffix
  exact ⟨hnew, rfl, hcommands, (hall (by simp [commands]) hroom).2, by decide +kernel, hsuffix,
    hcalls⟩

end Machine

end FareGate
