import FareGate.CommandLine
import FareGate.Proofs.Machine.Run
import Mathlib.Data.List.DropRight

/-! # The figures at the end of a transcript

  A transcript ends with the trace of the whole run and with a number of
  unexpected inputs. The trace is the recorder's, which has every call of the
  run; the number is the history's, which has a cap:

  * **Steps** of a call (`stepsOf`): the walk of the two-coin table on the
    inputs that the arguments name.
  * **Reports** in the trace (`reports`): one for every push while the alarm
    sounds.
  * **The number**, by `History.unexpectedCount`, counts the pushes while the
    alarm sounded among the newest steps only, as many as the history has room
    for. It is the number of reports in the trace exactly when there was no such
    push before them. -/

namespace FareGate

/-! ## Reports in a trace -/

/-- The number of reports in a trace. By `Call.symbol` each begins with an `X`,
    and there is no other one. -/
def reports (trace : String) : Nat := trace.toList.count 'X'

theorem reports_append (first second : String) :
    reports (first ++ second) = reports first + reports second := by
  simp [reports]

namespace Transition

/-- Somebody pushes while the alarm sounds. -/
def pushesAtAlarm (t : Transition) : Bool := t.before = .alarming && t.input = .event .pass

theorem reports_calls (t : Transition) :
    reports (Call.traceOf t.calls) = if t.outcome = .unexpected then 1 else 0 := by
  obtain ⟨before, after, input, actions, outcome⟩ := t
  cases outcome with
  | handled =>
    -- no action is written with the letter of a report
    show reports (Call.traceOf (actions.map Call.action)) = 0
    induction actions with
    | nil => rfl
    | cons a rest ih =>
      have hfirst : reports (Call.traceOf [.action a]) = 0 := by cases a <;> decide
      have happend := Call.traceOf_append [.action a] (rest.map Call.action)
      rw [List.singleton_append] at happend
      rw [List.map_cons, happend, reports_append, hfirst, ih]
  | unexpected =>
    show reports (Call.traceOf [.unexpected before.name input.name]) = 1
    rcases input with (_ | _) | _ <;> cases before <;> decide

theorem reports_flatMap_calls (steps : List Transition) :
    reports (Call.traceOf (steps.flatMap (·.calls))) =
      steps.countP fun step => step.outcome = .unexpected := by
  induction steps with
  | nil => rfl
  | cons step rest ih =>
    rw [List.flatMap_cons, Call.traceOf_append, reports_append, reports_calls, ih,
      List.countP_cons, Nat.add_comm]
    simp

end Transition

/-- `Table.twoCoin` foresees all but a push while the alarm sounds. -/
theorem Table.twoCoin_unexpected_iff (s : State) (i : Input) :
    (twoCoin.transition s i).outcome = .unexpected ↔ s = .alarming ∧ i = .event .pass := by
  rcases i with (_ | _) | _ <;> cases s <;> decide

namespace CommandLine

/-! ## Arguments and steps -/

/-- The inputs that the arguments name, in order. -/
def inputsOf (arguments : List String) : List Input :=
  arguments.filterMap fun argument => (Input.ofName argument).toOption

/-- The `Table.walk` of a standard gate on these inputs. -/
def stepsOf (arguments : List String) : List Transition :=
  Table.twoCoin.walk .initial (inputsOf arguments)

theorem unexpected_eq_pushesAtAlarm {arguments : List String} {step : Transition}
    (hstep : step ∈ stepsOf arguments) :
    decide (step.outcome = .unexpected) = step.pushesAtAlarm := by
  have hwalk := Table.transition_of_mem_walk hstep
  have hiff := Table.twoCoin_unexpected_iff step.before step.input
  rw [hwalk] at hiff
  rw [Transition.pushesAtAlarm, ← Bool.decide_and]
  exact decide_eq_decide.mpr hiff

/-- The gate that `walk` leaves was fed with the inputs that the arguments
    name. -/
theorem walk_machine (arguments : List String) (m : Machine Recorder) :
    (walk arguments m).2 =
      m.runOn (Machine.feed ((inputsOf arguments).map fun i => (Instant.epoch, i))) := by
  induction arguments generalizing m with
  | nil => rfl
  | cons argument rest ih =>
    cases hread : Input.ofName argument with
    | ok i =>
      have hinputs : inputsOf (argument :: rest) = i :: inputsOf rest := by
        simp [inputsOf, hread, Except.toOption]
      rw [hinputs]
      simp only [walk, hread]
      exact ih (apply m i)
    | error e =>
      -- the argument is reported, and the gate does not hear of it
      have hinputs : inputsOf (argument :: rest) = inputsOf rest := by
        simp [inputsOf, hread, Except.toOption]
      rw [hinputs]
      simp only [walk, hread]
      exact ih m

/-- The recorder of the gate has the calls of all `stepsOf` the arguments, and
    its history has the newest of them. -/
theorem walk_standard (arguments : List String) :
    let m := (walk arguments (.standard .empty)).2
    m.handler.trace = Call.traceOf ((stepsOf arguments).flatMap (·.calls)) ∧
      m.history.steps = (stepsOf arguments).rtake History.defaultLimit.toNat := by
  intro m
  obtain ⟨hadvanced, hhandler⟩ := Machine.runOn_feed_recorder
    ((inputsOf arguments).map fun i => (Instant.epoch, i)) (.standard .empty)
  have hinputs : ((inputsOf arguments).map fun i => (Instant.epoch, i)).map (·.2) =
      inputsOf arguments := by
    simp [Function.comp_def]
  rw [← walk_machine, hinputs] at hadvanced hhandler
  constructor
  · rw [hhandler, Recorder.trace_noteAll]
    rfl
  · rw [hadvanced.steps, History.foldl_keep _ (fun n _ => Nat.zero_le _)]
    rfl

/-! ## The last lines -/

/-- The `closing` lines of a transcript, with these figures. -/
def figures (trace : String) (count : Nat) : List Line :=
  [.answer "", .answer ("Trace: " ++ trace),
    .answer ("Unexpected transitions: " ++ toString count)]

theorem figures_inj {before before' : List Line} {trace trace' : String} {count count' : Nat}
    (h : before ++ figures trace count = before' ++ figures trace' count') :
    trace = trace' ∧ count = count' := by
  obtain ⟨-, hfigures⟩ := List.append_inj' h rfl
  simp only [figures, List.cons.injEq, Line.answer.injEq, true_and, and_true] at hfigures
  obtain ⟨htrace, hcount⟩ := hfigures
  refine ⟨(String.append_right_inj _).mp htrace, ?_⟩
  -- the digits of a number tell its value
  have hdigits : count.repr.toList = count'.repr.toList :=
    congrArg String.toList ((String.append_right_inj _).mp hcount)
  have hvalue := congrArg (Nat.ofDigitChars 10 · 0) hdigits
  simpa [Nat.toList_repr, Nat.ofDigitChars_toDigits] using hvalue

/-- A transcript shows the trace of all `stepsOf` the arguments, and counts the
    pushes while the alarm sounded among the newest ones. -/
theorem transcript_figures (first : String) (rest : List String) :
    ∃ before, transcript (first :: rest) = before ++
      figures (Call.traceOf ((stepsOf (first :: rest)).flatMap (·.calls)))
        (((stepsOf (first :: rest)).rtake History.defaultLimit.toNat).countP
          (·.pushesAtAlarm)) := by
  obtain ⟨htrace, hsteps⟩ := walk_standard (first :: rest)
  refine ⟨opening (.standard .empty) ++ (walk (first :: rest) (.standard .empty)).1, ?_⟩
  rw [← htrace]
  have hcount : (walk (first :: rest) (.standard .empty)).2.history.unexpectedCount =
      ((stepsOf (first :: rest)).rtake History.defaultLimit.toNat).countP
        (·.pushesAtAlarm) := by
    rw [History.unexpectedCount_eq_countP, hsteps]
    apply List.countP_congr
    intro step hstep
    rw [unexpected_eq_pushesAtAlarm (List.mem_of_mem_drop hstep)]
  rw [← hcount]
  rfl

theorem reports_steps (arguments : List String) :
    reports (Call.traceOf ((stepsOf arguments).flatMap (·.calls))) =
      (stepsOf arguments).countP (·.pushesAtAlarm) := by
  rw [Transition.reports_flatMap_calls]
  apply List.countP_congr
  intro step hstep
  rw [unexpected_eq_pushesAtAlarm hstep]

/-! ## Whether the number is that of the reports -/

/-- The number that a transcript ends with is that of the `reports` in the trace
    it shows. -/
def CountsAllReports (arguments : List String) : Prop :=
  ∃ before trace count,
    transcript arguments = before ++ figures trace count ∧ count = reports trace

theorem countsAllReports_iff_countP (first : String) (rest : List String) :
    CountsAllReports (first :: rest) ↔
      ((stepsOf (first :: rest)).rtake History.defaultLimit.toNat).countP (·.pushesAtAlarm) =
        (stepsOf (first :: rest)).countP (·.pushesAtAlarm) := by
  obtain ⟨lines, htranscript⟩ := transcript_figures first rest
  constructor
  · rintro ⟨before, trace, count, hshown, hcount⟩
    rw [htranscript] at hshown
    obtain ⟨rfl, rfl⟩ := figures_inj hshown
    rw [hcount, reports_steps]
  · intro hcount
    exact ⟨lines, _, _, htranscript, by rw [reports_steps]; exact hcount⟩

/-- **What the figures say.** At the end of every transcript the trace has one
    report for each push while the alarm sounded, and the number beneath it
    counts such pushes among the newest steps only, as many as
    `History.defaultLimit` allows. So the number is that of the reports exactly
    when none of the older steps was such a push. -/
theorem transcript_countsAllReports_iff (first : String) (rest : List String) :
    let steps := stepsOf (first :: rest)
    let cap := History.defaultLimit.toNat
    (∃ before trace,
      transcript (first :: rest) =
        before ++ figures trace ((steps.rtake cap).countP (·.pushesAtAlarm)) ∧
      reports trace = steps.countP (·.pushesAtAlarm)) ∧
    (CountsAllReports (first :: rest) ↔ ∀ step ∈ steps.rdrop cap, step.pushesAtAlarm = false) := by
  intro steps cap
  obtain ⟨lines, htranscript⟩ := transcript_figures first rest
  refine ⟨⟨lines, _, htranscript, reports_steps (first :: rest)⟩, ?_⟩
  have hsplit : steps.countP (·.pushesAtAlarm) =
      (steps.rdrop cap).countP (·.pushesAtAlarm) + (steps.rtake cap).countP (·.pushesAtAlarm) := by
    rw [← List.countP_append, List.rdrop, List.rtake, List.take_append_drop]
  calc CountsAllReports (first :: rest)
      ↔ (steps.rtake cap).countP (·.pushesAtAlarm) = steps.countP (·.pushesAtAlarm) :=
        countsAllReports_iff_countP first rest
    _ ↔ (steps.rdrop cap).countP (·.pushesAtAlarm) = 0 := by omega
    _ ↔ ∀ step ∈ steps.rdrop cap, step.pushesAtAlarm = false := by
        simp [List.countP_eq_zero]

/-- Two pushes, and coins for the rest of the day. -/
def longDay : List String := ["Pass", "Pass"] ++ List.replicate 64 "Coin"

/-- The second push is in the trace, but is not counted any more. -/
theorem longDay_not_countsAllReports :
    (∃ before trace,
      transcript longDay = before ++ figures trace 0 ∧ reports trace = 1) ∧
    ¬CountsAllReports longDay := by
  have hnewest : ((stepsOf longDay).rtake History.defaultLimit.toNat).countP (·.pushesAtAlarm) =
      0 := by decide +kernel
  have hall : (stepsOf longDay).countP (·.pushesAtAlarm) = 1 := by decide +kernel
  obtain ⟨lines, htranscript⟩ := transcript_figures "Pass" ("Pass" :: List.replicate 64 "Coin")
  constructor
  · refine ⟨lines, _, ?_, (reports_steps longDay).trans hall⟩
    rw [← hnewest]
    exact htranscript
  · intro hcounts
    have hsame := (countsAllReports_iff_countP "Pass" ("Pass" :: List.replicate 64 "Coin")).mp
      hcounts
    have hzero : (0 : Nat) = 1 := hnewest.symm.trans (hsame.trans hall)
    cases hzero

end CommandLine

end FareGate
