import FareGate.Proofs.CommandLine.Figures
import Mathlib.Data.String.Defs

/-! # Only the known arguments count

  Arguments may be any texts. Those that name an input are **known**
  (`isKnown`), and they alone decide what is printed as the program's answer:

  * **Known** arguments drive the gate, one after the other, and each of them
    has one line of the answer.
  * **Unknown** arguments are reported on the side, in their order, and leave
    gate and answer as they are. So they may be left out anywhere, as long as
    some argument remains.

  The loop `walk` over the arguments does all of this at once. Its lines are
  therefore told apart first, by channel, for any gate that it may start
  with. -/

namespace FareGate

/-! ## Names of inputs -/

namespace Input

/-- An input is read from its `Input.name` and from nothing else. -/
theorem ofName_eq_ok_iff (text : String) (i : Input) : ofName text = .ok i ↔ i.name = text := by
  have hevent : ∀ e : Event, e.name ≠ "Reset" := by
    intro e
    cases e <;> decide
  unfold ofName
  split
  · rename_i hreset
    subst hreset
    cases i with
    | event e => simp [name, hevent e]
    | reset => simp [name]
  · rename_i hreset
    cases i with
    | event e =>
      calc (FareGate.ofName text).map event = .ok (event e)
          ↔ FareGate.ofName text = .ok e := by
            cases (FareGate.ofName text : Except NameError Event) <;> simp [Except.map]
        _ ↔ e.name = text := FareGate.ofName_eq_ok_iff text e
    | reset =>
      cases (FareGate.ofName text : Except NameError Event) <;>
        simp [Except.map, name, Ne.symm hreset]

theorem name_injective : Function.Injective name := by
  intro i j h
  have hi := (ofName_eq_ok_iff j.name i).mpr h
  have hj := (ofName_eq_ok_iff j.name j).mpr rfl
  rw [hi] at hj
  exact Except.ok.inj hj

theorem ofName_of_no_name {text : String} (hnone : ∀ i : Input, i.name ≠ text) :
    ofName text = .error (.unknownEvent text) := by
  have hreset : text ≠ "Reset" := Ne.symm (hnone .reset)
  have hevent : (FareGate.ofName text : Except NameError Event) = .error (.unknownEvent text) :=
    (ofName_eq_error_iff text _).mpr ⟨fun e => hnone (.event e), rfl⟩
  rw [ofName, if_neg hreset, hevent]
  rfl

end Input

namespace CommandLine

/-! ## Known and unknown arguments -/

/-- A **known** argument, which names an input. -/
def isKnown (argument : String) : Bool :=
  argument = "Coin" || argument = "Pass" || argument = "Reset"

theorem isKnown_iff (argument : String) : isKnown argument ↔ ∃ i : Input, i.name = argument := by
  constructor
  · intro h
    simp only [isKnown, Bool.or_eq_true, decide_eq_true_eq] at h
    rcases h with (rfl | rfl) | rfl
    · exact ⟨.event .coin, rfl⟩
    · exact ⟨.event .pass, rfl⟩
    · exact ⟨.reset, rfl⟩
  · rintro ⟨(_ | _) | _, rfl⟩ <;> decide

/-- An argument names an input, or it is unknown and reported. -/
theorem argument_cases (argument : String) :
    (∃ i : Input, i.name = argument ∧ isKnown argument = true ∧
      Input.ofName argument = .ok i) ∨
    (isKnown argument = false ∧ Input.ofName argument = .error (.unknownEvent argument)) := by
  cases hknown : isKnown argument with
  | true =>
    obtain ⟨i, hi⟩ := (isKnown_iff argument).mp hknown
    exact .inl ⟨i, hi, rfl, (Input.ofName_eq_ok_iff argument i).mpr hi⟩
  | false =>
    refine .inr ⟨rfl, Input.ofName_of_no_name fun i hi => ?_⟩
    rw [(isKnown_iff argument).mpr ⟨i, hi⟩] at hknown
    cases hknown

@[simp] theorem inputsOf_cons_ok {argument : String} {i : Input} (rest : List String)
    (hread : Input.ofName argument = .ok i) :
    inputsOf (argument :: rest) = i :: inputsOf rest := by
  simp [inputsOf, hread, Except.toOption]

@[simp] theorem inputsOf_cons_error {argument : String} {e : NameError} (rest : List String)
    (hread : Input.ofName argument = .error e) : inputsOf (argument :: rest) = inputsOf rest := by
  simp [inputsOf, hread, Except.toOption]

theorem name_inputsOf (arguments : List String) :
    (inputsOf arguments).map Input.name = arguments.filter isKnown := by
  induction arguments with
  | nil => rfl
  | cons argument rest ih =>
    rcases argument_cases argument with ⟨i, hname, hknown, hread⟩ | ⟨hknown, hread⟩
    · rw [inputsOf_cons_ok rest hread, List.map_cons, ih, hname, List.filter_cons_of_pos hknown]
    · rw [inputsOf_cons_error rest hread, ih, List.filter_cons_of_neg (by simp [hknown])]

/-! ## The lines of the two channels -/

/-- Each known argument has one line of the answer, with the state that
    `stepsOf` the arguments up to it leads to. -/
theorem answers_walk (arguments : List String) (m : Machine Recorder) :
    (walk arguments m).1.filterMap Line.answer? =
      (arguments.filter isKnown).mapIdx fun k a =>
        "  " ++ a.rightpad 5 ' ' ++ " -> " ++
          (m.table.reach m.state ((inputsOf arguments).take (k + 1))).name := by
  induction arguments generalizing m with
  | nil => rfl
  | cons argument rest ih =>
    rcases argument_cases argument with ⟨i, -, hknown, hread⟩ | ⟨hknown, hread⟩
    · -- the gate takes the input, and the rest starts where it leads
      have happly : apply m i =
          m.complete (m.transition i) .epoch (m.handler.noteAll (m.transition i).calls) := by
        rw [apply, Machine.handle_finished (Recorder.performAll_noteAll _ _)]
        rfl
      have hrest := ih (apply m i)
      simp only [walk, hread, List.filterMap_cons, inputLine, Line.answer?]
      rw [hrest, happly, inputsOf_cons_ok rest hread, List.filter_cons_of_pos hknown,
        List.mapIdx_cons]
      rfl
    · -- the line goes to the other channel, and the gate stays where it is
      simp only [walk, hread, List.filterMap_cons, Line.answer?]
      rw [ih, inputsOf_cons_error rest hread, List.filter_cons_of_neg (by simp [hknown])]

/-- Each unknown argument has one line on the side, whatever the gate is. -/
theorem complaints_walk (arguments : List String) (m : Machine Recorder) :
    (walk arguments m).1.filterMap Line.complaint? =
      (arguments.filter fun a => !isKnown a).map fun a =>
        "Unknown turnstile event '" ++ a ++ "'" := by
  induction arguments generalizing m with
  | nil => rfl
  | cons argument rest ih =>
    rcases argument_cases argument with ⟨i, -, hknown, hread⟩ | ⟨hknown, hread⟩
    · simp only [walk, hread, List.filterMap_cons, inputLine, Line.complaint?]
      rw [ih, List.filter_cons_of_neg (by simp [hknown])]
    · simp only [walk, hread, List.filterMap_cons, Line.complaint?]
      rw [ih, List.filter_cons_of_pos (by simp [hknown]), List.map_cons]
      rfl

/-! ## What is printed -/

theorem unlines_append (first second : List String) :
    unlines (first ++ second) = unlines first ++ unlines second := by
  simp [unlines]

theorem unlines_opening :
    unlines ((opening (.standard .empty)).filterMap Line.answer?) =
      "=== Two-Coin Turnstile ===\n\nInitial state: Locked\n" := by
  decide

theorem unlines_closing (m : Machine Recorder) :
    unlines ((closing m).filterMap Line.answer?) =
      "\nTrace: " ++ m.handler.trace ++ "\nUnexpected transitions: " ++
        toString m.history.unexpectedCount ++ "\n" := by
  -- the empty line comes to stand before the next one
  have htrace : "\nTrace: " = "\n" ++ "Trace: " := by decide
  have hcount : "\nUnexpected transitions: " = "\n" ++ "Unexpected transitions: " := by decide
  simp only [unlines, closing, List.filterMap_cons, List.filterMap_nil, Line.answer?,
    List.map_cons, List.map_nil, String.join_cons, String.join_nil, String.append_empty,
    String.empty_append, htrace, hcount, String.append_assoc]

/-- The standard gate after inputs, each at its instant. -/
def gateAfter (timed : List (Instant × Input)) : Machine Recorder :=
  (Machine.standard .empty).runOn (Machine.feed timed)

/-- The gate is known from its inputs, but for the times of its records. -/
theorem gateAfter_inputs (timed : List (Instant × Input)) :
    let inputs := timed.map (·.2)
    (gateAfter timed).state = Table.twoCoin.reach .initial inputs ∧
      (gateAfter timed).handler.trace =
        Call.traceOf ((Table.twoCoin.walk .initial inputs).flatMap (·.calls)) ∧
      (gateAfter timed).history.unexpectedCount =
        ((Table.twoCoin.walk .initial inputs).rtake History.defaultLimit.toNat).countP
          fun step => step.outcome = .unexpected := by
  obtain ⟨hadvanced, hhandler⟩ := Machine.runOn_feed_recorder timed (.standard .empty)
  refine ⟨hadvanced.state, ?_, ?_⟩
  · rw [gateAfter, hhandler, Recorder.trace_noteAll]
    rfl
  · rw [gateAfter, History.unexpectedCount_eq_countP, hadvanced.steps,
      History.foldl_keep _ fun n _ => Nat.zero_le _]
    rfl

/-- The answer to a call with arguments, by `gateAfter` the known ones. The
    instants at which these come in make no difference. -/
theorem output_eq {arguments : List String} (hsome : arguments ≠ [])
    {timed : List (Instant × Input)}
    (hnames : timed.map (fun p => p.2.name) = arguments.filter isKnown) :
    output arguments =
      "=== Two-Coin Turnstile ===\n\nInitial state: Locked\n"
        ++ String.join ((arguments.filter isKnown).mapIdx fun k a =>
          "  " ++ a.rightpad 5 ' ' ++ " -> " ++ (gateAfter (timed.take (k + 1))).state.name
            ++ "\n")
        ++ "\nTrace: " ++ (gateAfter timed).handler.trace
        ++ "\nUnexpected transitions: " ++ toString (gateAfter timed).history.unexpectedCount
        ++ "\n" := by
  have hinputs : timed.map (·.2) = inputsOf arguments := by
    apply List.map_injective_iff.mpr Input.name_injective
    rw [List.map_map, name_inputsOf]
    exact hnames
  obtain ⟨first, rest, rfl⟩ := List.exists_cons_of_ne_nil hsome
  -- the figures at the end are those of the steps
  obtain ⟨-, htrace, hcount⟩ := gateAfter_inputs timed
  obtain ⟨hwalkTrace, hwalkSteps⟩ := walk_standard (first :: rest)
  rw [hinputs] at htrace hcount
  have hwalkCount : (walk (first :: rest) (.standard .empty)).2.history.unexpectedCount =
      (gateAfter timed).history.unexpectedCount := by
    rw [hcount, History.unexpectedCount_eq_countP, hwalkSteps]
    rfl
  have hlines : unlines ((walk (first :: rest) (.standard .empty)).1.filterMap Line.answer?) =
      String.join (((first :: rest).filter isKnown).mapIdx fun k a =>
        "  " ++ a.rightpad 5 ' ' ++ " -> " ++ (gateAfter (timed.take (k + 1))).state.name
          ++ "\n") := by
    rw [answers_walk, unlines]
    congr 1
    apply List.ext_getElem (by simp)
    intro k _ _
    obtain ⟨hstate, -⟩ := gateAfter_inputs (timed.take (k + 1))
    simp only [List.getElem_map, List.getElem_mapIdx, hstate, List.map_take, hinputs]
    rfl
  have hparts : output (first :: rest) =
      unlines ((opening (.standard .empty)).filterMap Line.answer?) ++
        unlines ((walk (first :: rest) (.standard .empty)).1.filterMap Line.answer?) ++
        unlines ((closing (walk (first :: rest) (.standard .empty)).2).filterMap Line.answer?) := by
    simp only [output, transcript, List.filterMap_append, unlines_append]
  rw [hparts, unlines_opening, hlines, unlines_closing, hwalkTrace, hwalkCount, htrace]
  simp only [String.append_assoc]
  rfl

theorem errors_eq {arguments : List String} (hsome : arguments ≠ []) :
    errors arguments = String.join ((arguments.filter fun a => !isKnown a).map fun a =>
      "Unknown turnstile event '" ++ a ++ "'\n") := by
  obtain ⟨first, rest, rfl⟩ := List.exists_cons_of_ne_nil hsome
  have hsides : (opening (.standard .empty)).filterMap Line.complaint? = [] ∧
      ∀ m : Machine Recorder, (closing m).filterMap Line.complaint? = [] :=
    ⟨rfl, fun _ => rfl⟩
  have hquote : "'\n" = "'" ++ "\n" := by decide
  simp only [errors, transcript, List.filterMap_append, hsides, complaints_walk, List.nil_append,
    List.append_nil, unlines, List.map_map, Function.comp_def, hquote, String.append_assoc]

/-- **What is printed comes from the known arguments.** Take any arguments, at
    least one, and inputs whose names are the known ones among them, each at any
    instant; there always are such inputs. The exit code is zero. Each unknown
    argument is reported on the side, in order.

    The answer has the heading and the initial state. Then each known argument
    has a line, in order, with the argument filled up to five characters and the
    state of the gate after the inputs up to this one (`gateAfter`). At the end
    come its trace after all inputs and the `History.unexpectedCount` of its
    history. The answer to any other arguments, at least one, with the same
    known ones is the same. -/
theorem transcript_of_known {arguments : List String} (hsome : arguments ≠ []) :
    exitCode arguments = 0 ∧
    errors arguments = String.join ((arguments.filter fun a => !isKnown a).map fun a =>
      "Unknown turnstile event '" ++ a ++ "'\n") ∧
    let known := arguments.filter isKnown
    (∃ timed : List (Instant × Input), timed.map (fun p => p.2.name) = known) ∧
    (∀ timed : List (Instant × Input), timed.map (fun p => p.2.name) = known →
      output arguments =
        "=== Two-Coin Turnstile ===\n\nInitial state: Locked\n"
          ++ String.join (known.mapIdx fun k a =>
            "  " ++ a.rightpad 5 ' ' ++ " -> " ++ (gateAfter (timed.take (k + 1))).state.name
              ++ "\n")
          ++ "\nTrace: " ++ (gateAfter timed).handler.trace
          ++ "\nUnexpected transitions: " ++ toString (gateAfter timed).history.unexpectedCount
          ++ "\n") ∧
    ∀ others : List String, others ≠ [] → others.filter isKnown = known →
      output others = output arguments := by
  have hexists : ((inputsOf arguments).map fun i => (Instant.epoch, i)).map (fun p => p.2.name) =
      arguments.filter isKnown := by
    rw [List.map_map]
    exact name_inputsOf arguments
  refine ⟨rfl, errors_eq hsome, ⟨_, hexists⟩, fun timed hnames => output_eq hsome hnames, ?_⟩
  intro others hothers hknown
  -- both are the answer for the same inputs
  rw [output_eq hsome hexists, output_eq hothers (hexists.trans hknown.symm), hknown]

/-- Three known arguments and three others. The second push finds the alarm
    sounding. -/
def mistyped : List String := ["pass", "Pass", "Coin ", "Pass", "Reset", ""]

theorem mistyped_transcript :
    mistyped ≠ [] ∧ exitCode mistyped = 0 ∧
      errors mistyped = "Unknown turnstile event 'pass'\nUnknown turnstile event 'Coin '\n" ++
        "Unknown turnstile event ''\n" ∧
      output mistyped = "=== Two-Coin Turnstile ===\n\nInitial state: Locked\n" ++
        "  Pass  -> Alarming\n  Pass  -> Alarming\n  Reset -> Locked\n" ++
        "\nTrace: AX(Alarming,Pass)OL\nUnexpected transitions: 1\n" ∧
      output ["Pass", "Pass", "Reset"] = output mistyped := by
  have hsome : mistyped ≠ [] := by decide
  obtain ⟨hcode, herrors, -, houtput, hothers⟩ := transcript_of_known hsome
  refine ⟨hsome, hcode, ?_, ?_, hothers _ (by decide) (by decide)⟩
  · rw [herrors]
    decide
  · rw [houtput [(⟨0⟩, .event .pass), (⟨1⟩, .event .pass), (⟨2⟩, .reset)] (by decide)]
    decide +kernel

end CommandLine

end FareGate
