import FareGate.Proofs.Handler.Trace
import FareGate.Proofs.Machine.Effects

/-! # The trace of a run tells its calls

  A trace has no marks between its entries, and the names in a report have the
  letters of actions in them. Among the calls that gates make, no two lists
  have the same trace all the same:

  * **Genuine** calls (`Call.Genuine`): a report names a state and an event.
    Gates make no others, and these are plain, so that their trace can be read.
  * **Note-taking** (`TakesNotes`): a handler with a recorder that has a note of
    some calls and of nothing else. It may break off before the note is taken or
    after it.
  * **From gates** (`Recorder.FromGates`): recorders whose calls were made by
    gates only, by as many as one likes and one after the other. -/

namespace FareGate

/-! ## Genuine calls -/

/-- **Genuine** calls, as gates make them. -/
def Call.Genuine : Call → Prop
  | action _ => True
  | unexpected state event => ∃ (s : State) (e : Event), state = s.name ∧ event = e.name

theorem Call.Genuine.plain {c : Call} (hc : c.Genuine) : c.Plain := by
  cases c with
  | action a => trivial
  | unexpected state event =>
    obtain ⟨s, e, rfl, rfl⟩ := hc
    constructor
    · cases s <;> decide
    · cases e <;> decide

theorem Table.genuine_calls_transition (t : Table) (s : State) (i : Input) {c : Call}
    (hc : c ∈ (t.transition s i).calls) : c.Genuine := by
  have hactions : ∀ as : List Action, c ∈ as.map Call.action → c.Genuine := by
    intro as hmem
    obtain ⟨a, -, rfl⟩ := List.mem_map.mp hmem
    trivial
  cases i with
  | reset => exact hactions s.resetActions hc
  | event e =>
    cases hfound : t.lookup s e with
    | some r =>
      rw [transition_of_lookup_some hfound] at hc
      exact hactions r.actions hc
    | none =>
      rw [transition_of_lookup_none hfound] at hc
      rw [List.mem_singleton.mp hc]
      exact ⟨s, e, rfl, rfl⟩

/-! ## Note-taking handlers -/

/-- **Note-taking**: seen through `view`, a handler has a note of a call that it
    was given, or of nothing new. -/
def TakesNotes {σ : Type} [Handler σ] (view : σ → Recorder) : Prop :=
  ∀ (c : Call) (s : σ),
    view (c.perform s).value = (view s).note c ∨ view (c.perform s).value = view s

theorem takesNotes_recorder : TakesNotes fun r : Recorder => r := by
  intro c r
  rw [Recorder.perform_eq]
  exact .inl rfl

theorem takesNotes_fragile : TakesNotes Fragile.recorder := by
  intro c f
  obtain ⟨recorder, count, failsAt⟩ := f
  rw [Fragile.perform_eq]
  simp only [Fragile.receive]
  split
  · exact .inr rfl
  · exact .inl rfl

section notes
variable {σ : Type} [Handler σ] {view : σ → Recorder}

/-- Of calls in order, some are noted, in this order. -/
theorem TakesNotes.performAll (hview : TakesNotes view) (cs : List Call) (s : σ) :
    ∃ noted : List Call, noted.Sublist cs ∧
      view (performAll cs s).value = (view s).noteAll noted := by
  induction cs generalizing s with
  | nil => exact ⟨[], .slnil, (Recorder.noteAll_nil _).symm⟩
  | cons c rest ih =>
    have hfirst := hview c s
    rw [performAll_cons]
    cases hc : c.perform s with
    | brokenOff s' =>
      -- the calls that would follow are not made
      rw [hc] at hfirst
      rcases hfirst with hnoted | hnothing
      · exact ⟨[c], List.singleton_sublist.mpr List.mem_cons_self, by
          rw [← Recorder.noteAll_note, Recorder.noteAll_nil]
          exact hnoted⟩
      · exact ⟨[], List.nil_sublist _, by
          rw [Recorder.noteAll_nil]
          exact hnothing⟩
    | finished s' =>
      rw [hc] at hfirst
      obtain ⟨noted, hsub, hrest⟩ := ih s'
      rw [Attempt.andThen_finished, hrest]
      rcases hfirst with hnoted | hnothing
      · refine ⟨c :: noted, hsub.cons_cons c, ?_⟩
        rw [← Recorder.noteAll_note]
        exact congrArg _ hnoted
      · exact ⟨noted, hsub.cons c, congrArg _ hnothing⟩

/-- A command that leaves the handler to the machine adds genuine calls to the
    notes. -/
theorem TakesNotes.obey (hview : TakesNotes view) (m : Machine σ) {c : Command σ}
    (hc : c.HandsOff) :
    ∃ noted : List Call, (∀ d ∈ noted, d.Genuine) ∧
      view (m.obey c).value.handler = (view m.handler).noteAll noted := by
  cases c with
  | input now i =>
    obtain ⟨noted, hsub, hnotes⟩ := hview.performAll (m.transition i).calls m.handler
    refine ⟨noted, ?_, ?_⟩
    · intro d hd
      exact Table.genuine_calls_transition m.table m.state i (hsub.subset hd)
    · -- whether or not the input is completed, the handler is as its calls left it
      rw [← hnotes, Machine.obey]
      rcases Machine.handle_cases m now i with ⟨s, hcalls, hhandle⟩ | ⟨s, hcalls, hhandle⟩
      · rw [hhandle, hcalls]
        rfl
      · rw [hhandle, hcalls]
        rfl
  | clearHistory => exact ⟨[], by simp, (Recorder.noteAll_nil _).symm⟩
  | onHandler work => cases hc

theorem TakesNotes.runOn (hview : TakesNotes view) (m : Machine σ) {commands : List (Command σ)}
    (hcommands : ∀ c ∈ commands, c.HandsOff) :
    ∃ noted : List Call, (∀ d ∈ noted, d.Genuine) ∧
      view (m.runOn commands).handler = (view m.handler).noteAll noted := by
  induction commands generalizing m with
  | nil => exact ⟨[], by simp, (Recorder.noteAll_nil _).symm⟩
  | cons c rest ih =>
    obtain ⟨first, hfirst, hobey⟩ := hview.obey m (hcommands c List.mem_cons_self)
    obtain ⟨later, hlater, hrest⟩ := ih (m.obey c).value fun d hd =>
      hcommands d (List.mem_cons_of_mem c hd)
    refine ⟨first ++ later, ?_, ?_⟩
    · intro d hd
      rcases List.mem_append.mp hd with hd | hd
      · exact hfirst d hd
      · exact hlater d hd
    · rw [Machine.runOn_cons, hrest, hobey, Recorder.noteAll_append]

end notes

/-! ## Recorders of gates -/

/-- **From gates**: a fresh recorder, or one that a gate with a note-taking
    handler has used after others had, while only the gate worked on the
    handler. -/
inductive Recorder.FromGates : Recorder → Prop where
  | empty : FromGates .empty
  | run {σ : Type} [Handler σ] {view : σ → Recorder} (hview : TakesNotes view) {m : Machine σ}
      (before : FromGates (view m.handler)) {commands : List (Command σ)}
      (hcommands : ∀ c ∈ commands, c.HandsOff) : FromGates (view (m.runOn commands).handler)

theorem Recorder.FromGates.genuine {r : Recorder} (hr : r.FromGates) {c : Call}
    (hc : c ∈ r.calls.toList) : c.Genuine := by
  induction hr with
  | empty => cases hc
  | run hview before hcommands ih =>
    obtain ⟨noted, hnoted, hrun⟩ := hview.runOn _ hcommands
    rw [hrun, Recorder.calls_noteAll] at hc
    rcases List.mem_append.mp hc with hbefore | hnew
    · exact ih hbefore
    · exact hnoted c hnew

namespace Recorder

theorem trace_flatten (parts : List (List Call)) :
    (empty.noteAll parts.flatten).trace =
      String.join (parts.map fun cs => (empty.noteAll cs).trace) := by
  have htrace : ∀ cs : List Call, (empty.noteAll cs).trace = Call.traceOf cs := by
    intro cs
    simp [trace, empty, Call.traceOf]
  simp only [htrace]
  induction parts with
  | nil => rfl
  | cons cs rest ih => simp [ih]

/-- **The trace tells the calls.** Take a recorder that only gates have used
    (`Recorder.FromGates`), on any tables, from any states and with any inputs,
    broken off or not.

    * Its calls can be read from its trace by `ofTrace?`, and so no other list
      of calls from gates has the same trace.
    * However calls are cut into parts, their trace is made up of the traces of
      the parts, in order. So a run that goes on adds the trace of the calls
      that it adds. -/
theorem trace_tells_calls :
    (∀ r : Recorder, r.FromGates → Call.ofTrace? r.trace = some r.calls.toList) ∧
    (∀ r q : Recorder, r.FromGates → q.FromGates → r.trace = q.trace →
      r.calls.toList = q.calls.toList) ∧
    (∀ parts : List (List Call), (empty.noteAll parts.flatten).trace =
      String.join (parts.map fun cs => (empty.noteAll cs).trace)) ∧
    ∀ (σ : Type) [Handler σ] (view : σ → Recorder), TakesNotes view →
      ∀ (m : Machine σ) (commands more : List (Command σ)), (∀ c ∈ more, c.HandsOff) →
        let before := view (m.runOn commands).handler
        let after := view (m.runOn (commands ++ more)).handler
        ∃ later : List Call, after.calls.toList = before.calls.toList ++ later ∧
          after.trace = before.trace ++ (empty.noteAll later).trace := by
  have hread : ∀ r : Recorder, r.FromGates → Call.ofTrace? r.trace = some r.calls.toList :=
    fun r hr => Call.ofTrace?_traceOf fun c hc => (hr.genuine hc).plain
  refine ⟨hread, ?_, trace_flatten, ?_⟩
  · intro r q hr hq htrace
    have hcalls := hread r hr
    rw [htrace, hread q hq] at hcalls
    exact (Option.some.inj hcalls).symm
  · intro σ _ view hview m commands more hmore before after
    obtain ⟨later, -, hrun⟩ := hview.runOn (m.runOn commands) hmore
    rw [← Machine.runOn_append] at hrun
    refine ⟨later, ?_, ?_⟩
    · show (view _).calls.toList = _
      rw [hrun, calls_noteAll]
    · show (view _).trace = _
      rw [hrun, trace_noteAll, trace_noteAll]
      simp [trace, empty, before]

/-- A recorder after two passages of a locked standard gate. -/
def passages : Recorder :=
  ((Machine.standard empty).runOn
    [.input ⟨0⟩ (.event .pass), .input ⟨1⟩ (.event .pass)]).handler

/-- Another standard gate with this recorder, whose second call breaks off. -/
def secondGate : Machine Fragile := .standard { recorder := passages, failsAt := fun k => k == 2 }

/-- Both gates' calls are read from the one trace. At the second gate the second
    call of four coins is missing, and the reader takes none of the letters in
    `X(Alarming,Pass)` for a call. -/
theorem secondGate_trace :
    let coins : List (Command Fragile) :=
      [.input ⟨2⟩ (.event .coin), .input ⟨3⟩ (.event .coin), .input ⟨4⟩ (.event .coin)]
    let more : List (Command Fragile) := [.input ⟨5⟩ (.event .coin)]
    let before := (secondGate.runOn coins).handler.recorder
    let after := (secondGate.runOn (coins ++ more)).handler.recorder
    TakesNotes Fragile.recorder ∧ (∀ c ∈ coins ++ more, c.HandsOff) ∧
    passages.FromGates ∧ after.FromGates ∧ after.trace = "AX(Alarming,Pass)UT" ∧
      Call.ofTrace? "AX(Alarming,Pass)UT" =
        some [.action .alarmOn, .unexpected "Alarming" "Pass", .action .unlock,
          .action .thankyou] ∧
      (∃ later : List Call, after.calls.toList = before.calls.toList ++ later ∧
        after.trace = before.trace ++ (empty.noteAll later).trace) ∧
      ∀ q : Recorder, q.FromGates → q.trace = "AX(Alarming,Pass)UT" →
        q.calls.toList = after.calls.toList := by
  intro coins more before after
  have hhands : ∀ c ∈ coins ++ more, c.HandsOff := by
    simp [coins, more, Command.HandsOff]
  have hpassages : passages.FromGates :=
    .run takesNotes_recorder (m := .standard empty) .empty (by simp [Command.HandsOff])
  have hafter : after.FromGates := .run takesNotes_fragile (m := secondGate) hpassages hhands
  have htrace : after.trace = "AX(Alarming,Pass)UT" := by decide +kernel
  obtain ⟨hread, hsame, -, hcontinued⟩ := trace_tells_calls
  refine ⟨takesNotes_fragile, hhands, hpassages, hafter, htrace, ?_, ?_, ?_⟩
  · rw [← htrace, hread after hafter]
    rfl
  · exact hcontinued Fragile Fragile.recorder takesNotes_fragile secondGate coins more
      fun c hc => hhands c (List.mem_append_right _ hc)
  · intro q hq hqtrace
    exact hsame q after hq hafter (hqtrace.trans htrace.symm)

end Recorder

end FareGate
