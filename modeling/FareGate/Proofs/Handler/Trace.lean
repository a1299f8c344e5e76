import FareGate.Proofs.Handler.Steady

/-! # Reading a trace

  A trace is one text for many calls, without anything between them. It can be
  read back all the same by `ofTrace?`, from left to right:

  * **Entries** (`Call.symbol`): a letter stands for an action, and an `X`
    begins a report, which goes on up to its closing parenthesis.
  * **Plain** calls (`Plain`): the state that a report names has no comma, and
    the event no closing parenthesis, so that each name ends where it seems to.

  The letters in a name are no entries: inside a report the reader only looks
  for what ends the name. -/

namespace FareGate

namespace Call

/-! ## Entries -/

/-- Where a reader stands in a trace. -/
inductive Place where
  /-- Between two entries. -/
  | between
  /-- After the `X` of a report. -/
  | report
  /-- In the name of a state, of which this has been read. -/
  | state (read : List Char)
  /-- In the name of an event, of which this has been read after the state. -/
  | event (state read : List Char)

/-- The action whose `Action.letter` this is. -/
def ofLetter? (c : Char) : Option Action := Named.all.find? fun a => a.letter = c

/-- The calls that the rest of a trace stands for, read from this place on. -/
def ofTraceFrom? : Place → List Char → Option (List Call)
  | .between, [] => some []
  | .between, c :: rest =>
    if c = 'X' then ofTraceFrom? .report rest
    else (ofLetter? c).bind fun a => (ofTraceFrom? .between rest).map (action a :: ·)
  | .report, c :: rest => if c = '(' then ofTraceFrom? (.state []) rest else none
  | .state read, c :: rest =>
    if c = ',' then ofTraceFrom? (.event read []) rest
    else ofTraceFrom? (.state (read ++ [c])) rest
  | .event state read, c :: rest =>
    if c = ')' then
      (ofTraceFrom? .between rest).map
        (unexpected (String.ofList state) (String.ofList read) :: ·)
    else ofTraceFrom? (.event state (read ++ [c])) rest
  | _, [] => none

/-- The calls that a trace stands for. It is the other way round from
    `Recorder.trace`. -/
def ofTrace? (trace : String) : Option (List Call) := ofTraceFrom? .between trace.toList

/-! ## Plain calls -/

/-- **Plain** calls, whose names end where they seem to in a trace. -/
def Plain : Call → Prop
  | action _ => True
  | unexpected state event => ',' ∉ state.toList ∧ ')' ∉ event.toList

theorem ofTraceFrom?_state {cs : List Char} (hcs : ',' ∉ cs) (read rest : List Char) :
    ofTraceFrom? (.state read) (cs ++ ',' :: rest) =
      ofTraceFrom? (.event (read ++ cs) []) rest := by
  induction cs generalizing read with
  | nil => simp [ofTraceFrom?]
  | cons c more ih =>
    rw [List.mem_cons, not_or] at hcs
    rw [List.cons_append, ofTraceFrom?, if_neg (Ne.symm hcs.1), ih hcs.2, List.append_assoc]
    rfl

theorem ofTraceFrom?_event {cs : List Char} (hcs : ')' ∉ cs) (state read rest : List Char) :
    ofTraceFrom? (.event state read) (cs ++ ')' :: rest) =
      (ofTraceFrom? .between rest).map
        (unexpected (String.ofList state) (String.ofList (read ++ cs)) :: ·) := by
  induction cs generalizing read with
  | nil => simp [ofTraceFrom?]
  | cons c more ih =>
    rw [List.mem_cons, not_or] at hcs
    rw [List.cons_append, ofTraceFrom?, if_neg (Ne.symm hcs.1), ih hcs.2, List.append_assoc]
    rfl

theorem ofLetter?_letter (a : Action) : ofLetter? a.letter = some a ∧ a.letter ≠ 'X' := by
  cases a <;> decide

/-- The `Call.symbol` of a plain call is read as the call, whatever follows
    it. -/
theorem ofTraceFrom?_symbol {c : Call} (hc : c.Plain) (rest : List Char) :
    ofTraceFrom? .between (c.symbol.toList ++ rest) =
      (ofTraceFrom? .between rest).map (c :: ·) := by
  cases c with
  | action a =>
    obtain ⟨hletter, hreport⟩ := ofLetter?_letter a
    have hsymbol : (action a).symbol.toList ++ rest = a.letter :: rest := by
      simp [symbol]
    rw [hsymbol, ofTraceFrom?, if_neg hreport, hletter, Option.bind_some]
  | unexpected state event =>
    have hsymbol : (unexpected state event).symbol.toList ++ rest =
        'X' :: '(' :: (state.toList ++ ',' :: (event.toList ++ ')' :: rest)) := by
      simp [symbol]
    rw [hsymbol, ofTraceFrom?, if_pos rfl, ofTraceFrom?, if_pos rfl, ofTraceFrom?_state hc.1,
      ofTraceFrom?_event hc.2]
    simp

/-- From the trace of plain calls, `ofTrace?` reads these calls. -/
theorem ofTrace?_traceOf {cs : List Call} (hcs : ∀ c ∈ cs, c.Plain) :
    ofTrace? (traceOf cs) = some cs := by
  unfold ofTrace?
  induction cs with
  | nil => rfl
  | cons c rest ih =>
    have hsplit : (traceOf (c :: rest)).toList = c.symbol.toList ++ (traceOf rest).toList := by
      have happend := traceOf_append [c] rest
      rw [List.singleton_append] at happend
      rw [happend, String.toList_append]
      simp [traceOf]
    rw [hsplit, ofTraceFrom?_symbol (hcs c List.mem_cons_self),
      ih fun d hd => hcs d (List.mem_cons_of_mem c hd), Option.map_some]

end Call

end FareGate
