import FareGate.Proofs.Machine.Run

/-! # The payment grammar of the standard gate

  What passengers do at the standard gate, told in closed form:

  * **Cycle**: from locked to locked, either two coins, more coins and a
    passage, or at most one coin, pushes, coins and a passage.
  * **Tail**: the beginning of a cycle that is not complete yet.
  * **Segment** (`Segment`): complete cycles and a tail. Every sequence of
    events is one segment in exactly one way.
  * **Course** (`Course`): segments, each closed by a reset, and one that is
    still open. Every sequence of inputs is one course in exactly one way.

  Segments and courses are read from left to right, one event or input at a
  time. One step of the two-coin table moves the state and the trace as reading
  one input moves the course, and so a run has the state and the trace that its
  course tells of. -/

namespace FareGate

/-! ## Reading from left to right

Both segments and courses are read one item after the other. -/

section reading
variable {α β γ : Type} {extend : α → β → α}

/-- If reading one item adds it to what is written, nothing that is read is
    lost. -/
theorem written_foldl {written : α → List β} (h : ∀ a b, written (extend a b) = written a ++ [b])
    (bs : List β) (a : α) : written (bs.foldl extend a) = written a ++ bs := by
  induction bs generalizing a with
  | nil => simp
  | cons b rest ih =>
    rw [List.foldl_cons, ih, h, List.append_assoc]
    rfl

/-- If reading the items of one part adds that part, reading those of many
    parts adds them all. -/
theorem foldl_flatMap_parts {items : γ → List β} {after : List γ → α}
    (h : ∀ cs c, (items c).foldl extend (after cs) = after (cs ++ [c])) (cs ds : List γ) :
    (ds.flatMap items).foldl extend (after cs) = after (cs ++ ds) := by
  induction ds generalizing cs with
  | nil => simp
  | cons d rest ih =>
    rw [List.flatMap_cons, List.foldl_append, h, ih, List.append_assoc]
    rfl

end reading

/-! ## Cycles and tails -/

def times (n : Nat) (text : String) : String := String.join (List.replicate n text)

theorem times_succ (n : Nat) (text : String) : times (n + 1) text = times n text ++ text := by
  unfold times
  rw [List.replicate_succ', String.join_append]
  simp

@[simp] theorem times_zero (text : String) : times 0 text = "" := by
  simp [times]

def coin? : Bool → List Event
  | true => [.coin]
  | false => []

/-- From locked to locked. -/
inductive Cycle where
  /-- Two coins, a number of further coins, and a passage. -/
  | paid (thanks : Nat)
  /-- At most one coin, a push and a number of further pushes, a coin and a
      number of further coins, and a passage. -/
  | alarmed (lead : Bool) (reports thanks : Nat)

/-- The beginning of a cycle. -/
inductive Tail where
  /-- Nothing yet. -/
  | nothing
  /-- One coin. -/
  | oneCoin
  /-- Two coins and a number of further coins. -/
  | paid (thanks : Nat)
  /-- At most one coin, a push and a number of further pushes. -/
  | alarmed (lead : Bool) (reports : Nat)
  /-- The same, then a coin and a number of further coins. -/
  | settled (lead : Bool) (reports thanks : Nat)

namespace Cycle

def events : Cycle → List Event
  | paid thanks => [.coin, .coin] ++ List.replicate thanks .coin ++ [.pass]
  | alarmed lead reports thanks =>
    coin? lead ++ List.replicate (reports + 1) .pass ++ List.replicate (thanks + 1) .coin
      ++ [.pass]

def trace : Cycle → String
  | paid thanks => "U" ++ times thanks "T" ++ "L"
  | alarmed _ reports thanks =>
    "A" ++ times reports "X(Alarming,Pass)" ++ "OU" ++ times thanks "T" ++ "L"

end Cycle

namespace Tail

def events : Tail → List Event
  | nothing => []
  | oneCoin => [.coin]
  | paid thanks => [.coin, .coin] ++ List.replicate thanks .coin
  | alarmed lead reports => coin? lead ++ List.replicate (reports + 1) .pass
  | settled lead reports thanks =>
    coin? lead ++ List.replicate (reports + 1) .pass ++ List.replicate (thanks + 1) .coin

def trace : Tail → String
  | nothing => ""
  | oneCoin => ""
  | paid thanks => "U" ++ times thanks "T"
  | alarmed _ reports => "A" ++ times reports "X(Alarming,Pass)"
  | settled _ reports thanks =>
    "A" ++ times reports "X(Alarming,Pass)" ++ "OU" ++ times thanks "T"

/-- The state in which the gate waits for the rest of the cycle. -/
def state : Tail → State
  | nothing => .locked
  | oneCoin => .firstCoin
  | paid _ => .unlocked
  | alarmed _ _ => .alarming
  | settled _ _ _ => .unlocked

end Tail

/-! ## Segments -/

/-- What happens between two resets. -/
structure Segment where
  /-- The cycles that are complete. -/
  cycles : List Cycle
  /-- What follows them. -/
  tail : Tail

namespace Segment

def events (s : Segment) : List Event := s.cycles.flatMap Cycle.events ++ s.tail.events

def trace (s : Segment) : String := String.join (s.cycles.map Cycle.trace) ++ s.tail.trace

/-- What a reset adds to the trace after this segment. -/
def resetTrace (s : Segment) : String :=
  match s.tail with
  | .alarmed _ _ => "OL"
  | _ => "L"

def start : Segment := ⟨[], .nothing⟩

def extend : Segment → Event → Segment
  | ⟨cs, .nothing⟩, .coin => ⟨cs, .oneCoin⟩
  | ⟨cs, .nothing⟩, .pass => ⟨cs, .alarmed false 0⟩
  | ⟨cs, .oneCoin⟩, .coin => ⟨cs, .paid 0⟩
  | ⟨cs, .oneCoin⟩, .pass => ⟨cs, .alarmed true 0⟩
  | ⟨cs, .paid thanks⟩, .coin => ⟨cs, .paid (thanks + 1)⟩
  | ⟨cs, .paid thanks⟩, .pass => ⟨cs ++ [.paid thanks], .nothing⟩
  | ⟨cs, .alarmed lead reports⟩, .coin => ⟨cs, .settled lead reports 0⟩
  | ⟨cs, .alarmed lead reports⟩, .pass => ⟨cs, .alarmed lead (reports + 1)⟩
  | ⟨cs, .settled lead reports thanks⟩, .coin => ⟨cs, .settled lead reports (thanks + 1)⟩
  | ⟨cs, .settled lead reports thanks⟩, .pass => ⟨cs ++ [.alarmed lead reports thanks], .nothing⟩

/-- The segment that these events make up. -/
def ofEvents (es : List Event) : Segment := es.foldl extend start

theorem events_extend (s : Segment) (e : Event) : (s.extend e).events = s.events ++ [e] := by
  obtain ⟨cs, tail⟩ := s
  cases tail <;> cases e <;>
    simp [extend, events, Cycle.events, Tail.events, coin?, List.replicate_succ']

theorem events_ofEvents (es : List Event) : (ofEvents es).events = es :=
  written_foldl events_extend es start

theorem foldl_replicate {f : Nat → Segment} {e : Event} (hf : ∀ k, (f k).extend e = f (k + 1))
    (n : Nat) : (List.replicate n e).foldl extend (f 0) = f n := by
  induction n with
  | zero => rfl
  | succ n ih =>
    rw [List.replicate_succ', List.foldl_append, ih]
    exact hf n

/-- At most one coin, and then pushes, set off the alarm. -/
theorem foldl_pushes (cs : List Cycle) (lead : Bool) (reports : Nat) :
    (coin? lead ++ List.replicate (reports + 1) Event.pass).foldl extend ⟨cs, .nothing⟩ =
      ⟨cs, .alarmed lead reports⟩ := by
  have hcount := foldl_replicate (f := fun k => ⟨cs, .alarmed lead k⟩) (e := .pass)
    (fun _ => rfl) reports
  rw [List.foldl_append, List.replicate_succ, List.foldl_cons, ← hcount]
  cases lead <;> rfl

theorem foldl_tail (cs : List Cycle) (t : Tail) :
    t.events.foldl extend ⟨cs, .nothing⟩ = ⟨cs, t⟩ := by
  cases t with
  | nothing => rfl
  | oneCoin => rfl
  | paid thanks => exact foldl_replicate (f := fun k => ⟨cs, .paid k⟩) (fun _ => rfl) thanks
  | alarmed lead reports => exact foldl_pushes cs lead reports
  | settled lead reports thanks =>
    -- the first coin silences the alarm, and the others are counted
    rw [Tail.events, List.foldl_append, foldl_pushes, List.replicate_succ, List.foldl_cons]
    exact foldl_replicate (f := fun k => ⟨cs, .settled lead reports k⟩) (fun _ => rfl) thanks

/-- A cycle is read as the tail it begins with, and one passage more. -/
theorem foldl_cycle (cs : List Cycle) (c : Cycle) :
    c.events.foldl extend ⟨cs, .nothing⟩ = ⟨cs ++ [c], .nothing⟩ := by
  cases c with
  | paid thanks =>
    have htail := foldl_tail cs (.paid thanks)
    rw [Tail.events] at htail
    rw [Cycle.events, List.foldl_append, htail]
    rfl
  | alarmed lead reports thanks =>
    have htail := foldl_tail cs (.settled lead reports thanks)
    rw [Tail.events] at htail
    rw [Cycle.events, List.foldl_append, htail]
    rfl

/-- From the events of a segment, `ofEvents` reads the segment. -/
theorem ofEvents_events (s : Segment) : ofEvents s.events = s := by
  obtain ⟨cycles, tail⟩ := s
  have hcycles := foldl_flatMap_parts foldl_cycle [] cycles
  unfold ofEvents events start
  rw [List.foldl_append, hcycles, foldl_tail]
  rfl

/-- Every sequence of events is one segment, in exactly one way. -/
theorem existsUnique_events (es : List Event) : ∃! s : Segment, s.events = es := by
  refine ⟨ofEvents es, events_ofEvents es, ?_⟩
  intro s hs
  rw [← hs, ofEvents_events]

end Segment

/-! ## Courses -/

/-- Segments that a reset has closed, and one that is open. -/
structure Course where
  /-- The segments before a reset, oldest first. -/
  closed : List Segment
  /-- The segment after the last reset. -/
  last : Segment

namespace Course

def inputs (d : Course) : List Input :=
  d.closed.flatMap (fun s => s.events.map .event ++ [.reset]) ++ d.last.events.map .event

def trace (d : Course) : String :=
  String.join (d.closed.map fun s => s.trace ++ s.resetTrace) ++ d.last.trace

def state (d : Course) : State := d.last.tail.state

def start : Course := ⟨[], .start⟩

def extend (d : Course) : Input → Course
  | .event e => ⟨d.closed, d.last.extend e⟩
  | .reset => ⟨d.closed ++ [d.last], .start⟩

/-- The course that these inputs make up. -/
def ofInputs (is : List Input) : Course := is.foldl extend start

theorem inputs_extend (d : Course) (i : Input) : (d.extend i).inputs = d.inputs ++ [i] := by
  cases i with
  | event e => simp [extend, inputs, Segment.events_extend]
  | reset => simp [extend, inputs, Segment.start, Segment.events, Tail.events]

theorem inputs_ofInputs (is : List Input) : (ofInputs is).inputs = is :=
  written_foldl inputs_extend is start

theorem foldl_events (closed : List Segment) (s : Segment) :
    (s.events.map Input.event).foldl extend ⟨closed, .start⟩ = ⟨closed, s⟩ := by
  have hevents : ∀ (es : List Event) (s' : Segment),
      (es.map Input.event).foldl extend ⟨closed, s'⟩ = ⟨closed, es.foldl Segment.extend s'⟩ := by
    intro es
    induction es with
    | nil => intro s'; rfl
    | cons e rest ih => intro s'; exact ih (s'.extend e)
  have hread := Segment.ofEvents_events s
  rw [Segment.ofEvents] at hread
  rw [hevents, hread]

/-- From the inputs of a course, `ofInputs` reads the course. -/
theorem ofInputs_inputs (d : Course) : ofInputs d.inputs = d := by
  obtain ⟨closed, last⟩ := d
  have hsegment : ∀ (earlier : List Segment) (s : Segment),
      (s.events.map Input.event ++ [Input.reset]).foldl extend ⟨earlier, .start⟩ =
        ⟨earlier ++ [s], .start⟩ := by
    intro earlier s
    rw [List.foldl_append, foldl_events]
    rfl
  have hclosed := foldl_flatMap_parts hsegment [] closed
  unfold ofInputs inputs start
  rw [List.foldl_append, hclosed, foldl_events]
  rfl

/-- Every sequence of inputs is one course, in exactly one way. -/
theorem existsUnique_inputs (is : List Input) : ∃! d : Course, d.inputs = is := by
  refine ⟨ofInputs is, inputs_ofInputs is, ?_⟩
  intro d hd
  rw [← hd, ofInputs_inputs]

/-! ## Courses and the two-coin table -/

/-- One step of `Table.twoCoin` moves the state and the trace as `extend` moves
    the course. -/
theorem twoCoin_extend (d : Course) (i : Input) :
    (Table.twoCoin.transition d.state i).after = (d.extend i).state ∧
      d.trace ++ Call.traceOf (Table.twoCoin.transition d.state i).calls =
        (d.extend i).trace := by
  obtain ⟨closed, cycles, tail⟩ := d
  -- five tails, with a coin, a push or a reset after each
  rcases i with (_ | _) | _ <;> cases tail <;> refine ⟨rfl, ?_⟩ <;>
    simp [extend, trace, state, Segment.extend, Segment.start, Segment.trace, Segment.resetTrace,
      Cycle.trace, Tail.trace, Tail.state, times_succ, Call.traceOf, Call.symbol, Action.letter,
      Transition.calls, Table.transition, Table.lookup, Table.twoCoin, Rule.matches?,
      State.resetActions, State.isAlarming, Input.name, State.name, Event.name, String.append_assoc]

/-- A `walk` through `Table.twoCoin` moves the state and the trace as reading
    its inputs moves the course. -/
theorem twoCoin_walk (is : List Input) (d : Course) :
    Table.twoCoin.reach d.state is = (is.foldl extend d).state ∧
      d.trace ++ Call.traceOf ((Table.twoCoin.walk d.state is).flatMap (·.calls)) =
        (is.foldl extend d).trace := by
  induction is generalizing d with
  | nil => exact ⟨rfl, by simp [Table.walk, Call.traceOf]⟩
  | cons i rest ih =>
    -- the rest is read from the course that the first input extends
    obtain ⟨hstate, htrace⟩ := twoCoin_extend d i
    obtain ⟨hend, htraces⟩ := ih (d.extend i)
    rw [Table.reach, Table.walk, List.flatMap_cons, Call.traceOf_append, ← String.append_assoc,
      htrace, hstate]
    exact ⟨hend, htraces⟩

end Course

namespace Machine

variable {σ : Type} [Handler σ]

/-- **The payment grammar of the standard gate.** Every sequence of events is
    one `Segment` of cycles and a tail in exactly one way, and every sequence of
    inputs is one `Course` of segments between resets in exactly one way. The
    standard gate with a steady handler, given the inputs of a course, is in the
    state that the course tells of, and has added its trace. -/
theorem standard_run_course {handler : σ} (hsteady : Steady handler) (recorder : Recorder) :
    (∀ es : List Event, ∃! s : Segment, s.events = es) ∧
    (∀ is : List Input, ∃! d : Course, d.inputs = is) ∧
    ∀ (d : Course) (timed : List (Instant × Input)), timed.map (·.2) = d.inputs →
      let m := (standard (Watched.mk handler recorder)).runOn (feed timed)
      m.state = d.state ∧ m.handler.recorder.trace = recorder.trace ++ d.trace := by
  refine ⟨Segment.existsUnique_events, Course.existsUnique_inputs, ?_⟩
  intro d timed hinputs m
  obtain ⟨hadvanced, hrecorder⟩ :=
    runOn_feed_watched (m := standard (Watched.mk handler recorder)) timed hsteady
  obtain ⟨hend, htrace⟩ := Course.twoCoin_walk d.inputs .start
  -- reading the inputs of the course from the start gives the course back
  have hread : d.inputs.foldl Course.extend .start = d := Course.ofInputs_inputs d
  rw [hread] at hend htrace
  rw [hinputs] at hadvanced hrecorder
  constructor
  · rw [hadvanced.state]
    exact hend
  · rw [hrecorder, Recorder.trace_noteAll, ← htrace]
    congr 1

/-- Three coins and a passage, a coin and two pushes, a reset, and a push that
    a coin settles. -/
def busyDay : Course where
  closed := [⟨[.paid 1], .alarmed true 1⟩]
  last := ⟨[.alarmed false 0 1], .oneCoin⟩

theorem busyDay_run_course :
    let m := (standard (Watched.mk Recorder.empty .empty)).runOn
      (feed (busyDay.inputs.map fun i => (Instant.epoch, i)))
    Steady Recorder.empty ∧ m.state = .firstCoin ∧
      m.handler.recorder.trace = "UTLAX(Alarming,Pass)OLAOUTL" := by
  intro m
  have hsteady : Steady Recorder.empty := Recorder.steady _
  obtain ⟨hstate, htrace⟩ := (standard_run_course hsteady .empty).2.2 busyDay
    (busyDay.inputs.map fun i => (Instant.epoch, i)) rfl
  refine ⟨hsteady, hstate, ?_⟩
  rw [htrace]
  decide

end Machine

end FareGate
