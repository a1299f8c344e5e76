import FareGate.Handler.Recorder
import FareGate.Machine

/-! # Driving a gate from the command line

  The arguments are inputs for a standard gate. What the program says is worked
  out in full as a **transcript** before anything is printed:

  * each argument that names an input gives one line with the state it leads
    to;
  * any other argument is reported on the side and changes nothing;
  * at the end come the trace of the calls made and the number of unexpected
    inputs in the history.

  No line shows a time, so the gate's clock stands still. -/

namespace FareGate.CommandLine

/-- A line of the transcript. -/
inductive Line where
  /-- A line of the program's answer. -/
  | answer (text : String)
  /-- A line that reports a wrong argument. -/
  | complaint (text : String)
deriving DecidableEq

/-- A text filled up with spaces to a width. -/
def pad (width : Nat) (text : String) : String :=
  text ++ String.ofList (List.replicate (width - text.length) ' ')

/-- The line for an input that led to `state`. -/
def inputLine (argument : String) (state : State) : Line :=
  .answer ("  " ++ pad 5 argument ++ " -> " ++ state.name)

/-- An input, at a clock that stands still. -/
def apply (m : Machine Recorder) (i : Input) : Machine Recorder := (m.handle .epoch i).value

/-- The lines for the arguments in order, and the gate that they leave. -/
def walk : List String → Machine Recorder → List Line × Machine Recorder
  | [], m => ([], m)
  | argument :: rest, m =>
    match Input.ofName argument with
    | .ok i =>
      let m := apply m i
      let state := m.state
      let (lines, m) := walk rest m
      (inputLine argument state :: lines, m)
    | .error e =>
      let (lines, m) := walk rest m
      (.complaint e.message :: lines, m)

def opening (m : Machine Recorder) : List Line :=
  [.answer "=== Two-Coin Turnstile ===", .answer "", .answer ("Initial state: " ++ m.state.name)]

def closing (m : Machine Recorder) : List Line :=
  [.answer "", .answer ("Trace: " ++ m.handler.trace),
    .answer ("Unexpected transitions: " ++ toString m.history.unexpectedCount)]

/-- The line for a call without arguments. -/
def usage : Line := .answer "Usage: turnstile_trace <Coin|Pass|Reset>..."

/-- The transcript of a call with these arguments. -/
def transcript : List String → List Line
  | [] => [usage]
  | arguments =>
    let m : Machine Recorder := .standard .empty
    let (lines, last) := walk arguments m
    opening m ++ lines ++ closing last

/-! ## The two channels -/

def Line.answer? : Line → Option String
  | answer text => some text
  | complaint _ => none

def Line.complaint? : Line → Option String
  | answer _ => none
  | complaint text => some text

/-- Lines as one text, each with a line feed after it. -/
def unlines (lines : List String) : String := String.join (lines.map (· ++ "\n"))

/-- What `transcript` sends to the standard output. -/
def output (arguments : List String) : String :=
  unlines ((transcript arguments).filterMap Line.answer?)

/-- What `transcript` sends to the standard error stream. -/
def errors (arguments : List String) : String :=
  unlines ((transcript arguments).filterMap Line.complaint?)

/-- The exit code, which wrong arguments do not change. -/
def exitCode (_arguments : List String) : UInt32 := 0

end FareGate.CommandLine
