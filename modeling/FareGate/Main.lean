import FareGate.CommandLine

/-! # The program

  Prints the transcript of its arguments, line by line. -/

open FareGate.CommandLine

/-- Prints each line where it belongs. -/
def main (arguments : List String) : IO UInt32 := do
  for line in transcript arguments do
    match line with
    | .answer text => IO.println text
    | .complaint text => IO.eprintln text
  return exitCode arguments
