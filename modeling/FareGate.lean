import FareGate.Form.Call
import FareGate.Form.History
import FareGate.Form.Table
import FareGate.Handler.Fragile
import FareGate.Handler.Holding
import FareGate.Machine.Command
import FareGate.Machine.Setup
import FareGate.Main
import FareGate.Proofs.History.Cap
import FareGate.Proofs.Machine.Run
import FareGate.Proofs.Machine.Faithful
import FareGate.Proofs.Machine.Breakage
import FareGate.Proofs.Machine.StandIn
import FareGate.Proofs.Machine.Independence
import FareGate.Proofs.Machine.Logbook
import FareGate.Proofs.Machine.Effects
import FareGate.Proofs.Machine.Problems
import FareGate.Proofs.TwoCoin.Accounting
import FareGate.Proofs.TwoCoin.Hardware
import FareGate.Proofs.TwoCoin.Course
import FareGate.Proofs.CommandLine.Figures
import FareGate.Proofs.Table.Order
import FareGate.Proofs.Machine.Order
import FareGate.Proofs.Json.Spelling
import FareGate.Proofs.Time.Stamp
import FareGate.Proofs.Form.ReadBack
import FareGate.Proofs.History.Upkeep
import FareGate.Proofs.Table.Verdict
import FareGate.Proofs.Machine.Settings
import FareGate.Proofs.Handler.Trace
import FareGate.Proofs.Machine.Traces
import FareGate.Proofs.Json.Grammar
import FareGate.Proofs.Form.Spellings
import FareGate.Proofs.CommandLine.Transcript
import FareGate.Proofs.Machine.Path
import FareGate.Proofs.Form.Names
import FareGate.Proofs.History.Duration
import FareGate.Proofs.Time.Calendar
import FareGate.Proofs.Time.Offset
import FareGate.Proofs.Time.Spelling
import FareGate.Proofs.Form.Restamped
