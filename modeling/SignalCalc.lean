import SignalCalc.Options.Json
import SignalCalc.Plugin.Samples
import SignalCalc.Program.Listing
import SignalCalc.Proofs.Crc.Detection
import SignalCalc.Proofs.Crc.Division
import SignalCalc.Proofs.Crc.Word
import SignalCalc.Proofs.Equation.Calls
import SignalCalc.Proofs.Equation.Compound
import SignalCalc.Proofs.Equation.EdgeMemory
import SignalCalc.Proofs.Equation.FrameUse
import SignalCalc.Proofs.Equation.Grammar
import SignalCalc.Proofs.Equation.Literals
import SignalCalc.Proofs.Equation.Modes
import SignalCalc.Proofs.Equation.References
import SignalCalc.Proofs.Equation.Refinement
import SignalCalc.Proofs.Equation.StackDiscipline
import SignalCalc.Proofs.Equation.StrictCheck
import SignalCalc.Proofs.Equation.Termination
import SignalCalc.Proofs.Equation.Warnings
import SignalCalc.Proofs.Equation.WritePolicy
import SignalCalc.Proofs.Frame.Change
import SignalCalc.Proofs.Json.RoundTrip
import SignalCalc.Proofs.Machine.Commutation
import SignalCalc.Proofs.Machine.RawAccess
import SignalCalc.Proofs.Machine.Replacement
import SignalCalc.Proofs.Options.RoundTrip
import SignalCalc.Proofs.Plugin.Numbering
import SignalCalc.Proofs.Script.Descent
import SignalCalc.Proofs.Script.Expression
import SignalCalc.Proofs.Session.Registrations
import SignalCalc.Proofs.Store.Conformance
import SignalCalc.Proofs.Store.Indexed
import SignalCalc.Proofs.Token.Numeral
import SignalCalc.Proofs.Token.Radix
import SignalCalc.Proofs.Token.Splitting
import SignalCalc.Proofs.Token.Words
import SignalCalc.Proofs.Value.BitFields
import SignalCalc.Proofs.Value.Clamping
import SignalCalc.Proofs.Value.Coercion
import SignalCalc.Proofs.Value.Integers
import SignalCalc.Session
import SignalCalc.Store.Screened
