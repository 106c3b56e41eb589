import TypedClosures.Basic
import TypedClosures.Ty
import TypedClosures.Term
import TypedClosures.Fault
import TypedClosures.Scope
import TypedClosures.Witness
import TypedClosures.Frame
import TypedClosures.Code
import TypedClosures.Machine
import TypedClosures.Check.Run
import TypedClosures.Check.Rules
import TypedClosures.Check.Machine
import TypedClosures.Compile.Emit
import TypedClosures.Compile.Rules
import TypedClosures.Compile.Machine
import TypedClosures.Code.Census
import TypedClosures.Report.Ranges
import TypedClosures.Report.Glyph
import TypedClosures.Report.Source
import TypedClosures.Report.Draw
import TypedClosures.Build
import TypedClosures.Session
import TypedClosures.Check.MachineLaws
import TypedClosures.Compile.MachineLaws
import TypedClosures.Proofs.Answer
import TypedClosures.Proofs.Typing
import TypedClosures.Proofs.Blame
import TypedClosures.Proofs.Slots
import TypedClosures.Proofs.Resolution
import TypedClosures.Proofs.Parameters
import TypedClosures.Proofs.Meaning
import TypedClosures.Proofs.SlotTyping
import TypedClosures.Proofs.WellFormed
import TypedClosures.Proofs.Alpha
import TypedClosures.Proofs.Faults
import TypedClosures.Proofs.Rebuild
import TypedClosures.Proofs.Relocation
import TypedClosures.Proofs.FreeNames
import TypedClosures.Proofs.Positions
import TypedClosures.Proofs.Renaming
import TypedClosures.Proofs.Spans
import TypedClosures.Proofs.Currying
import TypedClosures.Proofs.Tour
import TypedClosures.Proofs.FailFast
import TypedClosures.Proofs.Locality
import TypedClosures.Proofs.OnePass
import TypedClosures.Proofs.Pointing
import TypedClosures.Proofs.TermText
import TypedClosures.Proofs.Accounting
import TypedClosures.Proofs.FrameHistory
