import CuttingPlanes.CommandLine.Arguments
import CuttingPlanes.CommandLine.Command
import CuttingPlanes.CommandLine.Execution
import CuttingPlanes.CommandLine.Failure
import CuttingPlanes.CommandLine.Folder
import CuttingPlanes.CommandLine.Path
import CuttingPlanes.CommandLine.Program
import CuttingPlanes.Constraint.Basic
import CuttingPlanes.Constraint.Opb
import CuttingPlanes.Derivation
import CuttingPlanes.Dimacs.Basic
import CuttingPlanes.Dimacs.File
import CuttingPlanes.Dimacs.Line
import CuttingPlanes.Event
import CuttingPlanes.Gzip.Checksum
import CuttingPlanes.Gzip.Inflation
import CuttingPlanes.Gzip.Member
import CuttingPlanes.Gzip.RoundTrip
import CuttingPlanes.LinearForm.Addition
import CuttingPlanes.LinearForm.Basic
import CuttingPlanes.Number
import CuttingPlanes.Pigeonhole
import CuttingPlanes.Proofs.Actions
import CuttingPlanes.Proofs.Constraint.Algebra
import CuttingPlanes.Proofs.Derivation.Steps
import CuttingPlanes.Proofs.Derivation.Summation
import CuttingPlanes.Proofs.LinearForm.Coefficient
import CuttingPlanes.Proofs.LinearForm.Forming
import CuttingPlanes.Proofs.LinearForm.Value
import CuttingPlanes.Proofs.Pigeonhole.Adequacy
import CuttingPlanes.Proofs.Pigeonhole.Constraints
import CuttingPlanes.Proofs.Pigeonhole.Placement
import CuttingPlanes.Proofs.Pigeonhole.Refutation
import CuttingPlanes.Proofs.Stream.Delivery
import CuttingPlanes.Proofs.Stream.Taking
import CuttingPlanes.Proofs.Text.Lines
import CuttingPlanes.Proofs.Text.Words
import CuttingPlanes.Proofs.Trace.Binary.Parts
import CuttingPlanes.Proofs.Trace.Binary.RoundTrip
import CuttingPlanes.Proofs.Trace.Deduction
import CuttingPlanes.Proofs.Trace.Operation
import CuttingPlanes.Proofs.Trace.Reading
import CuttingPlanes.Proofs.Trace.Recording
import CuttingPlanes.Proofs.Trace.Records
import CuttingPlanes.Proofs.Trace.Soundness
import CuttingPlanes.Proofs.Trace.Text.Line
import CuttingPlanes.Proofs.Trace.Text.RoundTrip
import CuttingPlanes.Proofs.Varint.Bijection
import CuttingPlanes.Proofs.Varint.RoundTrip
import CuttingPlanes.Proofs.Varint.Scanning
import CuttingPlanes.Stream.Fault
import CuttingPlanes.Stream.Outlet
import CuttingPlanes.Stream.Sink
import CuttingPlanes.Stream.Source
import CuttingPlanes.Text.Blank
import CuttingPlanes.Text.Decimal
import CuttingPlanes.Text.Lines
import CuttingPlanes.Text.Utf8
import CuttingPlanes.Trace.Binary.Parser
import CuttingPlanes.Trace.Binary.Printer
import CuttingPlanes.Trace.Checker
import CuttingPlanes.Trace.Entry
import CuttingPlanes.Trace.Reader
import CuttingPlanes.Trace.Step
import CuttingPlanes.Trace.Text.Parser
import CuttingPlanes.Trace.Text.Printer
import CuttingPlanes.Trace.Transcoding
import CuttingPlanes.Trace.Verification
import CuttingPlanes.Trace.Writer
import CuttingPlanes.Variable
import CuttingPlanes.Varint.Accumulation
import CuttingPlanes.Varint.Decoder
import CuttingPlanes.Varint.Encoding
import CuttingPlanes.Varint.Stream
import CuttingPlanes.Varint.Zigzag
import CuttingPlanes.Main
import CuttingPlanes.Proofs.Derivation.Replaying
import CuttingPlanes.Proofs.Text.Numerals
import CuttingPlanes.Proofs.Text.Trimming
import CuttingPlanes.Proofs.Dimacs.Line
import CuttingPlanes.Proofs.Stream.Lines
import CuttingPlanes.Proofs.Dimacs.Document
import CuttingPlanes.Proofs.Trace.Calls
import CuttingPlanes.Proofs.Trace.RunLaw
import CuttingPlanes.Proofs.Stream.Shortage
import CuttingPlanes.Proofs.Trace.Interruption
import CuttingPlanes.Proofs.Trace.Sealing
import CuttingPlanes.Proofs.Stream.Starving
import CuttingPlanes.Proofs.Trace.Binary.Cutting
import CuttingPlanes.Proofs.Trace.Numbering
import CuttingPlanes.Proofs.Trace.Auditing
import CuttingPlanes.Proofs.CommandLine.Execution
import CuttingPlanes.Proofs.Trace.FailStop
import CuttingPlanes.Proofs.Derivation.Asking
import CuttingPlanes.Proofs.Derivation.Arena
import CuttingPlanes.Proofs.Trace.Readable
import CuttingPlanes.Proofs.Trace.Transcoding
import CuttingPlanes.Proofs.Text.Beginnings
import CuttingPlanes.Proofs.Trace.Text.Torn
import CuttingPlanes.Proofs.Trace.Text.Cutting
import CuttingPlanes.Proofs.Constraint.Addition
import CuttingPlanes.Proofs.Stream.Relaying
import CuttingPlanes.Proofs.Trace.Binary.Relaying
import CuttingPlanes.Proofs.Trace.Answers
import CuttingPlanes.Proofs.Trace.FailingSource
import CuttingPlanes.Proofs.Trace.Text.LineNumbers
import CuttingPlanes.Proofs.Trace.Binary.Spelling
import CuttingPlanes.Proofs.Trace.Binary.Canonical
import CuttingPlanes.Proofs.Trace.Acceptance
import CuttingPlanes.Proofs.Constraint.Order
import CuttingPlanes.Proofs.Derivation.Queue
import CuttingPlanes.Proofs.Trace.Text.Grammar
import CuttingPlanes.Proofs.Varint.Defects
import CuttingPlanes.Proofs.Stream.Delivered
import CuttingPlanes.Proofs.Dimacs.Runs
import CuttingPlanes.Proofs.Dimacs.Modes
import CuttingPlanes.Proofs.Dimacs.FailFast
import CuttingPlanes.Proofs.Dimacs.OutOfRange
import CuttingPlanes.Proofs.Varint.Streaming
import CuttingPlanes.Proofs.Trace.Text.LineByLine
import CuttingPlanes.Proofs.Trace.Binary.Script
import CuttingPlanes.Proofs.Trace.Binary.Offsets
import CuttingPlanes.Proofs.Trace.Progress
import CuttingPlanes.Proofs.Varint.Words
import CuttingPlanes.Proofs.Derivation.Depth
import CuttingPlanes.Proofs.Constraint.Forming
import CuttingPlanes.Proofs.Text.Listing
import CuttingPlanes.Proofs.CommandLine.Conversion
import CuttingPlanes.Proofs.Varint.Buffer
import CuttingPlanes.Proofs.Pigeonhole.Numbering
import CuttingPlanes.Proofs.Pigeonhole.Posing
import CuttingPlanes.Proofs.CommandLine.Folder
