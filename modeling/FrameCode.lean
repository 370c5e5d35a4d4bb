import FrameCode.Text
import FrameCode.Binary64.Basic
import FrameCode.Binary64.Arithmetic
import FrameCode.Binary64.Hexadecimal
import FrameCode.Binary64.Decimal
import FrameCode.Literal.Integer
import FrameCode.Literal.Float
import FrameCode.Literal.Escape
import FrameCode.Language.Value
import FrameCode.Language.Opcode
import FrameCode.Language.Operand
import FrameCode.Language.SourceError
import FrameCode.Language.Program
import FrameCode.Machine.Frame
import FrameCode.Machine.Fault
import FrameCode.Machine.Operator
import FrameCode.Machine.Profile
import FrameCode.Machine.Channel
import FrameCode.Machine.Memory
import FrameCode.Machine.State
import FrameCode.Machine.Operation
import FrameCode.Machine.Decision
import FrameCode.Machine.Step
import FrameCode.Machine.Run
import FrameCode.Machine.Handler
import FrameCode.Document.Character
import FrameCode.Document.Node
import FrameCode.Document.Reference
import FrameCode.Document.Event
import FrameCode.Document.Builder
import FrameCode.Source.Argument
import FrameCode.Source.Load
import FrameCode.CommandLine.Flag
import FrameCode.CommandLine.Options
import FrameCode.CommandLine.Command
import FrameCode.CommandLine.Session
import FrameCode.Main
import FrameCode.Proofs.Causes
import FrameCode.Proofs.Runs
import FrameCode.Proofs.Signature
import FrameCode.Proofs.Loading
import FrameCode.Proofs.Faults
import FrameCode.Proofs.StackForms
import FrameCode.Proofs.Control
import FrameCode.Proofs.Probes
import FrameCode.Proofs.Relocation
import FrameCode.Proofs.Noninterference
import FrameCode.Proofs.Landings
import FrameCode.Proofs.Arguments
import FrameCode.Proofs.Sorting
import FrameCode.Proofs.Elements
import FrameCode.Proofs.Documents
import FrameCode.Proofs.Reordering
import FrameCode.Proofs.HexNotation
import FrameCode.Proofs.Histories
import FrameCode.Proofs.Frames
import FrameCode.Proofs.Peaks
import FrameCode.Proofs.Bracketing
import FrameCode.Proofs.Mnemonics
import FrameCode.Proofs.Tallies
import FrameCode.Proofs.Termination
import FrameCode.Proofs.Reading
import FrameCode.Proofs.IntegerNotation
import FrameCode.Proofs.Transcripts
import FrameCode.Proofs.Sessions
import FrameCode.Proofs.Layouts
import FrameCode.Proofs.OutputLimits
import FrameCode.Proofs.Comments
import FrameCode.Proofs.RenamedRuns
import FrameCode.Proofs.Numerals
import FrameCode.Proofs.IntegerGrammar
import FrameCode.Proofs.IntegerScan
import FrameCode.Proofs.Rounding
import FrameCode.Proofs.Scaling
import FrameCode.Proofs.Significands
import FrameCode.Proofs.HexGrammar
import FrameCode.Proofs.DecimalGrammar
import FrameCode.Proofs.ExponentCut
import FrameCode.Proofs.Precedence
import FrameCode.Proofs.Handlers
import FrameCode.Proofs.Sites
import FrameCode.Proofs.Footprints
import FrameCode.Proofs.Escapes
import FrameCode.Proofs.OperandGrammar
import FrameCode.Proofs.OperandNotation
import FrameCode.Proofs.WordArithmetic
import FrameCode.Proofs.TextIndexing
import FrameCode.Proofs.ByteOrder
import FrameCode.Proofs.Comparisons
import FrameCode.Proofs.OperatorTypes
import FrameCode.Proofs.Conversions
import FrameCode.Proofs.FrameHistories
import FrameCode.Proofs.LabelTables
import FrameCode.Proofs.Accumulation
