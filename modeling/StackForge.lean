import StackForge.Arm
import StackForge.Binding
import StackForge.Catalog
import StackForge.Check.Fault
import StackForge.Check.Instruction
import StackForge.Check.Machine
import StackForge.Chunk
import StackForge.Command
import StackForge.Command.Arguments
import StackForge.Command.Files
import StackForge.Complex
import StackForge.Conventions
import StackForge.Descriptor
import StackForge.Diagnostic
import StackForge.Diagnostic.Json
import StackForge.Diagnostic.Log
import StackForge.Disk
import StackForge.Domain
import StackForge.Domain.Complex
import StackForge.Domain.Real
import StackForge.Double
import StackForge.Double.Digits
import StackForge.Double.Functions
import StackForge.Double.Rounding
import StackForge.Double.Text
import StackForge.Draft
import StackForge.Emission
import StackForge.Emission.Decl
import StackForge.Emission.Engine
import StackForge.Emission.Fault
import StackForge.Emission.Glue
import StackForge.Emission.Power
import StackForge.Engine
import StackForge.Expr
import StackForge.Expr.Parser
import StackForge.Expr.Render
import StackForge.Failure
import StackForge.FileSystem
import StackForge.Generation
import StackForge.Host
import StackForge.Instruction
import StackForge.Json
import StackForge.Json.Number
import StackForge.Json.Reader
import StackForge.Layout
import StackForge.Machine
import StackForge.Machine.Eval
import StackForge.Machine.Frame
import StackForge.Main
import StackForge.Power
import StackForge.Program
import StackForge.Reference
import StackForge.Scope
import StackForge.Sha256
import StackForge.Signature
import StackForge.Signature.Reader
import StackForge.Source
import StackForge.Span
import StackForge.Storage
import StackForge.Text.Blank
import StackForge.Text.Lines
import StackForge.Text.Quoted
import StackForge.Token
import StackForge.Token.Fault
import StackForge.Token.Lexer
import StackForge.Proofs.Accepted
import StackForge.Proofs.WellFormed
import StackForge.Proofs.Lawful
import StackForge.Proofs.Checking
import StackForge.Proofs.Evaluation
import StackForge.Proofs.Body
import StackForge.Proofs.Bounds
import StackForge.Proofs.Assembly
import StackForge.Proofs.Refusal
import StackForge.Proofs.Relaid
import StackForge.Proofs.Restyled
import StackForge.Proofs.Assembled
import StackForge.Proofs.Machine
import StackForge.Proofs.Scoping
import StackForge.Proofs.Power
import StackForge.Proofs.Arms
import StackForge.Proofs.Bare
import StackForge.Proofs.Decoding
import StackForge.Proofs.Emission
import StackForge.Proofs.Refinement
import StackForge.Proofs.Grammar
import StackForge.Proofs.OperandNames
import StackForge.Proofs.Hygiene
import StackForge.Proofs.Parsing
import StackForge.Proofs.Lexing
import StackForge.Proofs.Statements
import StackForge.Proofs.Rendering
import StackForge.Proofs.StackEffect
import StackForge.Proofs.Callback
import StackForge.Proofs.Marks
import StackForge.Proofs.Unread
import StackForge.Proofs.SignatureReading
import StackForge.Proofs.Exponent
import StackForge.Proofs.Decomposition
import StackForge.Proofs.Disk
import StackForge.Proofs.Written
import StackForge.Proofs.Squaring
import StackForge.Proofs.StraightCode
import StackForge.Proofs.Interning
import StackForge.Proofs.Locality
import StackForge.Proofs.Recovery
import StackForge.Proofs.WordOrder
import StackForge.Proofs.Spans
import StackForge.Proofs.Margin
import StackForge.Proofs.Dedent
import StackForge.Proofs.SignatureFaults
import StackForge.Proofs.Completion
import StackForge.Proofs.Reported
import StackForge.Proofs.Collection
import StackForge.Proofs.Staleness
import StackForge.Proofs.Immediates
import StackForge.Proofs.JsonText
import StackForge.Proofs.DiagnosticText
