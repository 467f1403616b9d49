import Lox.Bytecode.Instruction
import Lox.Bytecode.Listing
import Lox.Bytecode.Opcode
import Lox.Command
import Lox.Command.Arguments
import Lox.Command.Files
import Lox.Command.Task
import Lox.Compiler
import Lox.Compiler.Draft
import Lox.Compiler.Emission
import Lox.Compiler.Expression
import Lox.Compiler.Parser
import Lox.Compiler.Precedence
import Lox.Compiler.Statement
import Lox.Compiler.Variables
import Lox.Diagnostic
import Lox.Heap
import Lox.Machine.Basic
import Lox.Machine.Fault
import Lox.Machine.Output
import Lox.Machine.Run
import Lox.Machine.Step
import Lox.Main
import Lox.Native
import Lox.Number.Notation
import Lox.Number.Shortest
import Lox.Session
import Lox.Settings
import Lox.Settings.File
import Lox.Table
import Lox.Text.Hash
import Lox.Text.Pad
import Lox.Text.Quoted
import Lox.Text.Utf8
import Lox.Text.Visible
import Lox.Timings
import Lox.Token
import Lox.Token.Scanner
import Lox.Toml.Document
import Lox.Toml.Node
import Lox.Toml.Reader
import Lox.Toml.Scalar
import Lox.Toml.Text
import Lox.Value
import Lox.Value.Text
import Lox.Proofs.Table.Laws
import Lox.Proofs.Table.History
import Lox.Proofs.Heap
import Lox.Proofs.Syntax.Grammar
import Lox.Proofs.Syntax.Code
import Lox.Proofs.Syntax.Legal
import Lox.Proofs.Syntax.Proper
import Lox.Proofs.Syntax.Nested
import Lox.Proofs.Syntax.Places
import Lox.Proofs.Syntax.Uses
import Lox.Proofs.Syntax.Pushes
import Lox.Proofs.Compiler.Placeholder
import Lox.Proofs.Compiler.Problems
import Lox.Proofs.Compiler.Phrases
import Lox.Proofs.Compiler.View
import Lox.Proofs.Compiler.Expressions
import Lox.Proofs.Compiler.Statements
import Lox.Proofs.Compiler.Functions
import Lox.Proofs.Compiler.Correctness
import Lox.Proofs.Scanner
import Lox.Proofs.Machine.Layout
import Lox.Proofs.Machine.Safety
import Lox.Proofs.Syntax.Flow
import Lox.Proofs.Machine.SafeSessions
import Lox.Proofs.Machine.Robust
import Lox.Proofs.Table.Load
import Lox.Proofs.Machine.Globals
import Lox.Proofs.Semantics.Evaluation
import Lox.Proofs.Semantics.Expressions
import Lox.Proofs.Semantics.Statements
import Lox.Proofs.Composition.Echo
import Lox.Proofs.Composition.Natives
import Lox.Proofs.Composition.Scripts
import Lox.Proofs.Composition.Texts
import Lox.Proofs.Heap.History
import Lox.Proofs.Compiler.Checked
import Lox.Proofs.Compiler.Course
import Lox.Proofs.Compiler.Order
import Lox.Proofs.Compiler.Tidy
import Lox.Proofs.Compiler.Safety
import Lox.Proofs.Compiler.Twins
import Lox.Proofs.Machine.Strings
import Lox.Proofs.Machine.Atomic
import Lox.Proofs.Machine.OutputLimit
import Lox.Proofs.Machine.Frames
import Lox.Proofs.Machine.Listing
import Lox.Proofs.Machine.WellFormed
import Lox.Proofs.Machine.Traces
import Lox.Proofs.Machine.Origins
import Lox.Proofs.Machine.Recursion
import Lox.Proofs.Scanner.Lexis
import Lox.Proofs.Scanner.LongestMatch
import Lox.Proofs.Scanner.Rendering
import Lox.Proofs.Scanner.Lines
import Lox.Proofs.Compiler.Termination
