import PartProgram.Block.Printer
import PartProgram.Block.Reader
import PartProgram.CommandLine
import PartProgram.Cursor
import PartProgram.Decimal.Binary
import PartProgram.Decimal.Digits
import PartProgram.Decimal.Power
import PartProgram.Decimal.Read
import PartProgram.Decimal.Text
import PartProgram.Expr
import PartProgram.Expr.Printer
import PartProgram.Expr.Reader
import PartProgram.Expr.Value
import PartProgram.Frame
import PartProgram.Machine
import PartProgram.Main
import PartProgram.Operator
import PartProgram.Proofs.ArgumentList
import PartProgram.Proofs.ArgumentList.Words
import PartProgram.Proofs.BinaryConstant
import PartProgram.Proofs.Blanks
import PartProgram.Proofs.Blanks.FirstToken
import PartProgram.Proofs.Blanks.Scan
import PartProgram.Proofs.BlockNumber
import PartProgram.Proofs.BlockNumber.Line
import PartProgram.Proofs.BlockNumber.Word
import PartProgram.Proofs.Decimal.Bits
import PartProgram.Proofs.Decimal.Digits
import PartProgram.Proofs.Decimal.Nearest
import PartProgram.Proofs.Decimal.Parts
import PartProgram.Proofs.Decimal.ReadBack
import PartProgram.Proofs.Decimal.Shortest
import PartProgram.Proofs.Dialect
import PartProgram.Proofs.Dialect.Expr
import PartProgram.Proofs.Dialect.Statement
import PartProgram.Proofs.FramePairs
import PartProgram.Proofs.Label
import PartProgram.Proofs.LetterCase
import PartProgram.Proofs.LetterCase.Block
import PartProgram.Proofs.LetterCase.Expr
import PartProgram.Proofs.LetterCase.Fold
import PartProgram.Proofs.LetterCase.Letter
import PartProgram.Proofs.LetterCase.Reader
import PartProgram.Proofs.LetterCase.Scan
import PartProgram.Proofs.LetterCase.Statement
import PartProgram.Proofs.Lines
import PartProgram.Proofs.Lines.Block
import PartProgram.Proofs.Lines.Scan
import PartProgram.Proofs.Lines.Shift
import PartProgram.Proofs.Lockstep
import PartProgram.Proofs.Lockstep.Block
import PartProgram.Proofs.Lockstep.Expr
import PartProgram.Proofs.Lockstep.Statement
import PartProgram.Proofs.Lockstep.Token
import PartProgram.Proofs.Lossless
import PartProgram.Proofs.Lossless.Spelling
import PartProgram.Proofs.Nesting
import PartProgram.Proofs.NumberLiteral
import PartProgram.Proofs.Precedence
import PartProgram.Proofs.Precedence.Descent
import PartProgram.Proofs.Precedence.Finding
import PartProgram.Proofs.Precedence.Grammar
import PartProgram.Proofs.Precedence.Numeral
import PartProgram.Proofs.Precedence.Reading
import PartProgram.Proofs.Precedence.Steps
import PartProgram.Proofs.Progress
import PartProgram.Proofs.Rename
import PartProgram.Proofs.RoundTrip
import PartProgram.Proofs.RoundTrip.Block
import PartProgram.Proofs.RoundTrip.Body
import PartProgram.Proofs.RoundTrip.Call
import PartProgram.Proofs.RoundTrip.Clause
import PartProgram.Proofs.RoundTrip.Declaration
import PartProgram.Proofs.RoundTrip.Edge
import PartProgram.Proofs.RoundTrip.Expr
import PartProgram.Proofs.RoundTrip.Instruction
import PartProgram.Proofs.RoundTrip.Letter
import PartProgram.Proofs.RoundTrip.Line
import PartProgram.Proofs.RoundTrip.LineEnd
import PartProgram.Proofs.RoundTrip.Number
import PartProgram.Proofs.RoundTrip.Operand
import PartProgram.Proofs.RoundTrip.Position
import PartProgram.Proofs.RoundTrip.Program
import PartProgram.Proofs.RoundTrip.Scan
import PartProgram.Proofs.RoundTrip.Spelling
import PartProgram.Proofs.RoundTrip.Statement
import PartProgram.Proofs.RoundTrip.Tree
import PartProgram.Proofs.Rounds
import PartProgram.Proofs.Rounds.Expr
import PartProgram.Proofs.Run.Along
import PartProgram.Proofs.Run.Axes
import PartProgram.Proofs.Run.AxisWords
import PartProgram.Proofs.Run.Beside
import PartProgram.Proofs.Run.BlockReport
import PartProgram.Proofs.Run.CallStack
import PartProgram.Proofs.Run.Continuity
import PartProgram.Proofs.Run.Continuity.Step
import PartProgram.Proofs.Run.Course
import PartProgram.Proofs.Run.Due
import PartProgram.Proofs.Run.DwellTime
import PartProgram.Proofs.Run.DwellTime.Feed
import PartProgram.Proofs.Run.Executed
import PartProgram.Proofs.Run.Execution
import PartProgram.Proofs.Run.FailedBlock
import PartProgram.Proofs.Run.FrameChange
import PartProgram.Proofs.Run.InPlace
import PartProgram.Proofs.Run.InPlace.Call
import PartProgram.Proofs.Run.InPlace.Through
import PartProgram.Proofs.Run.Isolation
import PartProgram.Proofs.Run.Like
import PartProgram.Proofs.Run.Mirror
import PartProgram.Proofs.Run.OpenBranch
import PartProgram.Proofs.Run.OpenBranch.Footing
import PartProgram.Proofs.Run.OpenBranch.Markers
import PartProgram.Proofs.Run.OpenBranch.Visit
import PartProgram.Proofs.Run.ProgramEnd
import PartProgram.Proofs.Run.Reach
import PartProgram.Proofs.Run.Snapshot
import PartProgram.Proofs.Run.Snapshot.Direct
import PartProgram.Proofs.Run.Snapshot.Notes
import PartProgram.Proofs.Run.Snapshot.Plane
import PartProgram.Proofs.Run.Structured
import PartProgram.Proofs.Run.Structured.Skipped
import PartProgram.Proofs.Run.Structured.Statement
import PartProgram.Proofs.Run.Structured.Stream
import PartProgram.Proofs.Run.Structured.Tree
import PartProgram.Proofs.Run.Structured.Walk
import PartProgram.Proofs.Run.Temporary
import PartProgram.Proofs.Run.View
import PartProgram.Proofs.Shape
import PartProgram.Proofs.Shape.Block
import PartProgram.Proofs.Shape.Expr
import PartProgram.Proofs.Shape.Instruction
import PartProgram.Proofs.Shape.Statement
import PartProgram.Proofs.Shape.Token
import PartProgram.Proofs.Shape.Yields
import PartProgram.Proofs.SignedWord
import PartProgram.Proofs.SignedWord.Preceded
import PartProgram.Proofs.StrictEvaluation
import PartProgram.ReadError
import PartProgram.Run.Control
import PartProgram.Run.Event
import PartProgram.Run.Execute
import PartProgram.Run.Motion
import PartProgram.Run.Session
import PartProgram.RunError
import PartProgram.Scope
import PartProgram.State
import PartProgram.Statement
import PartProgram.Statement.Reader
import PartProgram.Text.Blank
import PartProgram.Text.Letter
import PartProgram.Token
import PartProgram.Token.Progress
import PartProgram.Token.Scan
import PartProgram.Token.Value
