import Brainfuck.CellSize
import Brainfuck.Offset
import Brainfuck.Instruction
import Brainfuck.Node
import Brainfuck.Node.Traversal
import Brainfuck.Text.Utf8
import Brainfuck.Text.Unprintable
import Brainfuck.Text.ControlFunction
import Brainfuck.Listing
import Brainfuck.Source.Symbol
import Brainfuck.Source.Parse
import Brainfuck.Machine
import Brainfuck.Machine.Run
import Brainfuck.Machine.Rounds
import Brainfuck.Cursor
import Brainfuck.Optimizer.Scan
import Brainfuck.Optimizer.Totals
import Brainfuck.Optimizer.KnownCells
import Brainfuck.Optimizer.Flatten
import Brainfuck.Optimizer.CountedLoop
import Brainfuck.Optimizer.ColdStart
import Brainfuck.Optimizer.Constants
import Brainfuck.Optimizer.DeadCode
import Brainfuck.Optimizer.JoinedWrites
import Brainfuck.Optimizer.Pass
import Brainfuck.CProgram.Statement
import Brainfuck.CProgram.Lines
import Brainfuck.CProgram.Generator
import Brainfuck.Compile
import Brainfuck.CommandLine.Arguments
import Brainfuck.CommandLine.FileTree
import Brainfuck.CommandLine.Report
import Brainfuck.Main
import Brainfuck.Proofs.Cell
import Brainfuck.Proofs.Endless
import Brainfuck.Proofs.Tracking
import Brainfuck.Proofs.Edits
import Brainfuck.Proofs.Replacement
import Brainfuck.Proofs.Flattening
import Brainfuck.Proofs.StraightLine
import Brainfuck.Proofs.CountedLoops
import Brainfuck.Proofs.DelayedWrites
import Brainfuck.Proofs.Knowledge
import Brainfuck.Proofs.Scans
import Brainfuck.Proofs.Passes
import Brainfuck.Proofs.UnseenCode
import Brainfuck.Proofs.Optimization
import Brainfuck.Proofs.Confinement
import Brainfuck.Proofs.Extent
import Brainfuck.Proofs.Grammar
import Brainfuck.Proofs.Compilation
import Brainfuck.Proofs.PassedLoops
import Brainfuck.Proofs.Brackets
import Brainfuck.Proofs.Applicability
import Brainfuck.Proofs.Zipper
import Brainfuck.Proofs.GeneratorCalls
import Brainfuck.Proofs.Persistence
import Brainfuck.Proofs.StepLimits
import Brainfuck.Proofs.Exactness
import Brainfuck.Proofs.Multiplication
import Brainfuck.Proofs.FreshStart
import Brainfuck.Proofs.FileEntries
import Brainfuck.Proofs.AllOrNothing
import Brainfuck.Proofs.ReadBack
import Brainfuck.Proofs.LiteralReading
import Brainfuck.Proofs.Replay
import Brainfuck.Proofs.InteractionOrder
import Brainfuck.Proofs.FlatBodies
import Brainfuck.Proofs.CellArithmetic
import Brainfuck.Proofs.RepeatedEdits
import Brainfuck.Proofs.FlatTrees
import Brainfuck.Proofs.Settling
import Brainfuck.Proofs.FailedRuns
import Brainfuck.Proofs.Comments
import Brainfuck.Proofs.ProgramSize
import Brainfuck.Proofs.NestedPrograms
import Brainfuck.Proofs.TrueRecords
import Brainfuck.Proofs.Sites
import Brainfuck.Proofs.Visits
import Brainfuck.Proofs.Questions
import Brainfuck.Proofs.Sessions
import Brainfuck.Proofs.Reduction
