import TableParsing.Automaton.Method
import TableParsing.Calculator.Command
import TableParsing.Encoded.Format
import TableParsing.Engine.Predictive
import TableParsing.Engine.ShiftReduce
import TableParsing.Grammar.Completion
import TableParsing.Main
import TableParsing.Propagation.Keyed
import TableParsing.Script
import TableParsing.Table.Prediction
import TableParsing.Proofs.Engine.DefaultReduction
import TableParsing.Proofs.Engine.Safety
import TableParsing.Proofs.Engine.Soundness
import TableParsing.Proofs.Table.Renumbering
import TableParsing.Proofs.Engine.Repair
import TableParsing.Proofs.Engine.Act
import TableParsing.Proofs.Engine.Plan
import TableParsing.Proofs.Engine.ErrorPosition
import TableParsing.Proofs.Engine.Predictive.Correctness
import TableParsing.Proofs.Engine.Agreement
import TableParsing.Proofs.Engine.Termination
import TableParsing.Proofs.Engine.Decoded
import TableParsing.Proofs.Table.Hierarchy
import TableParsing.Proofs.Table.Merging
import TableParsing.Proofs.Grammar.ExactSets
import TableParsing.Proofs.Propagation.Keyed
import TableParsing.Proofs.Automaton.Collection
import TableParsing.Proofs.Engine.Predictive.Guard
import TableParsing.Proofs.Table.Decision
import TableParsing.Proofs.Operators.Declared
import TableParsing.Proofs.Grammar.Naming
import TableParsing.Proofs.Table.PredictionCells
import TableParsing.Proofs.Engine.Reporting
import TableParsing.Proofs.Engine.Expectation
import TableParsing.Proofs.Engine.FatalError
import TableParsing.Proofs.Engine.EndPosition
import TableParsing.Proofs.Engine.ReservedColumns
import TableParsing.Proofs.Engine.NamedValue
import TableParsing.Proofs.Calculator.Lexer
import TableParsing.Proofs.Calculator.Outcome
import TableParsing.Proofs.Automaton.Additivity
import TableParsing.Proofs.Automaton.LookaheadEdges
