import MlirInterpreter.Foundations.Recorded
import MlirInterpreter.Foundations.Prog
import MlirInterpreter.Foundations.Dialogue
import MlirInterpreter.Foundations.DenseMap
import MlirInterpreter.Foundations.Pairing
import MlirInterpreter.Foundations.Insensitive
import MlirInterpreter.Foundations.Columns
import MlirInterpreter.Foundations.Monitor
import MlirInterpreter.Foundations.Lockstep
import MlirInterpreter.Foundations.Pointwise
import MlirInterpreter.Sharing.Machine
import MlirInterpreter.Sharing.Budget
import MlirInterpreter.Sharing.SourceOrder
import MlirInterpreter.Sharing.Unique
import MlirInterpreter.Sharing.Costs
import MlirInterpreter.IR
import MlirInterpreter.Engine.Answer
import MlirInterpreter.Engine.State
import MlirInterpreter.Engine.Scope
import MlirInterpreter.Engine.Scripted
import MlirInterpreter.Engine.Compute
import MlirInterpreter.OperationEquivalence
import MlirInterpreter.Equivalence.Correspondence
import MlirInterpreter.Equivalence.Structure
import MlirInterpreter.Equivalence.Operands
import MlirInterpreter.Equivalence.Relation
import MlirInterpreter.Dialects.Defaults
import MlirInterpreter.Equivalence.Hashing
import MlirInterpreter.Dialects.Arith
import MlirInterpreter.Dialects.SCF
import MlirInterpreter.Engine.Frames
import MlirInterpreter.Engine.Growth
import MlirInterpreter.Engine.Logic
import MlirInterpreter.Engine.Query
import MlirInterpreter.Engine.CacheInvariant
import MlirInterpreter.Engine.Discipline
import MlirInterpreter.Engine.Session
import MlirInterpreter.Engine.Budget
import MlirInterpreter.Engine.StoredAnswers
import MlirInterpreter.Engine.EvaluatedOnce
import MlirInterpreter.Engine.Passes
import MlirInterpreter.Engine.Handles
import MlirInterpreter.Engine.Renaming
import MlirInterpreter.Engine.RenamedRuns
import MlirInterpreter.Engine.Replay
import MlirInterpreter.Engine.Typed
import MlirInterpreter.Engine.Moments
import MlirInterpreter.Engine.Soundness
import MlirInterpreter.Dialects.Confined
import MlirInterpreter.Reference.Semantics
import MlirInterpreter.Reference.Properties
import MlirInterpreter.Dialects.Typed
import MlirInterpreter.Reference.ArithKey
import MlirInterpreter.Reference.SemanticKey
import MlirInterpreter.Reference.IterationSpace
import MlirInterpreter.Reference.Congruence
import MlirInterpreter.Dialects.Tidy
import MlirInterpreter.Dialects.Blind
import MlirInterpreter.Reference.DefaultKey
import MlirInterpreter.Evaluation.Environment
import MlirInterpreter.Evaluation.Contract
import MlirInterpreter.Evaluation.Methods
import MlirInterpreter.Evaluation.Comparison
import MlirInterpreter.Evaluation.Loops
import MlirInterpreter.Evaluation.Sound
import MlirInterpreter.Evaluation.Queries
import MlirInterpreter.Evaluation.Faithful
import MlirInterpreter.Evaluation.Widths
import MlirInterpreter.Refinement.Abstraction
import MlirInterpreter.Refinement.Methods
import MlirInterpreter.Refinement.Engine
import MlirInterpreter.Refinement.Compute
import MlirInterpreter.Refinement.Queries
import MlirInterpreter.Refinement.Sharing
import MlirInterpreter.Refinement.SourceOrder
import MlirInterpreter.Refinement.Costs
import MlirInterpreter.Engine.Retaining
import MlirInterpreter.Execution.Semantics
import MlirInterpreter.Execution.Sound
import MlirInterpreter.Tool.Text
import MlirInterpreter.Tool.Names
import MlirInterpreter.Tool.Report
import MlirInterpreter.Tool.Sound
import MlirInterpreter.Tool.Anywhere
