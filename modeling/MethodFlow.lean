import MethodFlow.Main
import MethodFlow.Session
import MethodFlow.Source.Rule
import MethodFlow.Proofs.Finishing
import MethodFlow.Proofs.Strategies
import MethodFlow.Proofs.Stripping
import MethodFlow.Proofs.LeastSolution
import MethodFlow.Proofs.SolvedEquations
import MethodFlow.Proofs.BackwardLeast
import MethodFlow.Proofs.LivePaths
import MethodFlow.Proofs.RoundTrip
import MethodFlow.Proofs.CheckedPhrases
import MethodFlow.Proofs.CheckedBody
import MethodFlow.Proofs.CheckedPrograms
import MethodFlow.Proofs.SearchEnds
import MethodFlow.Proofs.SafePipeline
import MethodFlow.Proofs.Comments
import MethodFlow.Proofs.JoinedPrograms
import MethodFlow.Proofs.KnownOperands
import MethodFlow.Proofs.PlanOrder
import MethodFlow.Proofs.FeasiblePaths
import MethodFlow.Proofs.FreshResults
import MethodFlow.Proofs.SessionRuns
import MethodFlow.Proofs.ConstantWords
import MethodFlow.Proofs.SwitchTests
import MethodFlow.Proofs.UsedVariables
import MethodFlow.Proofs.KeptEffects
import MethodFlow.Proofs.BoundedFacts
import MethodFlow.Proofs.MergedFacts
import MethodFlow.Proofs.FactRegisters
import MethodFlow.Proofs.ControlFlow
import MethodFlow.Proofs.NamesAsAtoms
import MethodFlow.Proofs.LiteralText
import MethodFlow.Proofs.DotLabels
import MethodFlow.Proofs.SyntaxErrors
import MethodFlow.Proofs.TypeRoundTrip
import MethodFlow.Proofs.SpecText
import MethodFlow.Proofs.UntouchedOutputs
