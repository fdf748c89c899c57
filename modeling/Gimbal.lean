import Gimbal.Amplitude
import Gimbal.Binary64
import Gimbal.Binary64.Decimal
import Gimbal.Circuit
import Gimbal.Codec.Circuit
import Gimbal.Codec.Occurrence
import Gimbal.Codec.Table
import Gimbal.Command.Options
import Gimbal.Command.Run
import Gimbal.Compile
import Gimbal.CompileError
import Gimbal.Decimal
import Gimbal.Event
import Gimbal.Expand
import Gimbal.Fault
import Gimbal.Files
import Gimbal.Files.Tree
import Gimbal.Gate
import Gimbal.Json
import Gimbal.Json.Lexer
import Gimbal.Json.Parser
import Gimbal.Keystream
import Gimbal.Main
import Gimbal.Mat
import Gimbal.Mat.Embed
import Gimbal.Mat.Phase
import Gimbal.Mat.Text
import Gimbal.Minimize
import Gimbal.Minimize.QuasiNewton
import Gimbal.Minimize.SimplexSearch
import Gimbal.Objective
import Gimbal.Occurrence
import Gimbal.Populate
import Gimbal.Proofs.Exact
import Gimbal.Proofs.Operator
import Gimbal.Proofs.Placement
import Gimbal.Reduce
import Gimbal.Register
import Gimbal.Scalar
import Gimbal.Step
import Gimbal.Synthesis
import Gimbal.Table
import Gimbal.Template
import Gimbal.Proofs.Rules
import Gimbal.Proofs.NormalForm
import Gimbal.Proofs.CircuitOperator
import Gimbal.Proofs.ExactRules
import Gimbal.Proofs.Turn
import Gimbal.Proofs.UnitaryCircuit
import Gimbal.Proofs.ReductionMeaning
import Gimbal.Proofs.Binding
import Gimbal.Proofs.Definedness
import Gimbal.Proofs.SourceOperator
import Gimbal.Proofs.ExpansionMeaning
import Gimbal.Proofs.Containment
import Gimbal.Proofs.PhaseCheck
import Gimbal.Proofs.TemplateMeaning
import Gimbal.Proofs.SynthesisOutcome
import Gimbal.Proofs.Population
import Gimbal.Proofs.Acceptance
import Gimbal.Proofs.Unitarity
import Gimbal.Proofs.Provenance
import Gimbal.Proofs.MinimizerRuns
import Gimbal.Proofs.SynthesisTotality
import Gimbal.Proofs.TemplateDistance
import Gimbal.Proofs.LenientSearch
import Gimbal.Proofs.RoundedResidual
import Gimbal.Proofs.SourceUnitarity
import Gimbal.Proofs.NumeralText
import Gimbal.Proofs.TableFilling
import Gimbal.Proofs.JsonText
import Gimbal.Proofs.OccurrenceText
import Gimbal.Proofs.FloatRange
import Gimbal.Proofs.TableText
import Gimbal.Proofs.FiniteAngles
import Gimbal.Proofs.Rerun
import Gimbal.Proofs.SavedText
import Gimbal.Proofs.Renaming
import Gimbal.Proofs.RememberedTurns
import Gimbal.Proofs.EulerAngles
import Gimbal.Proofs.SearchBox
import Gimbal.Proofs.ControlledReflection
import Gimbal.Proofs.MaskedDistance
import Gimbal.Proofs.OutOfReach
import Gimbal.Proofs.EmbeddingLaws
import Gimbal.Proofs.GlobalPhase
import Gimbal.Proofs.FitUpToPhase
import Gimbal.Proofs.DisjointQubits
import Gimbal.Proofs.KroneckerBlocks
import Gimbal.Proofs.CircuitExtension
import Gimbal.Proofs.Exchanges
import Gimbal.Proofs.CanonicalAngles
import Gimbal.Proofs.SearchTrace
import Gimbal.Proofs.BoxedSearch
import Gimbal.Proofs.SimplexInvariants
import Gimbal.Proofs.QuasiNewtonInvariants
import Gimbal.Proofs.SearchRegion
import Gimbal.Proofs.CurvatureWindow
import Gimbal.Proofs.InverseHessian
import Gimbal.Proofs.SearchDescent
import Gimbal.Proofs.EmbeddingDomain
import Gimbal.Proofs.KroneckerLaws
