import CoreCalculus.Literal
import CoreCalculus.Pattern
import CoreCalculus.Term
import CoreCalculus.Text
import CoreCalculus.Term.Printer
import CoreCalculus.Table
import CoreCalculus.Supply
import CoreCalculus.Term.Substitution
import CoreCalculus.Run
import CoreCalculus.Matching
import CoreCalculus.Evaluation
import CoreCalculus.Code.Shape
import CoreCalculus.Code
import CoreCalculus.Code.Printer
import CoreCalculus.Mixed
import CoreCalculus.Mixed.Bracket
import CoreCalculus.Code.Reduction
import CoreCalculus.Ty
import CoreCalculus.Ty.Printer
import CoreCalculus.Ty.Solution
import CoreCalculus.Ty.Unification
import CoreCalculus.Typing.Context
import CoreCalculus.Typing.Error
import CoreCalculus.Typing.Coverage
import CoreCalculus.Typing.Inference
import CoreCalculus.Proofs.Assignment
import CoreCalculus.Proofs.Fuel
import CoreCalculus.Proofs.Solution
import CoreCalculus.Proofs.Freshness
import CoreCalculus.Proofs.Nameless
import CoreCalculus.Proofs.Substitution
import CoreCalculus.Proofs.Unification
import CoreCalculus.Proofs.UnificationSession
import CoreCalculus.Proofs.UnificationTermination
import CoreCalculus.Proofs.Closing
import CoreCalculus.Proofs.OpenContext
import CoreCalculus.Proofs.Session
import CoreCalculus.Proofs.InferenceMeaning
import CoreCalculus.Proofs.PrincipalTypes
import CoreCalculus.Proofs.JustifiedErrors
import CoreCalculus.Proofs.Circulation
import CoreCalculus.Proofs.Instantiation
import CoreCalculus.Proofs.MintedIds
import CoreCalculus.Proofs.WordIds
import CoreCalculus.Proofs.TypedSubstitution
import CoreCalculus.Proofs.Preservation
import CoreCalculus.Proofs.Capture
import CoreCalculus.Proofs.BigStep
import CoreCalculus.Proofs.Failure
import CoreCalculus.Proofs.Closed
import CoreCalculus.Proofs.TextProperty
import CoreCalculus.Proofs.Progress
import CoreCalculus.Proofs.Compilation
import CoreCalculus.Proofs.Beta
import CoreCalculus.Proofs.AlphaEquivalence
import CoreCalculus.Proofs.AlphaCompilation
import CoreCalculus.Proofs.AlphaEvaluation
import CoreCalculus.Proofs.Finality
import CoreCalculus.Proofs.ScopeSubstitution
import CoreCalculus.Proofs.Yields
import CoreCalculus.Proofs.HeadReduction
import CoreCalculus.Proofs.Stability
import CoreCalculus.Proofs.SpineReduction
import CoreCalculus.Proofs.Delay
import CoreCalculus.Proofs.Simulation
import CoreCalculus.Proofs.Agreement
import CoreCalculus.Proofs.Twins
import CoreCalculus.Proofs.TwinReduction
import CoreCalculus.Proofs.FunctionParts
import CoreCalculus.Proofs.NormalForm
import CoreCalculus.Proofs.Optimization
import CoreCalculus.Proofs.OptimizedSize
import CoreCalculus.Proofs.FunctionRecursion
import CoreCalculus.Proofs.Laziness
import CoreCalculus.Proofs.Exhaustiveness
import CoreCalculus.Proofs.ExactCoverage
import CoreCalculus.Proofs.Tokens
import CoreCalculus.Proofs.Reading
import CoreCalculus.Proofs.TypedReduction
import CoreCalculus.Proofs.CaseSelection
import CoreCalculus.Proofs.PatternInstances
import CoreCalculus.Proofs.OperatorAgreement
import CoreCalculus.Proofs.UnrenamedSubstitution
import CoreCalculus.Proofs.TypeNormalization
import CoreCalculus.Proofs.Flattening
import CoreCalculus.Proofs.Words
import CoreCalculus.Proofs.TypeReading
import CoreCalculus.Proofs.InferenceHints
