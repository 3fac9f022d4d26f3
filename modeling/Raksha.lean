import Raksha.Lib.ChaoticIteration
import Raksha.Common.Utils
import Raksha.Ir.Module
import Raksha.Ir.SsaNames
import Raksha.Taint.AbstractIfcTags
import Raksha.Taint.InferenceRules
import Raksha.Taint.AbstractSemantics
import Raksha.Analysis.ModuleGraph
import Raksha.Analysis.ModuleFixpointIterator
import Raksha.Analysis.FixpointRuns
import Raksha.Taint.TaintAnalysis
import Raksha.Sql.Operations
import Raksha.Sql.DecodeSqlPolicyRules
import Raksha.Sql.DecodedRules
import Raksha.PolicyEngine.AbstractInterpretationPolicyChecker
import Raksha.Sql.MarkSemantics
import Raksha.Taint.Termination
import Raksha.Sql.Liveness
import Raksha.PolicyEngine.CheckerAborts
import Raksha.PolicyEngine.TaintSoundness
import Raksha.Sql.StaticSolution
import Raksha.Sql.GuardedRuns
import Raksha.PolicyEngine.ScheduleIndependence
import Raksha.Lib.Datalog
import Raksha.Lib.OrderedEnumeration
import Raksha.Souffle.Operations
import Raksha.Souffle.Program
import Raksha.Souffle.ResolvedEdges
import Raksha.Souffle.IntegrityTags
import Raksha.Souffle.ConfidentialityTags
import Raksha.Souffle.SensitivityAnalysis
import Raksha.Souffle.ViolatesPolicy
import Raksha.PolicyEngine.DatalogLoweringVisitor
import Raksha.Sql.AcyclicModules
import Raksha.PolicyEngine.LoweredModules
import Raksha.PolicyEngine.IntegrityAgreement
import Raksha.PolicyEngine.SpecialRules
import Raksha.PolicyEngine.SecrecyAgreement
import Raksha.PolicyEngine.EngineAgreement
import Raksha.Lib.Inevitability
import Raksha.Souffle.IntegrityWalks
import Raksha.PolicyEngine.LoweredOperations
import Raksha.Sql.DecodedActions
import Raksha.Lib.Parsing
import Raksha.Parser.IrGrammar
import Raksha.Parser.IrVisitor
import Raksha.Parser.ParsedModules
import Raksha.PolicyEngine.ParsedFacts
import Raksha.Parser.IrWords
import Raksha.Ir.IrPrinter
import Raksha.Parser.PrintedText
import Raksha.Ir.Isomorphism
import Raksha.Parser.ReadBack
import Raksha.Parser.RoundTrip
import Raksha.Lib.GrowingTables
import Raksha.Ir.DeclaredModule
import Raksha.Ir.Proto
import Raksha.Ir.IrToProto
import Raksha.Ir.ProtoToIr
import Raksha.Ir.ProtoRoundTrip
import Raksha.Ambient.PolicyChecker
import Raksha.Ambient.AcceptedEdges
import Raksha.Parser.TokenTexts
import Raksha.Parser.WellLinked
import Raksha.Lib.UniqueReading
import Raksha.Ir.Datalog
import Raksha.Ir.DatalogText
import Raksha.Souffle.Types
import Raksha.PolicyEngine.LoweredTypes
import Raksha.AuthLogic.Datalog
import Raksha.AuthLogic.Ast
import Raksha.AuthLogic.Lexer
import Raksha.AuthLogic.Grammar
import Raksha.AuthLogic.AstConstruction
import Raksha.AuthLogic.LoweringToDatalog
import Raksha.AuthLogic.LoweredRules
import Raksha.AuthLogic.DelegationChains
import Raksha.AuthLogic.TokenTexts
import Raksha.AuthLogic.SouffleEmitter
import Raksha.AuthLogic.Comparisons
import Raksha.AuthLogic.FreshVariables
import Raksha.AuthLogic.UniverseRelationInsertion
import Raksha.AuthLogic.InsertedUniverses
import Raksha.AuthLogic.RangeRestriction
import Raksha.AuthLogic.StatementReader
import Raksha.AuthLogic.DroppedTexts
import Raksha.Ir.NamedText
import Raksha.Parser.ParseTrees
import Raksha.Parser.ReadWords
import Raksha.Parser.PrintedLines
import Raksha.Parser.NormalForm
import Raksha.Ir.NameTables
import Raksha.Taint.Monotonicity
import Raksha.Analysis.WorklistFixpointIterator
import Raksha.Ir.FieldMaps
import Raksha.Ir.AccessPaths
import Raksha.Ir.TypeProtos
import Raksha.Souffle.Predecessors
import Raksha.Souffle.TagTransforms
import Raksha.Souffle.CheckPredicate
import Raksha.Souffle.OpaqueTags
import Raksha.Lib.ForwardSearch
import Raksha.Souffle.PrivacyPaths
import Raksha.Souffle.DataLeaks
import Raksha.Souffle.MechanismBudgets
import Raksha.AuthLogic.CanSayDeclarations
import Raksha.AuthLogic.GeneratedDeclarations
import Raksha.Analysis.UseDefGraph
import Raksha.Common.ReferenceCounts
import Raksha.AuthLogic.DelegationClosure
import Raksha.Sql.DecodedExpressions
import Raksha.AuthLogic.LargeNumbers
import Raksha.AuthLogic.Sayings
import Raksha.AuthLogic.Influence
import Raksha.PolicyEngine.FactsFile
import Raksha.PolicyEngine.WrittenFacts
import Raksha.Sql.WrittenArenas
import Raksha.Sql.UnusedExpressions
import Raksha.Souffle.PrivateOutputs
import Raksha.Ambient.Multimic
import Raksha.Ambient.MultimicVerdict
import Raksha.Ambient.ConnectedNodes
import Raksha.AuthLogic.EmittedPolicy
import Raksha.AuthLogic.EmittedText
import Raksha.Lib.InformationFlow
import Raksha.Souffle.Noninterference
import Raksha.Sql.DriverSecurity
