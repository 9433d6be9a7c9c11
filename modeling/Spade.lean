import Spade.Mir.Types
import Spade.Mir.Syntax
import Spade.Mir.Codegen
import Spade.Mir.Gray2Bin
import Spade.Mir.InstanceNames
import Spade.Mir.EnumLayout
import Spade.Mir.Semantics
import Spade.Mir.FieldAccess
import Spade.Mir.TupleLayout
import Spade.Lib.BitPositions
import Spade.Lib.ClockedMemory
import Spade.Mir.ArrayLayout
import Spade.Mir.MemoryPorts
import Spade.Mir.ArrayRoundTrip
import Spade.Mir.ArrayReordering
import Spade.Mir.Eval
import Spade.Mir.EvalHardware
import Spade.Mir.ConstantViews
import Spade.VcdTranslate.Translation
import Spade.VcdTranslate.Layout
import Spade.VcdTranslate.RoundTrip
import Spade.VcdTranslate.Recorded
import Spade.Mir.Equality
import Spade.Mir.Diff
import Spade.Mir.DivPow2
import Spade.Mir.Aliasing
import Spade.Mir.AliasingMeaning
import Spade.Mir.AutoGating
import Spade.Mir.GatingSimulation
import Spade.Types
import Spade.Hir.Pattern
import Spade.HirLowering.Types
import Spade.HirLowering.ClockedMemory
import Spade.HirLowering.Pipelines
import Spade.HirLowering.PipelineSignals
import Spade.HirLowering.PipelineProtocol
import Spade.HirLowering.Expressions
import Spade.HirLowering.CompileTime
import Spade.HirLowering.Lookups
import Spade.HirLowering.StageVersions
import Spade.HirLowering.Availability
import Spade.HirLowering.Latencies
import Spade.HirLowering.LinearTree
import Spade.HirLowering.LinearState
import Spade.HirLowering.Consumption
import Spade.HirLowering.PatternLowering
import Spade.HirLowering.Layout
import Spade.HirLowering.PatternMeaning
import Spade.HirLowering.MatchMeaning
import Spade.HirLowering.Monomorphisation
import Spade.HirLowering.CompileItems
import Spade.HirLowering.Patterns
import Spade.HirLowering.Coverage
import Spade.HirLowering.Usefulness
import Spade.HirLowering.Exhaustiveness
import Spade.HirLowering.Regions
import Spade.HirLowering.Witnesses
import Spade.Hir.TypeSpec
import Spade.Hir.TypeSubstitution
import Spade.Hir.Expression
import Spade.Ast
import Spade.Parser.Lexer
import Spade.Parser.Lexing
import Spade.Parser.Expression
import Spade.Parser.Stream
import Spade.Parser.Separated
import Spade.Parser.IntegerLiterals
import Spade.Parser.Comments
import Spade.Parser.TypeTexts
import Spade.Parser.Printing
import Spade.Parser.Regroup
import Spade.Parser.PrintParse
import Spade.Hir.SymbolTable
import Spade.Hir.NameLookup
import Spade.Hir.ParamUtil
import Spade.Hir.AliasChains
import Spade.Hir.NameIds
import Spade.Hir.UseHygiene
import Spade.AstLowering.Context
import Spade.AstLowering.Expressions
import Spade.AstLowering.Units
import Spade.AstLowering.Passes
import Spade.AstLowering.Frames
import Spade.AstLowering.SelfContexts
import Spade.AstLowering.TraitMethods
import Spade.AstLowering.TraitOverlap
import Spade.AstLowering.Gathering
import Spade.AstLowering.Restoration
import Spade.Typeinference.TypeVar
import Spade.Typeinference.TypeState
import Spade.Typeinference.Unify
import Spade.Typeinference.Preservation
import Spade.Typeinference.Solutions
import Spade.Typeinference.OccursCheck
import Spade.Typeinference.Shape
import Spade.Typeinference.PlainTypes
import Spade.Typeinference.Completions
import Spade.Typeinference.MethodResolution
import Spade.Typeinference.MirTypeLowering
import Spade.Typeinference.ConcreteInversion
import Spade.Typeinference.Inversion
import Spade.Lib.SignificantBits
import Spade.Typeinference.BitsToRepresent
import Spade.Typeinference.ConstraintLoop
import Spade.Typeinference.Instantiation
import Spade.Typeinference.InversionLaws
import Spade.Typeinference.FieldAccess
import Spade.Typeinference.FitsIntLiteral
import Spade.Stdlib.Cdc
import Spade.Stdlib.Handshake
import Spade.Stdlib.SyncWide
import Spade.Stdlib.Fifo
import Spade.Lib.StateExcept
import Spade.Lib.TwoRuns
import Spade.Lib.Redirect
import Spade.Lib.LeftRecursion
import Spade.Lib.OptionList
import Spade.Lib.Histories
import Spade.Lib.ClockCrossing
import Spade.Lib.GrayCode
import Spade.Lib.BitString
import Spade.Lib.SignedBits
import Spade.Lib.TwosComplement
import Spade.WordlengthInference.Range
import Spade.WordlengthInference.Affine
import Spade.WordlengthInference.AffineStability
import Spade.WordlengthInference.Inferer
import Spade.WordlengthInference.AffineSoundness
import Spade.WordlengthInference.Rounding
import Spade.Lib.FirstWriter
import Spade.Lib.Chains
import Spade.Lib.DataPaths
import Spade.Lib.ElasticPipeline
import Spade.Lib.Verilog
import Spade.Lib.VerilogSizing
import Spade.Lib.Worklists
import Spade.Mir.AlphaEquivalence
import Spade.SimulationExt.FieldRange
import Spade.SimulationExt.Session
import Spade.Lib.Numbering
import Spade.Mir.Renaming
import Spade.Mir.VerilogNames
import Spade.Mir.WalSignals
import Spade.Mir.Preparation
import Spade.Lib.VerilogOperators
import Spade.Mir.Arithmetic
import Spade.HirLowering.Arithmetic
import Spade.Typeinference.PipelineStages
import Spade.Typeinference.StageSolutions
import Spade.HirLowering.StageDepths
import Spade.HirLowering.ModuleNames
