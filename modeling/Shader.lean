import Shader.Command.Job
import Shader.Main
import Shader.Proofs.Grammar
import Shader.Proofs.ParserRuns
import Shader.Proofs.ParserSound
import Shader.Proofs.ParserComplete
import Shader.Proofs.ParserExact
import Shader.Proofs.Tiling
import Shader.Proofs.TokenPlaces
import Shader.Proofs.ErrorOrder
import Shader.Proofs.Lexemes
import Shader.Proofs.Layout
import Shader.Proofs.CheckerRuns
import Shader.Proofs.CheckerExpr
import Shader.Proofs.CheckerExact
import Shader.Proofs.DiagnosticOrder
import Shader.Proofs.BlamedNodes
import Shader.Proofs.Excerpts
import Shader.Proofs.SalvagedTrees
import Shader.Proofs.IntactPrograms
import Shader.Proofs.ParserProgress
import Shader.Proofs.CheckerReuse
import Shader.Proofs.CheckerFrame
import Shader.Proofs.Rechecking
import Shader.Proofs.Accepted
import Shader.Proofs.Folding
import Shader.Proofs.LoweringTotal
import Shader.Proofs.Robustness
import Shader.Proofs.EmittedCode
import Shader.Proofs.SourceSemantics
import Shader.Proofs.ExprSimulation
import Shader.Proofs.Predication
import Shader.Proofs.StmtSimulation
import Shader.Proofs.Preservation
import Shader.Proofs.Noninterference
import Shader.Proofs.FoldingExact
import Shader.Proofs.RegisterNames
import Shader.Proofs.RegisterTable
import Shader.Proofs.AllocatorRuns
import Shader.Proofs.FoldingOrder
import Shader.Proofs.FoldingOutcomes
import Shader.Proofs.SinglePrecision
import Shader.Proofs.FoldedNumbers
import Shader.Proofs.Rendering
import Shader.Proofs.Underlines
import Shader.Proofs.NestedLists
import Shader.Proofs.DumpLayout
import Shader.Proofs.DumpedTrees
import Shader.Proofs.VariableUses
import Shader.Proofs.DeclaredRegisters
import Shader.Proofs.OutputForm
import Shader.Proofs.RegisterRoles
import Shader.Proofs.OneBranch
import Shader.Proofs.AssemblyReader
import Shader.Proofs.ReadableOutput
import Shader.Proofs.ParamTexts
import Shader.Proofs.RenamedPrograms
import Shader.Proofs.Renaming
import Shader.Proofs.Files
import Shader.Proofs.CommandFiles
import Shader.Proofs.WriteSites
import Shader.Proofs.EnclosingBranches
import Shader.Proofs.Traces
import Shader.Proofs.DefinedSources
import Shader.Proofs.DefinedBeforeUse
