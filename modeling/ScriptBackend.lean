import ScriptBackend.CommandLine.FileTree
import ScriptBackend.Lowering.Compiled
import ScriptBackend.Main
import ScriptBackend.Proofs.Assembly.Expansion
import ScriptBackend.Proofs.Assembly.Artifact
import ScriptBackend.Proofs.Assembly.RoundTrip
import ScriptBackend.Proofs.Assembly.Definitions
import ScriptBackend.Proofs.Lowering.CompiledData
import ScriptBackend.Proofs.Lowering.ConstantFolding
import ScriptBackend.Proofs.Lowering.StorageClasses
import ScriptBackend.Proofs.Lowering.ControlFlow
import ScriptBackend.Proofs.Lowering.BalancedExpressions
import ScriptBackend.Proofs.Lowering.BalancedStatements
import ScriptBackend.Proofs.Lowering.StackDiscipline
import ScriptBackend.Proofs.Lowering.FrameSafety
import ScriptBackend.Proofs.Lowering.LinkedFunctions
import ScriptBackend.Proofs.Assembly.LocalLabels
import ScriptBackend.Proofs.Lowering.NativeEntries
import ScriptBackend.Proofs.Lowering.ScratchSpace
import ScriptBackend.Proofs.Assembly.ArtifactBounds
import ScriptBackend.Proofs.Assembly.DeclaredData
import ScriptBackend.Proofs.Assembly.UnitStrings
import ScriptBackend.Proofs.Assembly.Extension
import ScriptBackend.Proofs.Assembly.Reassembly
import ScriptBackend.Proofs.Assembly.FlatForm
import ScriptBackend.Proofs.Assembly.FunctionNames
import ScriptBackend.Proofs.Assembly.Interleaving
import ScriptBackend.Proofs.Lowering.ShortCircuit
import ScriptBackend.Proofs.Assembly.OperandWidths
import ScriptBackend.Proofs.Lowering.LocalDefaults
import ScriptBackend.Proofs.Lowering.Places
import ScriptBackend.Proofs.Lowering.CallCounts
import ScriptBackend.Proofs.Instruction.Partition
import ScriptBackend.Proofs.NativeDatabase
import ScriptBackend.Proofs.NativeTable.Runs
import ScriptBackend.Proofs.Program.LayoutQueries
