import BonsaiNinja.Idg.SummaryPaths
import BonsaiNinja.Idg.PrunedFlows
import BonsaiNinja.Callgraph.CallbackBatches
import BonsaiNinja.Db.GenerationRuns
import BonsaiNinja.Parser.ParseRuns
import BonsaiNinja.Idg.CoreRoundTrip
import BonsaiNinja.Idg.SpillRequests
import BonsaiNinja.Cli.PageWalks
import BonsaiNinja.Vfs.SuffixLookups
import BonsaiNinja.Vfs.SnapshotRuns
import BonsaiNinja.FactStore.HostileFiles
import BonsaiNinja.FactStore.Publication
import BonsaiNinja.Idg.SpillStack
import BonsaiNinja.Idg.EdgeCsr
import BonsaiNinja.Idg.EnumeratedPaths
import BonsaiNinja.Idg.BoundarySpools
import BonsaiNinja.Idg.Dictionaries
import BonsaiNinja.Idg.CrossCallEvidence
import BonsaiNinja.Idg.SuffixPaths
import BonsaiNinja.Idg.CrossFileIndexes
import BonsaiNinja.Idg.AddressDirectories
import BonsaiNinja.AbstractInterp.InterpreterRuns
import BonsaiNinja.Cfg.ExecutableEvents
import BonsaiNinja.Cfg.LexicalTransfers
import BonsaiNinja.Idg.TransformBuilds
import BonsaiNinja.Parser.ReplacementEdit
import BonsaiNinja.Vfs.EditLog
import BonsaiNinja.Common.WeightedBatches
import BonsaiNinja.Idg.HandlerStates
import BonsaiNinja.Parser.SyntaxDamage
import BonsaiNinja.Callgraph.Corridors
import BonsaiNinja.Callgraph.ReceiverAliases
import BonsaiNinja.Idg.WriterHistory
import BonsaiNinja.LangC.PreprocessorMap
import BonsaiNinja.Db.ParallelVisits
import BonsaiNinja.Idg.NodeSetRuns
import BonsaiNinja.Workspace.ExactBodyCache
