import SistOp.PointerHeap
import SistOp.ByteStore
import SistOp.SuccessorChain
import SistOp.FatUtil
import SistOp.FatTable
import SistOp.FatDirEntry
import SistOp.FatFilenameUtil
import SistOp.ShortNames
import SistOp.ClusterChain
import SistOp.ChainWriting
import SistOp.FailedExtension
import SistOp.ChainFreeing
import SistOp.ShortWrites
import SistOp.DestroyedData
import SistOp.DirectorySlots
import SistOp.HierarchyTree
import SistOp.FatFile
import SistOp.FatFsTree
import SistOp.BigBrother
import SistOp.FatFuseOps
import SistOp.FileInit
import SistOp.FilePwrite
import SistOp.FileDelete
import SistOp.AllocationInvariant
import SistOp.EntryCreation
import SistOp.FailedCreation
import SistOp.StaleErrno
import SistOp.FilePread
import SistOp.FileTransfers
import SistOp.ReadSlices
import SistOp.FileTruncate
import SistOp.FullTransfers
import SistOp.ReadOnlyMount
import SistOp.TreeInsertion
import SistOp.SearchTree
import SistOp.TreeShape
import SistOp.InsertedKeys
import SistOp.InsertionOrder
import SistOp.LinkedCells
import SistOp.SiblingLists
import SistOp.HierarchyHistory
import SistOp.TreeDeletion
import SistOp.DeletionHistory
import SistOp.FatVolume
import SistOp.BootGeometry
import SistOp.ClusterFrames
import SistOp.DirectoryListing
import SistOp.DirectoryChildren
import SistOp.DirectoryRemoval
import SistOp.LogDirectory
import SistOp.HiddenDirectory
import SistOp.OpenCounters
import SistOp.ShownChildren
import SistOp.FileModel
import SistOp.ServedFiles
import SistOp.ServedRuns
import SistOp.InterruptedWrites
import SistOp.ClusterlessFiles
import SistOp.Command
import SistOp.LineLexer
import SistOp.Parsing
import SistOp.LineGrammar
import SistOp.LineParsing
import SistOp.LineMeaning
import SistOp.ShippedLexer
import SistOp.ParserCalls
import SistOp.EndOfFile
import SistOp.PrintedPipelines
import SistOp.PrintBuffers
import SistOp.SystemCalls
import SistOp.Builtin
import SistOp.Execute
import SistOp.ExecuteRuns
import SistOp.ShellProcess
import SistOp.PipelineWiring
import SistOp.CommandsRun
import SistOp.HomeVariable
import SistOp.TransitionSystem
import SistOp.NewDirectories
import SistOp.Semaphores
import SistOp.TokenConservation
import SistOp.SemaphoreSteps
import SistOp.SleepWakeup
import SistOp.SemaphoreHandles
import SistOp.SemaphoreCalls
import SistOp.ProcTable
import SistOp.MlfqScheduler
import SistOp.SlotReuse
import SistOp.SchedulerActions
import SistOp.StarvationBound
import SistOp.RuleOne
import SistOp.BlockingPriority
import SistOp.BoostPeriods
import SistOp.Pingpong
import SistOp.PingpongAlternation
import SistOp.PingpongTermination
import SistOp.ClusterSeeking
import SistOp.NameEncoding
import SistOp.PathBlocks
import SistOp.Timestamps
import SistOp.OpenedPaths
import SistOp.DirectoryCounter
import SistOp.DirectoryCycles
import SistOp.FreeClusterSearch
import SistOp.LogDirectorySearch
import SistOp.FirstListings
import SistOp.CompleteListings
import SistOp.RedoLog
import SistOp.DiskLog
import SistOp.LogInvariant
import SistOp.LogRecovery
import SistOp.LogSpace
import SistOp.RingBuffer
import SistOp.Pipes
import SistOp.PipeTransfer
import SistOp.PipeWakeups
import SistOp.Console
import SistOp.ConsoleLines
import SistOp.ProcLifecycle
import SistOp.ProcFamily
import SistOp.ProcReaping
import SistOp.WaitWakeups
import SistOp.LetterLanguages
import SistOp.PatternMatching
import SistOp.GrepLines
