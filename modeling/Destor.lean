import Destor.Archive
import Destor.ArchiveDeletion
import Destor.ArchiveExact
import Destor.ArchiveHeads
import Destor.ArchiveRuns
import Destor.BackupRestore
import Destor.BackupThreads
import Destor.Basic
import Destor.CappingTop
import Destor.CflRuns
import Destor.ChunkOwnership
import Destor.ChunkPhase
import Destor.ChunkProgress
import Destor.Chunking.AeChunking
import Destor.Chunking.FastcdcChunking
import Destor.Chunking.RabinChunking
import Destor.Chunking.RabinHash
import Destor.Cma
import Destor.ContextBased
import Destor.DedupPhase
import Destor.DedupSound
import Destor.DedupThread
import Destor.DeletedUnits
import Destor.DestorStart
import Destor.DirectoryRestore
import Destor.DirectoryTree
import Destor.DoBackup
import Destor.DoDelete
import Destor.ExactDedup
import Destor.FilterPhase
import Destor.FilterStep
import Destor.HandOver
import Destor.HarBackups
import Destor.HarMarks
import Destor.HarRewrite
import Destor.HashPhase
import Destor.Index.BufferMemory
import Destor.Index.CachedContainers
import Destor.Index.ChampionCache
import Destor.Index.ChampionSelection
import Destor.Index.FingerprintCache
import Destor.Index.Index
import Destor.Index.KvstoreDelete
import Destor.Index.KvstoreDump
import Destor.Index.KvstoreHtable
import Destor.Index.ListedUnits
import Destor.Index.PendingElements
import Destor.Index.SampledFeatures
import Destor.Index.SamplingMethod
import Destor.Index.SegmentBounds
import Destor.Index.SegmentingMethod
import Destor.Index.SimilarityDetection
import Destor.IndexLock
import Destor.IndexedUnits
import Destor.JobInvariant
import Destor.Library.AliasedTable
import Destor.Library.Bytes
import Destor.Library.Cutting
import Destor.Library.Decimal
import Destor.Library.FileTree
import Destor.Library.Greedy
import Destor.Library.Lru
import Destor.Library.Operations
import Destor.Library.Outcome
import Destor.Library.Paging
import Destor.Library.PathName
import Destor.Library.Recency
import Destor.Library.RelatedLists
import Destor.Library.Scan
import Destor.Library.SearchTree
import Destor.Library.SortedSeq
import Destor.Library.Stream
import Destor.Library.Text
import Destor.Library.ThreadChain
import Destor.Library.Transition
import Destor.Library.XorLinear
import Destor.Pipeline
import Destor.ReadPhase
import Destor.Recipe.AccessRecords
import Destor.Recipe.RecipeFile
import Destor.Recipe.RecipeReader
import Destor.Recipe.RecipeWriter
import Destor.Recipe.Recipestore
import Destor.Recipe.SegmentIds
import Destor.RecordedFiles
import Destor.RecordedPaths
import Destor.Restore.AssemblyArea
import Destor.Restore.AssemblyBudget
import Destor.Restore.AssemblyRestore
import Destor.Restore.DoRestore
import Destor.Restore.HeldChunks
import Destor.Restore.MonitoredRestore
import Destor.Restore.OptimalEviction
import Destor.Restore.OptimalPaging
import Destor.Restore.OptimalRestore
import Destor.Restore.OptimalWalk
import Destor.Restore.OptimalWindow
import Destor.Restore.PoolFile
import Destor.Restore.RecordedBackup
import Destor.Restore.RestoreAgree
import Destor.Restore.RestoreThreads
import Destor.Restore.SimulatedRestore
import Destor.Restore.WriteRestoreData
import Destor.RewriteBuffer
import Destor.RewriteCode
import Destor.RewriteCounters
import Destor.RewriteDenied
import Destor.RewriteFlow
import Destor.RewriteMarks
import Destor.RewriteMemory
import Destor.RewriteMonitor
import Destor.RewritePhase
import Destor.RewriteRecords
import Destor.RewriteSteps
import Destor.RunStatistics
import Destor.SegmentStep
import Destor.ShadowIndex
import Destor.Storage.ContainerFile
import Destor.Storage.ContainerRoundTrip
import Destor.Storage.Containerstore
import Destor.Storage.FetchedChunk
import Destor.Storage.StoreThreads
import Destor.StorageStep
import Destor.StoreInvariant
import Destor.StoredAccounting
import Destor.StoredContents
import Destor.TracePhase
import Destor.TraceReader
import Destor.Utils.LruCache
import Destor.Utils.LruRecency
import Destor.Utils.LruRuns
import Destor.Utils.Queue
import Destor.Utils.QueuedThreads
import Destor.Utils.Serial
import Destor.Utils.SyncQueue
import Destor.WorkingDirectory
