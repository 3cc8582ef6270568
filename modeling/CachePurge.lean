import CachePurge.General.Machine
import CachePurge.General.Traces
import CachePurge.General.SiblingTrie
import CachePurge.General.Versions
import CachePurge.General.Leases
import CachePurge.General.Slices
import CachePurge.General.Batches
import CachePurge.General.Tallies
import CachePurge.General.Rounds
import CachePurge.General.ByteOrder
import CachePurge.General.SearchTree
import CachePurge.General.Sections
import CachePurge.General.Codes
import CachePurge.General.Buffers
import CachePurge.General.Widths
import CachePurge.General.SeqLock
import CachePurge.General.Json
import CachePurge.Bytes
import CachePurge.KeyCodec
import CachePurge.GenerationState
import CachePurge.GenerationVersions
import CachePurge.GenerationStorage
import CachePurge.GenerationHistory
import CachePurge.GenerationRequests
import CachePurge.GenerationRuns
import CachePurge.GenerationSnapshots
import CachePurge.GenerationView
import CachePurge.Paths
import CachePurge.Queue
import CachePurge.Worker
import CachePurge.QueueChanges
import CachePurge.QueueCharges
import CachePurge.QueueOperations
import CachePurge.Workers
import CachePurge.WorkerTurns
import CachePurge.WorkerSteps
import CachePurge.QueueRotation
import CachePurge.WorkerSections
import CachePurge.PassCharges
import CachePurge.WorkerOthers
import CachePurge.QueueRetries
import CachePurge.WorkerRuns
import CachePurge.ProtectionHistory
import CachePurge.QueueStatus
import CachePurge.CacheFile
import CachePurge.Refresh
import CachePurge.RefreshPages
import CachePurge.RefreshMoves
import CachePurge.RefreshRuns
import CachePurge.RefreshCompletions
import CachePurge.Walk
import CachePurge.PathProtection
import CachePurge.ProtectionSources
import CachePurge.WalkCoverage
import CachePurge.WalkSlices
import CachePurge.WalkTree
import CachePurge.WalkNames
import CachePurge.Sweep
import CachePurge.SweepSafety
import CachePurge.SweepRuns
import CachePurge.Selectors
import CachePurge.KeyReader
import CachePurge.SweepHistory
import CachePurge.SweepErrors
import CachePurge.Cleanup
import CachePurge.CleanupRuns
import CachePurge.Dispatch
import CachePurge.RefreshCollect
import CachePurge.RefreshGuard
import CachePurge.RefreshSelectors
import CachePurge.RefreshPlaces
import CachePurge.RefreshChain
import CachePurge.RefreshOffers
import CachePurge.Access
import CachePurge.LocationMerge
import CachePurge.CacheTree
import CachePurge.ProbeCredits
import CachePurge.Background
import CachePurge.BackgroundRuns
import CachePurge.BatchPauses
import CachePurge.QueueAge
import CachePurge.Response
import CachePurge.KeyEscape
import CachePurge.KeyText
import CachePurge.XmlReply
import CachePurge.StatusReply
import CachePurge.ZoneSize
import CachePurge.Namespaces
import CachePurge.Lifetimes
import CachePurge.LifetimeRuns
import CachePurge.StatSlots
import CachePurge.Requests
import CachePurge.JsonReplies
import CachePurge.RefreshText
import CachePurge.StatusText
