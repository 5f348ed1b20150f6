import Swamp.JsValue
import Swamp.RangeSet
import Swamp.MapOverlay
import Swamp.VersionRanges
import Swamp.Keys
import Swamp.Ops
import Swamp.Partition
import Swamp.PartitionApply
import Swamp.PartitionSound
import Swamp.PartitionSnapshot
import Swamp.PartitionHistory
import Swamp.AppendLog
import Swamp.RestoredPartition
import Swamp.Materialisation
import Swamp.NetReplayPlan
import Swamp.IsolatedKeys
import Swamp.PlannerDecisions
import Swamp.ReplaySimulation
import Swamp.NetReplay
import Swamp.Interleaving
import Swamp.WriterLeaseRecords
import Swamp.WriterLease
import Swamp.WriterLeaseDiscipline
import Swamp.WriterLeaseCalls
import Swamp.WriterLeaseUnique
import Swamp.PublishedLineage
import Swamp.LineageRecords
import Swamp.LineageSafety
import Swamp.OrderedMap
import Swamp.JsText
import Swamp.RepositoryChanges
import Swamp.LatestChoice
import Swamp.OfflineRebase
import Swamp.ExceptRules
import Swamp.RebaseNumbers
import Swamp.CatalogProjection
import Swamp.CatalogAgreement
import Swamp.ModelType
import Swamp.Intents
import Swamp.IntentKeyPaths
import Swamp.KeyIsolation
import Swamp.CommitAuthorization
import Swamp.ReadAccess
import Swamp.CanonicalJson
import Swamp.RunRecords
import Swamp.RunRecordHistory
import Swamp.SegmentCoding
import Swamp.NormalizedTypes
import Swamp.PartitionParse
import Swamp.CommitJson
import Swamp.CommitReading
import Swamp.Rereading
import Swamp.CommitRoundTrip
import Swamp.ReferenceCounts
import Swamp.CommitStore
import Swamp.CompactedBase
import Swamp.Truncation
import Swamp.StoreRuns
import Swamp.ExceptTriples
import Swamp.ChunkReferences
import Swamp.PartitionReplay
import Swamp.StoreStanding
import Swamp.ContinuationClaims
import Swamp.CachedPartitions
import Swamp.CompactedRows
import Swamp.TruncatedRows
import Swamp.StoreUpkeep
import Swamp.CacheTransparency
import Swamp.ChangeFeed
import Swamp.GroupCommit
import Swamp.AccessDecisions
import Swamp.FailClosed
import Swamp.PolicyLoading
import Swamp.ConditionEvaluators
import Swamp.DecideAll
import Swamp.ReadFingerprint
import Swamp.SignalWaitStore
import Swamp.WaitKeyClaims
import Swamp.WaitKeyExclusion
import Swamp.OrderedWalks
import Swamp.TopologicalSort
import Swamp.WorkflowRuns
import Swamp.LatestFlags
import Swamp.ShellScanner
import Swamp.ShellDataPlacement
import Swamp.PlacedData
import Swamp.QueryPredicate
import Swamp.DataQuery
import Swamp.QueryPushdown
import Swamp.QueryAnswers
import Swamp.Rollout
import Swamp.ReservedNumbers
import Swamp.JsonText
import Swamp.HashChain
import Swamp.AuditChain
import Swamp.AuditEvidence
import Swamp.FileLock
import Swamp.FileLockFencing
import Swamp.RingBuffer
import Swamp.AuditEmitter
import Swamp.AuditSinks
import Swamp.AuditDelivery
import Swamp.ChunkSweep
import Swamp.SweepSteps
import Swamp.SweepSafety
import Swamp.ScheduleCatchUp
import Swamp.OutboxRecovery
import Swamp.ReplicationConfirm
import Swamp.AccessExplain
import Swamp.ChunkStore
import Swamp.Layers
import Swamp.TopologicalLevels
import Swamp.LiteralMatch
import Swamp.ExpressionScanner
import Swamp.LiteralOccurrences
import Swamp.JobPairing
import Swamp.RunState
import Swamp.OrphanedRuns
import Swamp.ReachClosure
import Swamp.ResumeReset
import Swamp.EarlySignals
import Swamp.HeldSignals
import Swamp.CommitUnit
import Swamp.TakeoverFence
import Swamp.TakeoverSafety
import Swamp.ProvenancePaths
import Swamp.PathPlaces
import Swamp.ProvenanceMap
import Swamp.GraftedMaps
import Swamp.TrackedSplices
import Swamp.SplicedPieces
import Swamp.SpliceProvenance
import Swamp.MapMarks
import Swamp.MarkLaws
import Swamp.CopyAlignment
import Swamp.PlainScan
import Swamp.TypeDenials
import Swamp.GrantReconciler
import Swamp.GrantFates
import Swamp.GrantConvergence
import Swamp.PatternScans
import Swamp.Masking
import Swamp.SentinelShapes
import Swamp.SecretRegistry
import Swamp.SecretRedactor
import Swamp.Redaction
import Swamp.SecretBags
import Swamp.SentinelDelivery
import Swamp.SentinelizedText
import Swamp.LockfileDelta
import Swamp.LockHandOffs
import Swamp.UploadLedger
import Swamp.UploadQuota
import Swamp.AuditDrops
