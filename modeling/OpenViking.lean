import OpenViking.ApiKeys.AdminApi
import OpenViking.ApiKeys.AdminCalls
import OpenViking.ApiKeys.Failures
import OpenViking.ApiKeys.Histories
import OpenViking.ApiKeys.Keys
import OpenViking.ApiKeys.Loading
import OpenViking.ApiKeys.Manager
import OpenViking.ApiKeys.Operations
import OpenViking.ApiKeys.Registry
import OpenViking.ApiKeys.Saves
import OpenViking.Cache.Generations
import OpenViking.Cache.Objects
import OpenViking.Cache.Transparency
import OpenViking.Cache.Wrapper
import OpenViking.Common.Base64
import OpenViking.Common.Batches
import OpenViking.Common.Bisect
import OpenViking.Common.BitWords
import OpenViking.Common.BoundedWalk
import OpenViking.Common.Buffer
import OpenViking.Common.Crashes
import OpenViking.Common.Decimal
import OpenViking.Common.Dict
import OpenViking.Common.EditDistance
import OpenViking.Common.Json
import OpenViking.Common.JsonLines
import OpenViking.Common.JsonStrings
import OpenViking.Common.KeyedLog
import OpenViking.Common.KeyedPass
import OpenViking.Common.LikePattern
import OpenViking.Common.Lineage
import OpenViking.Common.NamedTree
import OpenViking.Common.Paging
import OpenViking.Common.Prog
import OpenViking.Common.Room
import OpenViking.Common.RowTable
import OpenViking.Common.Slashes
import OpenViking.Common.SortedMap
import OpenViking.Common.StateSpec
import OpenViking.Common.System
import OpenViking.Common.TopK
import OpenViking.Content.ContentWrite
import OpenViking.Content.WriteOrder
import OpenViking.Fs.Access
import OpenViking.Fs.Guards
import OpenViking.Fs.Snapshots
import OpenViking.Fs.Uri
import OpenViking.Fs.UriPaths
import OpenViking.Git.Changes
import OpenViking.Git.Commit
import OpenViking.Git.CommitKinds
import OpenViking.Git.CommitRun
import OpenViking.Git.CommitScan
import OpenViking.Git.CommitSnapshot
import OpenViking.Git.EditorRuns
import OpenViking.Git.EditorSplice
import OpenViking.Git.EditorUpdates
import OpenViking.Git.EditorWrite
import OpenViking.Git.IndexRuns
import OpenViking.Git.KindChanges
import OpenViking.Git.RefStore
import OpenViking.Git.Restore
import OpenViking.Git.RoundTrip
import OpenViking.Git.Tree
import OpenViking.Git.TreeEditor
import OpenViking.Git.WorkTree
import OpenViking.Git.Writeback
import OpenViking.Memory.FieldsComment
import OpenViking.Memory.FuzzySearch
import OpenViking.Memory.MemoryFile
import OpenViking.Memory.PatchCrashes
import OpenViking.Memory.PatchPlaces
import OpenViking.Memory.PatchWhole
import OpenViking.Memory.StrPatch
import OpenViking.Memory.StreamingBatcher
import OpenViking.OAuth.Minting
import OpenViking.OAuth.OneChain
import OpenViking.OAuth.Requests
import OpenViking.OAuth.Store
import OpenViking.Queue.Coalescing
import OpenViking.Queue.DagFinish
import OpenViking.Queue.DagInvariant
import OpenViking.Queue.DagOrder
import OpenViking.Queue.NamedQueue
import OpenViking.Queue.QueueLedger
import OpenViking.Queue.QueueNames
import OpenViking.Queue.SemanticDag
import OpenViking.Queue.SemanticProcessor
import OpenViking.Queue.SqliteQueue
import OpenViking.Queue.SyncFailures
import OpenViking.Queue.SyncMirror
import OpenViking.Queue.SyncReport
import OpenViking.Queue.TreeSync
import OpenViking.Ragfs.AgfsGrep
import OpenViking.Ragfs.Basic
import OpenViking.Ragfs.EncryptedAccounts
import OpenViking.Ragfs.EncryptedWriters
import OpenViking.Ragfs.Encryption
import OpenViking.Ragfs.Glob
import OpenViking.Ragfs.GlobPages
import OpenViking.Ragfs.GlobWalk
import OpenViking.Ragfs.Grep
import OpenViking.Ragfs.Listing
import OpenViking.Ragfs.MemFs
import OpenViking.Ragfs.MemPaths
import OpenViking.Ragfs.MemTree
import OpenViking.Ragfs.Mounts
import OpenViking.Ragfs.MultiWrite
import OpenViking.Ragfs.RangeReads
import OpenViking.Ragfs.TreeListing
import OpenViking.Ragfs.VisibleTree
import OpenViking.Session.ActiveBudget
import OpenViking.Session.ActiveHoles
import OpenViking.Session.ActiveMessages
import OpenViking.Session.GroupTruncation
import OpenViking.Session.Message
import OpenViking.Session.MessageLog
import OpenViking.Session.PendingTokens
import OpenViking.Session.Retention
import OpenViking.Session.Truncation
import OpenViking.Session.Turns
import OpenViking.Transaction.Agfs
import OpenViking.Transaction.Checks
import OpenViking.Transaction.Coverage
import OpenViking.Transaction.Exclusion
import OpenViking.Transaction.Leak
import OpenViking.Transaction.LockAgreement
import OpenViking.Transaction.LockContext
import OpenViking.Transaction.LockText
import OpenViking.Transaction.PathLock
import OpenViking.Transaction.Secure
import OpenViking.Transaction.TreeAcquire
import OpenViking.Transaction.TreeExclusion
import OpenViking.Transaction.TreeLook
import OpenViking.Transaction.TreeProtocol
import OpenViking.VectorDB.Barrier
import OpenViking.VectorDB.Bitmap
import OpenViking.VectorDB.BytesRow
import OpenViking.VectorDB.Collection
import OpenViking.VectorDB.Concurrent
import OpenViking.VectorDB.DeltaLog
import OpenViking.VectorDB.DirIndex
import OpenViking.VectorDB.EqualityFilter
import OpenViking.VectorDB.Expiry
import OpenViking.VectorDB.ExpirySound
import OpenViking.VectorDB.FieldGroups
import OpenViking.VectorDB.FieldValues
import OpenViking.VectorDB.Filter
import OpenViking.VectorDB.FilterRouting
import OpenViking.VectorDB.FlatCalls
import OpenViking.VectorDB.FlatIndex
import OpenViking.VectorDB.FlatRuns
import OpenViking.VectorDB.FlatSearch
import OpenViking.VectorDB.FlatSound
import OpenViking.VectorDB.FlatTable
import OpenViking.VectorDB.FullIndex
import OpenViking.VectorDB.HeldValues
import OpenViking.VectorDB.Index
import OpenViking.VectorDB.RangedCenter
import OpenViking.VectorDB.RangedMap
import OpenViking.VectorDB.RangedMapOrder
import OpenViking.VectorDB.RangedNearest
import OpenViking.VectorDB.RangedParts
import OpenViking.VectorDB.RangedQueries
import OpenViking.VectorDB.Recovery
import OpenViking.VectorDB.RowAgreement
import OpenViking.VectorDB.RowCodec
import OpenViking.VectorDB.RowDecode
import OpenViking.VectorDB.RowLayout
import OpenViking.VectorDB.RowOrder
import OpenViking.VectorDB.RowPacking
import OpenViking.VectorDB.ScalarIndex
import OpenViking.VectorDB.SortFields
import OpenViking.VectorDB.SortOps
import OpenViking.VectorDB.SparseRows
import OpenViking.VectorDB.Store
import OpenViking.VectorDB.StoreManager
import OpenViking.VectorDB.StoreScan
import OpenViking.VectorDB.TrieCodec
import OpenViking.VectorDB.TrieQueries
import OpenViking.Wiki.CardCache
import OpenViking.Wiki.CardReload
import OpenViking.Wiki.CardStore
import OpenViking.Wiki.NodeDocuments
import OpenViking.Wiki.Schemas
