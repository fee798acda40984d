import Pclsync.Lib.PostOrder
import Pclsync.Lib.Machine
import Pclsync.FsCrypto.Offsets
import Pclsync.FsCrypto.Layout
import Pclsync.FsCrypto.Invertible
import Pclsync.FsCrypto.Tiling
import Pclsync.Api.Result
import Pclsync.Lib.Transition
import Pclsync.Api.HttpResponse
import Pclsync.Api.Lockstep
import Pclsync.Api.Truncation
import Pclsync.Lib.BinaryTree
import Pclsync.Lib.HeapProgram
import Pclsync.PTree.Nodes
import Pclsync.PTree.Links
import Pclsync.PTree.Rotate
import Pclsync.PTree.Rebalance
import Pclsync.PTree.Walk
import Pclsync.PTree.Operations
import Pclsync.PTree.Deletion
import Pclsync.PTree.Sequence
import Pclsync.Lib.Intervals
import Pclsync.Hash.CrcTables
import Pclsync.Hash.Crc32c
import Pclsync.Hash.FastHash
import Pclsync.IntervalTree.Nodes
import Pclsync.IntervalTree.Cells
import Pclsync.IntervalTree.Addition
import Pclsync.IntervalTree.Removal
import Pclsync.Lib.Files
import Pclsync.Lib.Redo
import Pclsync.FsCrypto.Log
import Pclsync.Lib.TimingWheel
import Pclsync.Timers.Wheel
import Pclsync.Timers.Rounds
import Pclsync.Lib.Counting
import Pclsync.Locks.Calls
import Pclsync.Locks.Places
import Pclsync.Locks.Exclusion
import Pclsync.Locks.Wakeups
import Pclsync.Locks.Views
import Pclsync.Delta.Checksums
import Pclsync.Delta.Download
import Pclsync.Lib.CipherModes
import Pclsync.Crypto.Blocks
import Pclsync.Crypto.Sectors
import Pclsync.Lib.BitStrings
import Pclsync.Crypto.Base32
import Pclsync.Crypto.Names
import Pclsync.Crypto.NameCollisions
import Pclsync.Cache.Sections
import Pclsync.Cache.Holders
import Pclsync.Cache.Owners
import Pclsync.Lib.Partition
import Pclsync.LockedMemory.Blocks
import Pclsync.LockedMemory.Ranges
import Pclsync.LockedMemory.Placement
import Pclsync.LockedMemory.Allocator
import Pclsync.Lib.Checksums
import Pclsync.Delta.Adler
import Pclsync.Delta.Scan
import Pclsync.Delta.Matches
import Pclsync.Delta.Upload
import Pclsync.OpenFile.Index
import Pclsync.OpenFile.ModifyUpload
import Pclsync.OpenFile.Handle
import Pclsync.OpenFile.IndexTruth
import Pclsync.OpenFile.ReadBack
import Pclsync.Tasks.Records
import Pclsync.Tasks.Calls
import Pclsync.Tasks.Visible
import Pclsync.Tasks.FileSystem
import Pclsync.Tasks.Restart
import Pclsync.Tasks.Superseded
import Pclsync.OpenFile.Reopen
import Pclsync.OpenFile.Handshake
import Pclsync.OpenFile.Commit
import Pclsync.PageCache.Pages
import Pclsync.PageCache.Accounting
import Pclsync.PageCache.Counters
import Pclsync.PageCache.SharedApi
import Pclsync.PageCache.SharedStream
import Pclsync.Lib.SearchTree
import Pclsync.PageCache.Urls
import Pclsync.PageCache.UrlCounts
import Pclsync.PageCache.UrlRuns
import Pclsync.PageCache.Waits
import Pclsync.PageCache.Revisions
import Pclsync.PageCache.WaiterLives
import Pclsync.Sql.Transactions
import Pclsync.Syncs.Overlap
import Pclsync.Transfers.Downloads
import Pclsync.Transfers.Slots
import Pclsync.Transfers.Waiting
import Pclsync.Transfers.Uploads
import Pclsync.Transfers.UploadCounts
import Pclsync.Session.CryptoSession
import Pclsync.Session.Keyless
import Pclsync.Lib.Cascade
import Pclsync.Syncs.Rows
import Pclsync.Syncs.Removal
import Pclsync.Syncs.Others
import Pclsync.Tasks.Failures
import Pclsync.Tasks.Lookups
import Pclsync.Syncs.Pairing
import Pclsync.OpenFile.WriteSpace
import Pclsync.OpenFile.Throttle
import Pclsync.Lib.Probing
import Pclsync.PageCache.Flushes
import Pclsync.Transfers.BlockUpload
import Pclsync.Transfers.Resending
import Pclsync.Transfers.TaskRuns
import Pclsync.PageCache.Eviction
import Pclsync.Lib.Buffers
import Pclsync.PageCache.PlainReads
import Pclsync.PageCache.Relabel
import Pclsync.PageCache.Relabeled
import Pclsync.Lib.Narrowing
import Pclsync.Tasks.PathFolders
import Pclsync.Tasks.PathAccess
import Pclsync.Lib.Referenced
import Pclsync.Tasks.Counted
import Pclsync.Tasks.CountedCalls
import Pclsync.Tasks.CountedRules
import Pclsync.Tasks.CountedRuns
import Pclsync.Tasks.Predictions
import Pclsync.PTree.Leaf
import Pclsync.Syncs.DownloadList
import Pclsync.Syncs.LocalFolders
import Pclsync.Lib.RowMajor
import Pclsync.Syncs.ResultRows
import Pclsync.Syncs.ListSort
import Pclsync.Syncs.Renames
import Pclsync.OpenFile.IndexLog
import Pclsync.Lib.Held
import Pclsync.Transfers.UploadTasks
import Pclsync.Crypto.Counter
import Pclsync.PTree.Descent
import Pclsync.FsCrypto.SectorTree
import Pclsync.Lib.Lexicographic
import Pclsync.Password.Dictionary
import Pclsync.Lib.Products
import Pclsync.Password.Score
import Pclsync.Password.Overflow
import Pclsync.Password.Root
import Pclsync.Crypto.LogNames
import Pclsync.Lib.Uses
import Pclsync.Lib.Wildcards
import Pclsync.Lib.Rings
import Pclsync.Lib.Shifting
import Pclsync.Transfers.PeerDownload
import Pclsync.Text.Codecs
import Pclsync.Threads.TaskResults
import Pclsync.Timers.Ratelimited
import Pclsync.Timers.RatelimitedRuns
import Pclsync.Lib.Chunks
import Pclsync.Lists.Builder
import Pclsync.Lists.Filling
import Pclsync.Lists.Collected
import Pclsync.Lists.Built
import Pclsync.OpenFile.MergedRead
import Pclsync.OpenFile.MergedReport
import Pclsync.Crypto.FileKeys
import Pclsync.Crypto.FileKeysRuns
import Pclsync.Names.Patterns
import Pclsync.Names.Conflicted
import Pclsync.Api.Command
import Pclsync.PList.Nodes
import Pclsync.PList.Sort
import Pclsync.PList.Extract
import Pclsync.Delta.Splice
import Pclsync.Delta.HashChains
import Pclsync.Session.StatusWaits
import Pclsync.Session.StatusUpdates
import Pclsync.Api.WriteBuffer
import Pclsync.Transfers.Speed
import Pclsync.Delta.Assembled
