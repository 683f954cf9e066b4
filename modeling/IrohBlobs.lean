import IrohBlobs.RangeSet
import IrohBlobs.RangeIter
import IrohBlobs.RangeSpec
import IrohBlobs.Protocol
import IrohBlobs.RangeWire
import IrohBlobs.HashSeq
import IrohBlobs.RangeViews
import IrohBlobs.Schedule
import IrohBlobs.ExportBao
import IrohBlobs.ExportRanges
import IrohBlobs.BlobReader
import IrohBlobs.Provider
import IrohBlobs.Gc
import IrohBlobs.Get
import IrohBlobs.Canonical
import IrohBlobs.GetMany
import IrohBlobs.Split
import IrohBlobs.Events
import IrohBlobs.Codec
import IrohBlobs.RequestWire
import IrohBlobs.StateMachine
import IrohBlobs.PathBuf
import IrohBlobs.Meta
import IrohBlobs.FinishImport
import IrohBlobs.Fuel
import IrohBlobs.Merkle
import IrohBlobs.BaoTree
import IrohBlobs.Bitfield
import IrohBlobs.BitfieldLattice
import IrohBlobs.BitfieldUpdate
import IrohBlobs.Observe
import IrohBlobs.LocalInfo
import IrohBlobs.Missing
import IrohBlobs.TotalBytes
import IrohBlobs.Content
import IrohBlobs.BaoFile
import IrohBlobs.Provable
import IrohBlobs.Traverse
import IrohBlobs.ImportBao
import IrohBlobs.ImportFs
import IrohBlobs.FsExport
import IrohBlobs.ImportMem
import IrohBlobs.StaysProvable
import IrohBlobs.MemCompletion
import IrohBlobs.ExportSound
import IrohBlobs.CurrentSize
import IrohBlobs.BatchedActor
import IrohBlobs.MetaActor
import IrohBlobs.TagRange
import IrohBlobs.InlineRows
import IrohBlobs.Leaks
import IrohBlobs.GcRun
import IrohBlobs.EntityManager
import IrohBlobs.EntityShutdown
import IrohBlobs.ConnectionPool
import IrohBlobs.ConnectionUse
import IrohBlobs.FsHandle
import IrohBlobs.HandleEntry
import IrohBlobs.ImportAlike
import IrohBlobs.Bracketing
import IrohBlobs.EntryUnion
import IrohBlobs.ExternalPaths
import IrohBlobs.BaseEncoding
import IrohBlobs.HashParse
import IrohBlobs.InitOutboard
import IrohBlobs.BitfieldWire
import IrohBlobs.Collection
import IrohBlobs.TempTags
import IrohBlobs.SyncLocal
import IrohBlobs.LazyHashSeq
import IrohBlobs.StoredSeq
import IrohBlobs.Download
import IrohBlobs.PrefixSum
import IrohBlobs.RandomChunk
import IrohBlobs.SparseMemFile
import IrohBlobs.UnsyncedFile
import IrohBlobs.BitfieldFile
import IrohBlobs.Reconstruct
import IrohBlobs.FsDisk
import IrohBlobs.DiskInv
import IrohBlobs.NoOverclaim
import IrohBlobs.RunTrace
import IrohBlobs.TransferEvents
import IrohBlobs.TransferSession
import IrohBlobs.Push
import IrohBlobs.SortedTable
import IrohBlobs.TagStores
import IrohBlobs.MerkleStream
import IrohBlobs.GetFsm
import IrohBlobs.GetRequests
import IrohBlobs.GetSink
import IrohBlobs.OverTheWire
