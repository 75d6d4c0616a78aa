import BundleStore.Lib.Parties
import BundleStore.Lib.Logged
import BundleStore.Lib.Posix
import BundleStore.Lib.Text
import BundleStore.Lib.Machine
import BundleStore.Model.Sixty
import BundleStore.Model.MurmurHash
import BundleStore.Model.Url
import BundleStore.Analysis.Sixty
import BundleStore.Analysis.EncodedUrl
import BundleStore.Analysis.CanonicalUrl
import BundleStore.Analysis.SixtyNumerals
import BundleStore.Model.Record
import BundleStore.Analysis.WriteReport
import BundleStore.Analysis.ReadReport
import BundleStore.Analysis.ReadRequests
import BundleStore.Model.World
import BundleStore.Analysis.RecordFormat
import BundleStore.Analysis.BatchReadBack
import BundleStore.Model.LockUse
import BundleStore.Analysis.LockMutex
import BundleStore.Analysis.UploadRelease
import BundleStore.Analysis.ThreadedAllocate
import BundleStore.Analysis.AppendOnly
import BundleStore.Analysis.SizeLimit
import BundleStore.Analysis.MasterReplies
import BundleStore.Analysis.OpenNamed
import BundleStore.Analysis.Retransmit
import BundleStore.Analysis.Registration
import BundleStore.Analysis.ChunkPool
import BundleStore.Analysis.Descriptors
import BundleStore.Analysis.ExclusiveOpen
import BundleStore.Analysis.ReadDelivered
import BundleStore.Analysis.PyRecords
import BundleStore.Analysis.MurmurHash
import BundleStore.Model.PyUrl
import BundleStore.Analysis.PyUrl
import BundleStore.Model.PyReader
import BundleStore.Analysis.PyWalk
import BundleStore.Analysis.PyRounds
import BundleStore.Analysis.PyFormat
import BundleStore.Analysis.PyFallback
import BundleStore.Analysis.Multipart
import BundleStore.Analysis.MultipartBounds
import BundleStore.Model.MultipartWords
import BundleStore.Analysis.MultipartSafe
import BundleStore.Analysis.RequestFrames
import BundleStore.Analysis.ChunkReplies
import BundleStore.Analysis.CommandFrames
import BundleStore.Analysis.BlockFrames
import BundleStore.Analysis.WritePlan
import BundleStore.Analysis.LockFrame
import BundleStore.Analysis.RecordSize
import BundleStore.Analysis.RecordHeap
import BundleStore.Model.MasterLookup
import BundleStore.Analysis.PathLookup
import BundleStore.Model.Preload
import BundleStore.Analysis.Preload
import BundleStore.Model.HttpFields
import BundleStore.Analysis.QueryFields
import BundleStore.Analysis.CookiePairs
import BundleStore.Model.ReadWriteLock
import BundleStore.Analysis.ReadWriteLock
import BundleStore.Model.StaticDisk
import BundleStore.Analysis.AllocateEnds
import BundleStore.Model.Continuum
import BundleStore.Analysis.Continuum
import BundleStore.Model.HashCache
import BundleStore.Analysis.HashCache
import BundleStore.Model.ThreadPool
import BundleStore.Analysis.ThreadPool
import BundleStore.Analysis.RingMoves
import BundleStore.Model.MessageQueue
import BundleStore.Analysis.MessageQueue
import BundleStore.Model.JdbcUrl
import BundleStore.Analysis.JdbcUrl
import BundleStore.Analysis.MadeDirs
import BundleStore.Analysis.MkdirsWay
import BundleStore.Analysis.MkdirsTogether
import BundleStore.Model.SoleProcess
import BundleStore.Analysis.FirstFit
import BundleStore.Lib.Alongside
import BundleStore.Model.ReaderCalls
import BundleStore.Analysis.Durable
import BundleStore.Analysis.ReadWhileWriting
import BundleStore.Lib.Carried
import BundleStore.Model.HttpRequest
import BundleStore.Analysis.HttpRequest
import BundleStore.Model.FrameWork
import BundleStore.Model.WebSystem
import BundleStore.Analysis.WebStorage
import BundleStore.Analysis.WebUploads
import BundleStore.Analysis.WebServed
import BundleStore.Lib.Lfsr
import BundleStore.Model.Crc
import BundleStore.Analysis.Crc
import BundleStore.Analysis.CrcCombine
import BundleStore.Analysis.CrcErrors
