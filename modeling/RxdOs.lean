import RxdOs.Base.Assert
import RxdOs.Lib.Execution
import RxdOs.Lib.Ownership
import RxdOs.Lib.Search
import RxdOs.Mm.Memory
import RxdOs.Mm.PageSafety
import RxdOs.Blk.Request
import RxdOs.Blk.RequestTable
import RxdOs.Blk.Buffer
import RxdOs.Blk.BufferCoherence
import RxdOs.Lib.IndexChain
import RxdOs.Mm.SlabCache
import RxdOs.Mm.SlabSafety
import RxdOs.Fs.Bitmap
import RxdOs.Base.Int32
import RxdOs.Fs.Layout
import RxdOs.Fs.Zone
import RxdOs.Fs.ZoneMap
import RxdOs.Fs.InodeCache
import RxdOs.Fs.ZoneAccounting
import RxdOs.Fs.InodeRegion
import RxdOs.Fs.Name
import RxdOs.Fs.Dir
import RxdOs.Base.ListHead
import RxdOs.Fs.DentryCache
import RxdOs.Fs.Open
import RxdOs.Fs.CacheReach
import RxdOs.Fs.PathWalk
import RxdOs.Fs.DescriptorTable
import RxdOs.Fs.OpenBalance
import RxdOs.Kernel.Proc
import RxdOs.Kernel.Scheduler
import RxdOs.Mm.Paging
import RxdOs.Kernel.Fork
import RxdOs.Kernel.TaskWindow
import RxdOs.Kernel.ForkReturn
import RxdOs.Kernel.SharedFiles
import RxdOs.Fs.OpenSafety
import RxdOs.Fs.FileBytes
import RxdOs.Fs.Directory
import RxdOs.Fs.UnwrittenBytes
import RxdOs.Lib.CircularList
import RxdOs.Fs.AliasLists
import RxdOs.Fs.PathResolution
import RxdOs.Mm.PageFit
import RxdOs.Mm.SlabGeometry
import RxdOs.Blk.Hd
import RxdOs.Blk.BufferHolds
import RxdOs.Blk.FailedReads
import RxdOs.Lib.RingBuffer
import RxdOs.Kernel.Queue
import RxdOs.Kernel.Keyboard
import RxdOs.Kernel.Io
import RxdOs.Kernel.KeyStream
import RxdOs.Fs.FileRead
import RxdOs.Fs.FileWrite
import RxdOs.Fs.FileIo
import RxdOs.Fs.InodeRecord
import RxdOs.Mm.PageFrees
import RxdOs.Mm.PageRange
import RxdOs.Fs.BitmapSet
import RxdOs.Kernel.WriteFault
import RxdOs.Fs.ReadEnd
import RxdOs.Fs.PathIterators
import RxdOs.Mm.SlabDestroy
import RxdOs.Blk.BufferInit
import RxdOs.Blk.HdAddress
import RxdOs.Lib.PrivateMemory
import RxdOs.Kernel.Isolation
import RxdOs.Fs.InodeTable
import RxdOs.Fs.WriteThrough
import RxdOs.Kernel.Descriptor
import RxdOs.Lib.BlockCopy
import RxdOs.Libk.Str
import RxdOs.Libk.Strncmp
import RxdOs.Blk.PioWait
import RxdOs.Libk.Printk
import RxdOs.Libk.Itoa
import RxdOs.Libk.Itoaf
import RxdOs.Lib.Grammar
import RxdOs.Libk.Vsprintf
import RxdOs.Libk.FormatGrammar
import RxdOs.Libk.Formatter
import RxdOs.Libk.Vfprintf
import RxdOs.Boot.Cpu
import RxdOs.Boot.MemSize
import RxdOs.Boot.ReadBootDev
import RxdOs.Fs.KernelString
import RxdOs.Lib.BoundedFifo
import RxdOs.Kernel.QueueRefinement
import RxdOs.Lib.PprevList
import RxdOs.Lib.DisjointLists
import RxdOs.Base.HlistHead
import RxdOs.Base.ListRuns
import RxdOs.Fs.RootDirectory
import RxdOs.Fs.NamedCache
import RxdOs.Fs.UserPaths
import RxdOs.Lib.NamedFiles
import RxdOs.Fs.FileBodies
import RxdOs.Fs.FileStore
import RxdOs.Fs.Persistence
import RxdOs.Lib.BlockPrograms
import RxdOs.Blk.BlockVisits
import RxdOs.Fs.BlockFunctions
import RxdOs.Fs.BlockCalls
import RxdOs.Fs.CachedFiles
import RxdOs.Fs.PowerLoss
import RxdOs.Fs.Message
import RxdOs.Fs.Transfers
