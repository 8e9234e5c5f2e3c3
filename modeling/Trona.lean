import Trona.Lib.Bitmap
import Trona.Lib.Run
import Trona.Lib.Word
import Trona.Lib.Wp
import Trona.Lib.LockStep
import Trona.Lib.Fold
import Trona.Lib.File
import Trona.Lib.Table
import Trona.Lib.Scan
import Trona.Lib.Memory
import Trona.Uapi.Elf
import Trona.Uapi.Pe
import Trona.Loader.Machine
import Trona.Loader.Place
import Trona.Loader.Image
import Trona.Loader.Region
import Trona.Loader.Elf
import Trona.Loader.ElfDynamic
import Trona.Loader.ElfImage
import Trona.Loader.ElfReloc
import Trona.Loader.ElfWindow
import Trona.Loader.Pe
import Trona.Loader.PeWindow
import Trona.Loader.PeImage
import Trona.Loader.PeReloc
import Trona.Loader.PeBounds
import Trona.Loader.Complete
import Trona.Loader.ElfPhdr
import Trona.Rtld.Pe
import Trona.Rtld.PeReloc
import Trona.Rtld.PeAgree
import Trona.Rtld.PeInside
import Trona.Rtld.Cpio
import Trona.Lib.Iterate
import Trona.Loader.Cpio
import Trona.Rtld.State
import Trona.Rtld.Symbol
import Trona.Rtld.Library
import Trona.Rtld.WriteXorExecute
import Trona.Rtld.Closure
import Trona.Rtld.Bias
import Trona.Rtld.Tls
import Trona.Rtld.TlsLayout
import Trona.Substrate.Layout
import Trona.Substrate.CapTable
import Trona.Substrate.SlotAlloc.Segment
import Trona.Substrate.SlotAlloc.State
import Trona.Substrate.SlotAlloc.Run
import Trona.Substrate.SlotAlloc.Expand
import Trona.Substrate.SlotAlloc.Exhaust
import Trona.Substrate.SlotAlloc.Complete
import Trona.Substrate.Cspace
import Trona.Rtld.Main
import Trona.Rtld.Needed
import Trona.Rtld.Footprint
import Trona.Rtld.LibImage
import Trona.Lib.Bytes
import Trona.Lib.Stores
import Trona.Uapi.Status
import Trona.Posix.Call
import Trona.Posix.Message
import Trona.Posix.Path
import Trona.Posix.Transfer
import Trona.Posix.Reply
import Trona.Posix.Stream
import Trona.Posix.Write
import Trona.Posix.Read
import Trona.Posix.Pwrite
import Trona.Posix.Repeat
import Trona.Posix.SendMsg
import Trona.Posix.Ipv4
import Trona.Win32.Console
import Trona.Lib.Threads
import Trona.Lib.FutexLock
import Trona.Substrate.Sync.Mutex
import Trona.Substrate.Sync.Once
import Trona.Substrate.Sync.Semaphore
import Trona.Substrate.Sync.RwLock
import Trona.Substrate.Sync.RwExclusion
import Trona.Substrate.Sync.Barrier
import Trona.Substrate.Sync.TypedMutex
import Trona.Substrate.Sync.Condvar
import Trona.Posix.Bulk
import Trona.Posix.BulkSetup
import Trona.Posix.Cancel
import Trona.Posix.Signal
import Trona.Posix.Disposition
import Trona.Substrate.ThreadPool
import Trona.Substrate.Fork
import Trona.Posix.ThreadCreate
import Trona.Posix.PoolRun
import Trona.Posix.ThreadLife
import Trona.Posix.Handle
import Trona.Substrate.Worker
import Trona.Substrate.Tls
import Trona.Substrate.TlsHandover
import Trona.Substrate.TlsThread
import Trona.Substrate.TlsStart
