import Nyxis.Boot.Handover
import Nyxis.Boot.KernelMain
import Nyxis.Boot.MemoryMap
import Nyxis.Boot.Multiboot2
import Nyxis.Boot.Tags
import Nyxis.Bootloader.KernelImage
import Nyxis.Console.Format
import Nyxis.Console.Keyboard
import Nyxis.Console.Printk
import Nyxis.Fat16.Directory
import Nyxis.Fat16.File
import Nyxis.Fat16.Lookup
import Nyxis.Fat16.Store
import Nyxis.Fat16.Volume
import Nyxis.Graphics.Line
import Nyxis.KernelLib.Memory
import Nyxis.Lib.Assigned
import Nyxis.Lib.Bitmap
import Nyxis.Lib.ByteMap
import Nyxis.Lib.Bytes
import Nyxis.Lib.Copying
import Nyxis.Lib.Crc
import Nyxis.Lib.Effect
import Nyxis.Lib.Linked
import Nyxis.Lib.Moved
import Nyxis.Lib.NameTree
import Nyxis.Lib.Rotation
import Nyxis.Lib.Straight
import Nyxis.Lib.TableTree
import Nyxis.Mm.Concurrent
import Nyxis.Mm.Contents
import Nyxis.Mm.Destroy
import Nyxis.Mm.FreeCount
import Nyxis.Mm.KernelAlias
import Nyxis.Mm.KernelBuild
import Nyxis.Mm.KernelDirect
import Nyxis.Mm.KernelMap
import Nyxis.Mm.Ledger
import Nyxis.Mm.Mapping
import Nyxis.Mm.Paging
import Nyxis.Mm.Pfa
import Nyxis.Mm.Seeding
import Nyxis.Mm.Translation
import Nyxis.Mm.UserRange
import Nyxis.Nyfs.Access
import Nyxis.Nyfs.Agreement
import Nyxis.Nyfs.Allocation
import Nyxis.Nyfs.Cache
import Nyxis.Nyfs.CacheAccess
import Nyxis.Nyfs.CacheAnswers
import Nyxis.Nyfs.CacheCalls
import Nyxis.Nyfs.CacheRuns
import Nyxis.Nyfs.Checksums
import Nyxis.Nyfs.Contents
import Nyxis.Nyfs.Core
import Nyxis.Nyfs.CreateErrors
import Nyxis.Nyfs.Directory
import Nyxis.Nyfs.Dirhash
import Nyxis.Nyfs.Disk
import Nyxis.Nyfs.Extent
import Nyxis.Nyfs.Failures
import Nyxis.Nyfs.FileTree
import Nyxis.Nyfs.Format
import Nyxis.Nyfs.Fuse
import Nyxis.Nyfs.FuseListing
import Nyxis.Nyfs.FuseMeaning
import Nyxis.Nyfs.FuseNames
import Nyxis.Nyfs.FuseTree
import Nyxis.Nyfs.Growth
import Nyxis.Nyfs.HostPath
import Nyxis.Nyfs.Inheritance
import Nyxis.Nyfs.Inventory
import Nyxis.Nyfs.Isolation
import Nyxis.Nyfs.Kernel
import Nyxis.Nyfs.Layouts
import Nyxis.Nyfs.Names
import Nyxis.Nyfs.Operations
import Nyxis.Nyfs.Owners
import Nyxis.Nyfs.Permissions
import Nyxis.Nyfs.Pools
import Nyxis.Nyfs.Release
import Nyxis.Nyfs.RenameTree
import Nyxis.Nyfs.Runs
import Nyxis.Nyfs.Sessions
import Nyxis.Nyfs.Steps
import Nyxis.Nyfs.Store
import Nyxis.Nyfs.Stream
import Nyxis.Nyfs.Table
import Nyxis.Nyfs.Updates
import Nyxis.Nyfs.View
import Nyxis.Nyfs.Volume
import Nyxis.Process.Elf
import Nyxis.Process.ElfRun
import Nyxis.Process.Fairness
import Nyxis.Process.Heap
import Nyxis.Process.HeapFrames
import Nyxis.Process.Identifiers
import Nyxis.Process.Image
import Nyxis.Process.Lifecycle
import Nyxis.Process.Ownership
import Nyxis.Process.Pages
import Nyxis.Process.Passes
import Nyxis.Process.Scheduler
import Nyxis.Process.Sleep
import Nyxis.Process.Table
import Nyxis.Status
import Nyxis.Sync.Spinlock
import Nyxis.Syscall.Files
import Nyxis.Syscall.HandleResults
import Nyxis.Syscall.Handles
import Nyxis.Syscall.Transfer
import Nyxis.Syscall.Uaccess
import Nyxis.Vfs.Calls
import Nyxis.Vfs.Frame
import Nyxis.Vfs.Namespace
import Nyxis.Vfs.OpenFiles
import Nyxis.Vfs.Path
import Nyxis.Vfs.Resolve
import Nyxis.Vfs.Segments
import Nyxis.Vfs.Stores
import Nyxis.Vfs.Tree
import Nyxis.Vfs.WellFormed
