import LemonCore.Foundation.LittleEndian
import LemonCore.Foundation.BorrowProgram
import LemonCore.EasyFs.Block
import LemonCore.EasyFs.Bitmap
import LemonCore.EasyFs.BlockCache
import LemonCore.EasyFs.Layout
import LemonCore.Foundation.PointerTree
import LemonCore.EasyFs.IndexTree
import LemonCore.EasyFs.InodeTree
import LemonCore.EasyFs.FileData
import LemonCore.EasyFs.Records
import LemonCore.EasyFs.Efs
import LemonCore.EasyFs.Vfs
import LemonCore.EasyFs.Allocation
import LemonCore.EasyFs.Slots
import LemonCore.EasyFs.Contents
import LemonCore.EasyFs.Directory
import LemonCore.EasyFs.Operations
import LemonCore.EasyFs.Creation
import LemonCore.EasyFs.Formatting
import LemonCore.EasyFs.Runs
import LemonCore.EasyFs.ByteVectors
import LemonCore.EasyFs.Deletion
import LemonCore.EasyFs.Ownership
import LemonCore.EasyFs.Unlinking
import LemonCore.EasyFs.LargeDirectory
import LemonCore.EasyFs.Capacity
import LemonCore.Foundation.Circular
import LemonCore.Kernel.PipeBuffer
import LemonCore.Foundation.QueueFamily
import LemonCore.Kernel.Machine
import LemonCore.Kernel.Scheduling
import LemonCore.Kernel.Effects
import LemonCore.Kernel.MutexRuns
import LemonCore.Foundation.EventLog
import LemonCore.Kernel.SemaphoreRuns
import LemonCore.Kernel.CondvarRuns
import LemonCore.Kernel.PipeRuns
import LemonCore.Kernel.Ids
import LemonCore.Kernel.Processes
import LemonCore.Kernel.ProcessSteps
import LemonCore.Kernel.ProcessTables
import LemonCore.Kernel.ProcessExit
import LemonCore.Kernel.ThreadIds
import LemonCore.Kernel.ProcessTree
import LemonCore.Kernel.FileAccess
import LemonCore.Kernel.FileLocks
import LemonCore.Foundation.RadixTree
import LemonCore.Foundation.SharedHeap
import LemonCore.Kernel.Frames
import LemonCore.Kernel.MapAreas
import LemonCore.Kernel.MemorySets
import LemonCore.Kernel.AddressSpaces
import LemonCore.EasyFs.DirectoryTree
import LemonCore.Foundation.LexicalPaths
import LemonCore.Kernel.Paths
import LemonCore.Foundation.SlotTable
import LemonCore.Kernel.Descriptors
import LemonCore.EasyFs.Durability
import LemonCore.EasyFs.SharedCache
import LemonCore.EasyFs.Tiling
import LemonCore.Kernel.PageEntries
import LemonCore.Kernel.AreaEntries
import LemonCore.Kernel.Cloning
import LemonCore.Kernel.UserPointers
import LemonCore.Kernel.ProcessReferences
import LemonCore.Kernel.DeviceQueue
import LemonCore.Kernel.InputEvents
import LemonCore.Kernel.Uart
import LemonCore.Kernel.InterruptMasking
import LemonCore.Kernel.SyncCalls
import LemonCore.Kernel.AreaLifetimes
import LemonCore.EasyFs.Shrinking
import LemonCore.EasyFs.Releasing
import LemonCore.EasyFs.Links
import LemonCore.Kernel.OpenFiles
import LemonCore.EasyFs.Growth
import LemonCore.EasyFs.LongNames
import LemonCore.EasyFs.Lookups
import LemonCore.Kernel.ElfLoading
import LemonCore.Kernel.Opening
import LemonCore.Kernel.SegmentBytes
import LemonCore.EasyFs.BitmapRuns
import LemonCore.Kernel.FullPaths
import LemonCore.Kernel.Timers
import LemonCore.Kernel.ThreadCounts
import LemonCore.Kernel.FrameRuns
import LemonCore.Foundation.TimeSharing
import LemonCore.Kernel.ContextSwitch
