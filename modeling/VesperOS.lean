import VesperOS.Base.ByteMemory
import VesperOS.Base.Ownership
import VesperOS.Memory.FrameAllocator
import VesperOS.Memory.Paging
import VesperOS.Memory.AddressSpaces
import VesperOS.Memory.SpaceLifecycle
import VesperOS.Loader.ElfImage
import VesperOS.Memory.AllocationBudget
import VesperOS.Memory.Translation
import VesperOS.Loader.KernelIsolation
import VesperOS.Loader.FrameBalance
import VesperOS.Loader.ParserBounds
import VesperOS.Loader.KernelSegments
import VesperOS.Loader.ImageContents
import VesperOS.Loader.TwinLoads
import VesperOS.Process.Exec
import VesperOS.Heap.HeapInvariant
import VesperOS.Heap.HeapCalls
import VesperOS.Heap.StaleFree
import VesperOS.Process.ContextSwitch
import VesperOS.Process.InterruptedSwitch
import VesperOS.Process.RoundRobin
import VesperOS.Process.InterruptFlag
import VesperOS.FileSystem.MapRefinement
import VesperOS.FileSystem.CrashSafety
import VesperOS.FileSystem.AtaDriver
import VesperOS.FileSystem.PartitionBounds
import VesperOS.FileSystem.FileCount
import VesperOS.FileSystem.NameUniqueness
import VesperOS.FileSystem.FailureAtomicity
import VesperOS.FileSystem.FileDescriptors
import VesperOS.FileSystem.SequentialReads
import VesperOS.Memory.PoolHistory
import VesperOS.Memory.PagingCalls
import VesperOS.Process.TableInvariant
import VesperOS.Process.DescriptorOwners
import VesperOS.Process.LoadedSpace
import VesperOS.Process.IdentityMap
import VesperOS.Syscall.UserPointers
import VesperOS.Syscall.UserSpace
import VesperOS.Process.FreshSpaces
import VesperOS.Ipc.PipeFifo
import VesperOS.Ipc.PipeClose
import VesperOS.Ipc.LostWakeup
import VesperOS.Ipc.Uninterrupted
import VesperOS.Keyboard.KeyWakeup
import VesperOS.Keyboard.KeyQueue
import VesperOS.Keyboard.ShiftKeys
import VesperOS.Console.Vga
import VesperOS.Shell.ReadLine
import VesperOS.Shell.ScreenLine
import VesperOS.Shell.WriteCommand
import VesperOS.Shell.KillCommand
import VesperOS.Timer.SleepTimer
import VesperOS.Timer.Rtc
import VesperOS.Console.Printf
import VesperOS.FileSystem.NameFields
import VesperOS.Loader.SegmentBytes
import VesperOS.Shell.CommandHistory
import VesperOS.Console.ScreenBounds
import VesperOS.Shell.Decimals
import VesperOS.Base.PortIO
import VesperOS.Console.SerialPort
import VesperOS.Base.StackMachine
import VesperOS.FileSystem.AtaPorts
import VesperOS.FileSystem.DriverCalls
import VesperOS.Interrupts.TrapFrames
import VesperOS.Process.ResumedContexts
import VesperOS.Process.RingSwitch
