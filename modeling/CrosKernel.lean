import CrosKernel.Aarch64.BootSpaces
import CrosKernel.Aarch64.RestoredContext
import CrosKernel.Containers.TreeBalanced
import CrosKernel.Containers.TreeClear
import CrosKernel.Containers.TreePop
import CrosKernel.Devices.Uart
import CrosKernel.Fs.ClusterChain
import CrosKernel.Fs.ClusterSectors
import CrosKernel.Fs.CreateKeeps
import CrosKernel.Fs.DirEntryCodec
import CrosKernel.Fs.EmptySlots
import CrosKernel.Fs.FatAllocation
import CrosKernel.Fs.FileContextFAT32
import CrosKernel.Fs.FreeClusters
import CrosKernel.Fs.LongNameSearch
import CrosKernel.Fs.Mount
import CrosKernel.Fs.PathParent
import CrosKernel.Fs.PipeReader
import CrosKernel.Fs.ShortName
import CrosKernel.Fs.VolumeReads
import CrosKernel.Fs.WriteData
import CrosKernel.Kernel.FileCopies
import CrosKernel.Kernel.PipeRuns
import CrosKernel.Kernel.Schedule
import CrosKernel.Kernel.SignalDelivery
import CrosKernel.Kernel.SwitchTask
import CrosKernel.Loader.LoadSegments
import CrosKernel.Memory.AvailablePages
import CrosKernel.Memory.FaultEntries
import CrosKernel.Memory.HeapExhausted
import CrosKernel.Memory.HeapFree
import CrosKernel.Memory.HeapLists
import CrosKernel.Memory.HeapResize
import CrosKernel.Memory.KernelHalf
import CrosKernel.Memory.MappedRegions
import CrosKernel.Memory.MemoryMapMerged
import CrosKernel.Memory.MemoryMapRoom
import CrosKernel.Memory.NextPowerOf2
import CrosKernel.Memory.PageCount
import CrosKernel.Sched.AddressSpaces
import CrosKernel.Sched.CloseFiles
import CrosKernel.Sched.Descriptors
import CrosKernel.Sched.PipeLife
import CrosKernel.Sched.Process
import CrosKernel.Sched.ProgramArgs
import CrosKernel.Sched.QueueRemove
import CrosKernel.Sched.QueueRuns
import CrosKernel.Sched.Signal
import CrosKernel.Util.Itoa
import CrosKernel.Util.Log
import CrosKernel.Kernel.Exec
import CrosKernel.Kernel.ExecBuffer
import CrosKernel.Kernel.ExecLoads
