import LabKernel.Dev.ConsoleIndices
import LabKernel.Fs.AccessMode
import LabKernel.Fs.Allocators
import LabKernel.Fs.BufBacked
import LabKernel.Fs.BufPolicy
import LabKernel.Fs.BufSharing
import LabKernel.Fs.DirMap
import LabKernel.Fs.EmptyPath
import LabKernel.Fs.FileContent
import LabKernel.Fs.Freeing
import LabKernel.Fs.Listing
import LabKernel.Fs.LiveInodes
import LabKernel.Fs.Mapping
import LabKernel.Fs.Orphans
import LabKernel.Fs.ParentLookup
import LabKernel.Fs.Reclaim
import LabKernel.Fs.RefCounts
import LabKernel.Fs.SparseWrite
import LabKernel.Fs.Virtio
import LabKernel.Fs.WorkingPath
import LabKernel.Lib.SlotTable
import LabKernel.Mem.Boot
import LabKernel.Mem.EmptyRegions
import LabKernel.Mem.ExecEntry
import LabKernel.Mem.FreeOrder
import LabKernel.Mem.GapSearch
import LabKernel.Mem.HeapTop
import LabKernel.Mem.Reap
import LabKernel.Mem.RegionCalls
import LabKernel.Mem.StackGrow
import LabKernel.Mem.StackLayout
import LabKernel.Proc.Interrupts
import LabKernel.Proc.Recursion
import LabKernel.Proc.Sleeplock
import LabKernel.Proc.Waiting
import LabKernel.Trap.KernelStack
