import ArcKernel.Ipc.TransferInvariant
import ArcKernel.Ipc.PortRefs
import ArcKernel.Vm.ObjectRefs
import ArcKernel.Io.Completion
import ArcKernel.Vm.Pager
import ArcKernel.Heap.Pages
import ArcKernel.Heap.Arm64Runs
import ArcKernel.Pmm.Runs
import ArcKernel.Fd.Fork
import ArcKernel.Fd.Sharing
import ArcKernel.Uipc.FutexRuns
import ArcKernel.Signal.Kill
import ArcKernel.Proc.Runs
import ArcKernel.Mmap.GroupRuns
import ArcKernel.Sched.Runs
import ArcKernel.Uipc.PipeWakeups
import ArcKernel.Smp.CallRuns
import ArcKernel.Names.LinkRuns
import ArcKernel.Blk.CacheRuns
import ArcKernel.Blk.Part
import ArcKernel.Ext2.FileRuns
import ArcKernel.Ufs.Inode
import ArcKernel.Vfs.Lookup
import ArcKernel.Vm.MapView
import ArcKernel.Vm.Handles
import ArcKernel.Irq.Lines
import ArcKernel.Vm.SharedFaults
import ArcKernel.Fd.Select
