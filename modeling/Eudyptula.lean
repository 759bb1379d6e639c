import Eudyptula.Lib.Runs
import Eudyptula.Lib.CMem
import Eudyptula.Lib.LinkedRing
import Eudyptula.IdList.Heap
import Eudyptula.IdList.Store
import Eudyptula.IdList.Refinement
import Eudyptula.Misc.Device
import Eudyptula.Misc.Handoff
import Eudyptula.Misc.Lifecycle
import Eudyptula.Misc.Transitions
import Eudyptula.Misc.Wakeup
import Eudyptula.Misc.Threads
import Eudyptula.Misc.Unload
import Eudyptula.Fat.SetLabel
import Eudyptula.Fat.Sequence
import Eudyptula.Fat.Blocks
import Eudyptula.Fat.Concurrent
import Eudyptula.IdFile.Handlers
import Eudyptula.IdFile.Verdict
import Eudyptula.Lib.FixedFile
import Eudyptula.Debugfs.Foo
import Eudyptula.IdList.FreedReads
import Eudyptula.Fat.FindLabel
import Eudyptula.IdFile.Agreement
import Eudyptula.Lib.CString
import Eudyptula.IdFile.Reads
import Eudyptula.Sysfs.Foo
import Eudyptula.Misc.Names
import Eudyptula.Misc.UniqueIds
import Eudyptula.Lib.Sleeper
import Eudyptula.Waiter.Thread
import Eudyptula.Misc.Stop
import Eudyptula.IdFile.Trace
import Eudyptula.Fat.Locals
import Eudyptula.Fat.VolumeId
import Eudyptula.Lib.TextSearch
import Eudyptula.Misc.Cleanup
import Eudyptula.Misc.NameBound
import Eudyptula.Netfilter.Hook
import Eudyptula.Lib.Diamond
import Eudyptula.Lib.Kahn
import Eudyptula.Lib.Semaphores
import Eudyptula.Streams.Buffers
import Eudyptula.Streams.Cells
import Eudyptula.Streams.Values
import Eudyptula.Debugfs.Concurrent
import Eudyptula.Fat.Files
import Eudyptula.Lib.RcuRing
import Eudyptula.Netfilter.Lifecycle
import Eudyptula.IdList.Module
import Eudyptula.Kthread.Stop
import Eudyptula.Syscall.FullId
import Eudyptula.TaskId.Reads
import Eudyptula.Workqueue.Stop
