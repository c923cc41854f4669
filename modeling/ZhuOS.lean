import ZhuOS.HeapRuns
import ZhuOS.KernelPages
import ZhuOS.Vaddr
import ZhuOS.Mount
import ZhuOS.DirNames
import ZhuOS.ReadDir
import ZhuOS.Deletions
import ZhuOS.DirBooks
import ZhuOS.Getcwd
import ZhuOS.Mkdir
import ZhuOS.Rmdir
import ZhuOS.FileRuns
import ZhuOS.OutOfPages
import ZhuOS.PageTables
import ZhuOS.IoqueueWait
import ZhuOS.Fork
import ZhuOS.Positions
import ZhuOS.Lists
import ZhuOS.Pids
import ZhuOS.InodeThreads
import ZhuOS.SlotThreads
import ZhuOS.PageThreads
import ZhuOS.ForkFiles
import ZhuOS.ForkHeap
import ZhuOS.Handles
import ZhuOS.Format
import ZhuOS.PoolInit
import ZhuOS.InodeDelete
import ZhuOS.SysFork
import ZhuOS.ForkNames
import ZhuOS.IoBuffers
import ZhuOS.EntryNames
import ZhuOS.PathCalls
import ZhuOS.PathEnds
import ZhuOS.Stdio
import ZhuOS.Shell
import ZhuOS.Keyboard
import ZhuOS.DiskScans
import ZhuOS.FilesysInit
import ZhuOS.IdeThreads
import ZhuOS.Descriptors
import ZhuOS.Created
import ZhuOS.ConsistentFs
import ZhuOS.FileCycle
import ZhuOS.Unlinked
import ZhuOS.TreeRuns
import ZhuOS.BusyWait
import ZhuOS.PathBytes
import ZhuOS.Screen
import ZhuOS.PutInt
import ZhuOS.KernelImage
import ZhuOS.RoundRobin
import ZhuOS.Contexts
