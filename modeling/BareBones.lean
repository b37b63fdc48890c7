import BareBones.Boot.KernelLib
import BareBones.Boot.ModuleLoader
import BareBones.Boot.ModulePacker
import BareBones.Drivers.Circumference
import BareBones.Drivers.Drawing
import BareBones.Drivers.EndOfFile
import BareBones.Drivers.Keyboard
import BareBones.Drivers.KeyboardBlocking
import BareBones.Drivers.KeyboardRun
import BareBones.Drivers.KeyboardState
import BareBones.Drivers.Registers
import BareBones.Drivers.Sound
import BareBones.Drivers.Text
import BareBones.Drivers.Timer
import BareBones.Drivers.Video
import BareBones.Drivers.VideoGeometry
import BareBones.Drivers.VideoScroll
import BareBones.IPC.CircularBuffer
import BareBones.IPC.FdDelivery
import BareBones.IPC.FileAccess
import BareBones.IPC.Pipe
import BareBones.IPC.PipeBytes
import BareBones.IPC.PipeDelivery
import BareBones.IPC.PipeEof
import BareBones.IPC.PipeFlow
import BareBones.IPC.PipeInv
import BareBones.IPC.PipeNonblocking
import BareBones.IPC.PipeOps
import BareBones.IPC.PipeReaders
import BareBones.IPC.PipeRun
import BareBones.IPC.PipeSlots
import BareBones.IPC.PipeStream
import BareBones.IPC.PipeWakeup
import BareBones.IPC.ReadFd
import BareBones.IPC.SysPipe
import BareBones.Lib.Arena
import BareBones.Lib.Blocks
import BareBones.Lib.Overtaking
import BareBones.Lib.Program
import BareBones.Lib.Progress
import BareBones.Lib.Refcount
import BareBones.Lib.Rows
import BareBones.Lib.Run
import BareBones.Lib.Shares
import BareBones.Lib.SlotMap
import BareBones.Lib.Stores
import BareBones.Lib.Sums
import BareBones.Lib.Tiling
import BareBones.Lib.Views
import BareBones.Lib.Word
import BareBones.Memory.Allocators
import BareBones.Memory.Buddy
import BareBones.Memory.BuddyCoalescing
import BareBones.Memory.BuddyContract
import BareBones.Memory.BuddyExhaustion
import BareBones.Memory.BuddyRep
import BareBones.Memory.BuddyRun
import BareBones.Memory.BuddySearch
import BareBones.Memory.BuddyTree
import BareBones.Memory.FreeList
import BareBones.Memory.FreeListChain
import BareBones.Memory.FreeListContract
import BareBones.Memory.FreeListRun
import BareBones.Process.Basic
import BareBones.Process.Books
import BareBones.Process.Clock
import BareBones.Process.ContextSwitch
import BareBones.Process.Exhaustion
import BareBones.Process.Fairness
import BareBones.Process.Family
import BareBones.Process.FdCounts
import BareBones.Process.FdEffects
import BareBones.Process.FdTable
import BareBones.Process.Grants
import BareBones.Process.Idle
import BareBones.Process.InitBooks
import BareBones.Process.InitProcess
import BareBones.Process.Kernel
import BareBones.Process.KernelOps
import BareBones.Process.KernelRule
import BareBones.Process.LinkedQueue
import BareBones.Process.NewProcess
import BareBones.Process.Objects
import BareBones.Process.ReadyQueue
import BareBones.Process.Restart
import BareBones.Process.RoundRobin
import BareBones.Process.SelfDeadlock
import BareBones.Process.Spinlocks
import BareBones.Process.StepRule
import BareBones.Process.Undisturbed
import BareBones.Process.Waiters
import BareBones.Process.Yield
import BareBones.Process.Zombie
import BareBones.Semaphores.Conservation
import BareBones.Semaphores.Semaphore
import BareBones.Semaphores.SharedMap
import BareBones.Semaphores.SharedRefinement
import BareBones.Semaphores.SharedSemaphores
import BareBones.Semaphores.SharedTable
import BareBones.Semaphores.SharedUsers
import BareBones.Semaphores.Waiting
import BareBones.Userland.Commands
import BareBones.Userland.Cstandard
import BareBones.Userland.Filters
import BareBones.Userland.LineEditor
import BareBones.Userland.LineParser
import BareBones.Userland.MVar
import BareBones.Userland.Shell
import BareBones.Userland.ShellFds
import BareBones.Userland.Stdio
import BareBones.Userland.Terminal
import BareBones.Userland.TestMm
import BareBones.Userland.TestSync
