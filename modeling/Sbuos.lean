import Sbuos.Lib.Run
import Sbuos.StdinLines
import Sbuos.StdinCount
import Sbuos.Frames
import Sbuos.Boot
import Sbuos.Inventory
import Sbuos.ReadyQueue
import Sbuos.Archive
import Sbuos.WaitDead
import Sbuos.IdleProcess
import Sbuos.MarkCow
import Sbuos.ForkStale
import Sbuos.UserHeap
import Sbuos.Chdir
import Sbuos.Exec
import Sbuos.ExecArgs
import Sbuos.Dents
import Sbuos.Environment
import Sbuos.Descriptors
import Sbuos.Calls
import Sbuos.WaitStatus
import Sbuos.FreeList
import Sbuos.FreeTail
import Sbuos.PathBuffer
import Sbuos.WorkingDir
import Sbuos.DirChildren
import Sbuos.ProcessList
import Sbuos.Alarm
import Sbuos.Turns
import Sbuos.Interrupts
import Sbuos.KernelHeap
import Sbuos.CowRuns
import Sbuos.Isolation
import Sbuos.ReadFile
import Sbuos.StdinChunks
import Sbuos.Keystrokes
import Sbuos.Screen
import Sbuos.BootMap
import Sbuos.Printf
import Sbuos.Itoa
import Sbuos.Prompt
import Sbuos.Split
import Sbuos.Lookups
import Sbuos.WalkEnds
import Sbuos.LoadElf
import Sbuos.VarSet
import Sbuos.RecursiveSlot
import Sbuos.BoundedCopy
import Sbuos.TimeSlice
import Sbuos.DemandPaging
import Sbuos.PrivateMemory
import Sbuos.Terminal
import Sbuos.Console
import Sbuos.Typing
import Sbuos.Output
import Sbuos.Cat
import Sbuos.PathSearch
import Sbuos.Command
import Sbuos.Ls
import Sbuos.Lineage
import Sbuos.PsKill
