import Bikaya.Lib.Exec
import Bikaya.Lib.Ring
import Bikaya.Lib.Prio
import Bikaya.Lib.Forest
import Bikaya.Lib.Always
import Bikaya.Lib.Intervals
import Bikaya.Lib.Simulation
import Bikaya.Model.Arch
import Bikaya.Model.Listx
import Bikaya.Model.Types
import Bikaya.Model.Layout
import Bikaya.Model.Pcb
import Bikaya.Model.Asl
import Bikaya.Model.Scheduler
import Bikaya.Model.Interrupts
import Bikaya.Model.Syscalls
import Bikaya.Model.Main
import Bikaya.Model.Terminal
import Bikaya.Spec.Queues
import Bikaya.Spec.Places
import Bikaya.Spec.BlockedMap
import Bikaya.Spec.PcbSets
import Bikaya.Spec.Reading
import Bikaya.Spec.ProcTree
import Bikaya.Spec.Console
import Bikaya.Spec.History
import Bikaya.Spec.Entries
import Bikaya.Spec.Operations
import Bikaya.Spec.Charges
import Bikaya.Spec.System
import Bikaya.Spec.Moves
import Bikaya.Spec.Laws
import Bikaya.Refine.Walk
import Bikaya.Refine.Rep
import Bikaya.Refine.PcbOps
import Bikaya.Refine.AslOps
import Bikaya.Refine.Init
import Bikaya.Refine.AslMap
import Bikaya.Refine.PcbSets
import Bikaya.Refine.State
import Bikaya.Refine.KillTree
import Bikaya.Refine.UnblockTree
import Bikaya.Refine.Reading
import Bikaya.Refine.ProcTree
import Bikaya.Refine.Terminal
import Bikaya.Refine.Strings
import Bikaya.Kernel.Act
import Bikaya.Kernel.Accounting
import Bikaya.Kernel.Readings
import Bikaya.Kernel.Mid
import Bikaya.Kernel.Scheduler
import Bikaya.Kernel.DevKeys
import Bikaya.Kernel.Interrupts
import Bikaya.Kernel.Syscalls
import Bikaya.Kernel.Run
import Bikaya.Kernel.Ready
import Bikaya.Kernel.Replay
import Bikaya.Kernel.Clock
import Bikaya.Kernel.ClockRun
import Bikaya.Kernel.Meter
import Bikaya.Kernel.Direct
import Bikaya.Kernel.Tally
import Bikaya.Kernel.CpuTime
import Bikaya.Kernel.PassUp
import Bikaya.Kernel.Service
import Bikaya.Kernel.Operations
import Bikaya.Results.Partition
import Bikaya.Results.Blocking
import Bikaya.Results.Semaphore
import Bikaya.Results.Contexts
import Bikaya.Results.Dispatch
import Bikaya.Results.Aging
import Bikaya.Results.Creating
import Bikaya.Results.Charging
import Bikaya.Results.Killing
import Bikaya.Results.Unblocking
import Bikaya.Results.Rejecting
import Bikaya.Results.Keys
import Bikaya.Results.Modes
import Bikaya.Results.StartTime
import Bikaya.Results.CpuWall
import Bikaya.Results.Ending
import Bikaya.Results.Registering
import Bikaya.Results.Exceptions
import Bikaya.Results.Coverage
import Bikaya.Results.Terminals
import Bikaya.Results.Absorbing
import Bikaya.Results.Delivering
import Bikaya.Results.Receiving
import Bikaya.Results.Printing
import Bikaya.System.Shows
import Bikaya.System.Calls
import Bikaya.System.Interrupts
import Bikaya.System.Kernel
import Bikaya.System.Runs
import Bikaya.System.Family
import Bikaya.System.Turns
import Bikaya.System.Permits
import Bikaya.System.Idle
import Bikaya.System.Isolation
import Bikaya.Lib.Arm
import Bikaya.Model.Libdiv
import Bikaya.Refine.Libdiv
import Bikaya.Results.Division
import Bikaya.Lib.Bytes
import Bikaya.Model.Memory
import Bikaya.Results.Memory
import Bikaya.Model.Printer
import Bikaya.Results.Printer
