import Bikaya.Model.Asl

/-!
# `src/scheduler.c`

Functions that end in `LDST` exit; a pointer parameter that may be NULL is an `Option`.
-/

namespace Bikaya.Model
open Bikaya.Lib

variable {T : Target} (cfg : Cfg T)

namespace KM

/-- `getTODLO()`. -/
def getTODLO : KM T Word := fun s =>
  .ret (BitVec.ofNat 32 (cfg.clock s.m.reads)) { s with m := { s.m with reads := s.m.reads + 1 } }

/-- Dereference `current_proc`. -/
def current : KM T Pid := do
  let m ← machine
  Exec.orFault .nullDeref m.currentProc

/-- `if (current_proc) ...`. -/
def whenCurrent (f : Pid → KM T Unit) : KM T Unit := do
  let m ← machine
  match m.currentProc with
  | some cur => f cur
  | none => pure ()

def setCurrent (p : Option Pid) : KM T Unit := upd fun m => { m with currentProc := p }

/-- The time of a process increased. -/
def addTime (p : Pid) (kernel : Bool) (d : Word) : KM T Unit :=
  modifyPcb p fun q =>
    if kernel then { q with kernelTm := q.kernelTm + d.zeroExtend 64 }
    else { q with userTm := q.userTm + d.zeroExtend 64 }

/-- `switch_tick = getTODLO()`. -/
def resetSwitchTick : KM T Unit := do
  let m ← machine
  let t ← getTODLO cfg
  upd fun m => { m with switchTick := t }
  note (.tick m.reads)

def setTimer (w : Word) : KM T Unit := upd fun m => { m with timer := w }

end KM
open KM

/-- `it->priority++`. -/
def agePcb (it : Pid) : PM T Unit := PM.modifyPcb it fun p => { p with priority := cfg.prio.succ p.priority }

/-- The loop of `aging`, from the node at a position. -/
def agingFrom : Nat → Option Node → PM T Unit
  | 0, _ => Exec.fault .hang
  | _ + 1, none => Exec.fault .nullDeref
  | n + 1, some pos => do
    if pos = .readyQueue then pure ()
    else do
      let it ← Exec.orFault .wild pos.pcb?
      agePcb cfg it
      let pool ← Exec.read
      agingFrom n (pool.links.next pos)

def aging : PM T Unit := do
  let pool ← Exec.read
  agingFrom cfg walkFuel (pool.links.next .readyQueue)

/-- The branch of `scheduler_account_time` for a process. -/
def chargeCurrent (kernel : Bool) (cur : Pid) : KM T Unit := do
  let m ← machine
  let t ← getTODLO cfg
  addTime cur kernel (t - m.switchTick)
  note (.charge cur kernel m.reads (t - m.switchTick))

def schedulerAccountTime (kernel : Bool) : KM T Unit := do
  whenCurrent (chargeCurrent cfg kernel)
  resetSwitchTick cfg

/-- Reset the priority of a process and put it in the ready queue. -/
def schedulerEnqueueProcess (proc : Option Pid) : KM T Unit := do
  let p ← Exec.orFault .nullDeref proc
  modifyPcb p fun q => { q with priority := q.originalPriority }
  pool (pcbInsertInQueue .readyQueue p)
  note (.enqueue p)

/-- The first dispatch of a process sets its start time. -/
def markStart (p : Pid) : KM T Unit := do
  let m ← machine
  Exec.guarded (decide ((m.pool.pcbs p).startTm = 0)) do
    let t ← getTODLO cfg
    modifyPcb p fun q => { q with startTm := t.zeroExtend 64 }

def schedulerRun : KM T Unit := do
  note .run
  let next ← pool (pcbRemoveFromQueue .readyQueue)
  setCurrent next
  let cur ← current
  markStart cfg cur
  resetSwitchTick cfg
  setTimer cfg.timeSlice
  let m ← machine
  ldst (.dispatch cur (m.pool.pcbs cur).pS) (m.pool.pcbs cur).pS

/-- `*old_state`; the pointer may be NULL. -/
def oldStateOf (old : Option OldArea) : KM T (CpuState T) := do
  let m ← machine
  let a ← Exec.orFault .nullDeref old
  pure (m.oldAreas a)

/-- The branch of `scheduler_resume` for a current process. -/
def resumeCurrent (timeSliceEnded : Bool) (old : Option OldArea) (cur : Pid) : KM T Unit := do
  schedulerAccountTime cfg true
  Exec.guarded (!timeSliceEnded) do
    let st ← oldStateOf old
    ldst (.resume st) st
  let m ← machine
  Exec.guarded (!listEmpty m.pool.links .readyQueue) (pool (aging cfg))
  note .expire
  let st ← oldStateOf old
  modifyPcb cur fun q => { q with pS := st }
  schedulerEnqueueProcess (some cur)

def schedulerResume (timeSliceEnded : Bool) (old : Option OldArea) : KM T Unit := do
  whenCurrent (resumeCurrent cfg timeSliceEnded old)
  let m ← machine
  Exec.guarded (listEmpty m.pool.links .readyQueue) (ldst (.idle m.idleProcState) m.idleProcState)
  schedulerRun cfg

def schedulerBlockCurrent (semaddr : Key) (old : Option OldArea) : KM T Unit := do
  let cur ← current
  let st ← oldStateOf old
  modifyPcb cur fun q => { q with pS := st }
  schedulerAccountTime cfg true
  let full ← pool (aslInsertBlocked semaddr cur)
  setCurrent none
  note (.block cur semaddr full)

/-- The loop of `kill_tree` over the children, from the node at a position: it goes on from the `p_sib` of
the child just killed. -/
def killChildren (kill : Pid → KM T Unit) (head : Node) : Nat → Option Node → KM T Unit
  | 0, _ => Exec.fault .hang
  | _ + 1, none => Exec.fault .nullDeref
  | n + 1, some pos => do
    if pos = head then pure ()
    else do
      let it ← Exec.orFault .wild pos.child?
      kill it
      let m ← machine
      killChildren kill head n (m.pool.links.next pos)

/-- What `kill_tree` does with a process once its children are gone. -/
def bury (pid : Pid) : KM T Unit := do
  let _ ← pool (pcbFindAndRemoveChild pid)
  let _ ← pool (aslFindAndRemoveBlocked pid)
  let _ ← pool (pcbFindAndRemove .readyQueue pid)
  pool (pcbFree pid)
  note (.bury pid)

/-- The first argument bounds the depth of the recursion. -/
def killTree : Nat → Pid → KM T Unit
  | 0, _ => Exec.fault .hang
  | n + 1, pid => do
    let m ← machine
    killChildren (killTree n) (.pChild pid) walkFuel (m.pool.links.next (.pChild pid))
    bury pid

def schedulerKillProcess (pid : Pid) : KM T Unit := do
  let m ← machine
  Exec.guarded (decide (m.currentProc = some pid)) (setCurrent none)
  killTree walkFuel pid

def schedulerHandleException (type : Fin 3) (old : OldArea) : KM T Unit := do
  schedulerAccountTime cfg false
  let cur ← current
  let m ← machine
  if (m.pool.pcbs cur).excNewAreas type ≠ 0 then do
    upd fun m => { m with mem := storeState m.mem ((m.pool.pcbs cur).excOldAreas type) (m.oldAreas old) }
    schedulerAccountTime cfg true
    let m ← machine
    let st := stateAt m.mem ((m.pool.pcbs cur).excNewAreas type)
    ldst (.passUp cur st) st
  else do
    schedulerKillProcess cur
    schedulerResume cfg false none

/-- The processor state that `scheduler_init` gives the idle code and the first process. -/
def kernelState (pc : Word) (st : CpuState T) : CpuState T :=
  let st := st.setPc pc
  let st := Function.update st T.status (T.kernelMode (st T.status))
  let st := Function.update st T.status (T.allIntEnable (st T.status))
  Function.update st T.vm (st T.vm &&& T.vmOff)

def schedulerInit : KM T Unit := do
  upd fun m => { m with idleProcState := kernelState cfg.idleCode cfg.stst }
  let init ← pool pcbAlloc
  let p ← Exec.orFault .nullDeref init
  let st := kernelState cfg.testCode (Function.update cfg.stst T.sp (cfg.ramTop - 4096))
  modifyPcb p fun q => { q with pS := st }
  modifyPcb p fun q => { q with originalPriority := defaultPriority }
  note (.create p st)
  schedulerEnqueueProcess (some p)

end Bikaya.Model
