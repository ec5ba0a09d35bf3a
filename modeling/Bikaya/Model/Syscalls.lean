import Bikaya.Model.Interrupts
import Bikaya.Model.Layout

/-!
# `src/syscalls.c` and `src/exceptions.c`
-/

namespace Bikaya.Model
open Bikaya.Lib KM

variable {T : Target} (cfg : Cfg T)

abbrev syscallSuccess : Word := 0
abbrev syscallFailure : Word := -1

/-- A new process takes its first state and priority, its place in the ready queue and its parent. -/
def startProcess (p : Pid) (st : CpuState T) (priority : Word) (cpid : Word) : KM T Unit := do
  modifyPcb p fun q => { q with pS := st }
  modifyPcb p fun q => { q with originalPriority := priority.toInt }
  note (.create p st)
  schedulerEnqueueProcess (some p)
  let cur ← current
  pool (pcbInsertChild cur p)
  Exec.guarded (decide (cpid ≠ 0)) (store cpid (cfg.pcbAddr p))

def createProcess (state priority cpid : Word) : KM T Word := do
  match ← pool pcbAlloc with
  | none => pure syscallFailure
  | some p => do
    let m ← machine
    startProcess cfg p (stateAt m.mem state) priority cpid
    pure syscallSuccess

/-- `pid` is NULL for the caller. -/
def terminated (pid : Word) : KM T (Option Pid) := do
  if pid = 0 then do
    let p ← current
    pure (some p)
  else pure (cfg.pcbAt pid)

/-- `scheduler_kill_process` of an address at which there is no element of `pcbTable`. -/
def killBeyond (pid : Word) : KM T Unit := do
  let m ← machine
  let m ← Exec.orFault .hang (cfg.beyond.killTree pid m)
  upd fun _ => m

/-- An address outside `pcbTable` is on no list. -/
def terminateProcess (pid : Word) : KM T Word := do
  match ← terminated cfg pid with
  | some p => do
    if ← pool (pcbIsFree p) then pure syscallFailure
    else do
      schedulerKillProcess p
      pure syscallSuccess
  | none => do
    killBeyond cfg pid
    pure syscallSuccess

def verhogen (semaddr : Key) : KM T Unit := do
  match ← pool (aslSemd semaddr) with
  | some _ => do
    let blocked ← pool (aslRemoveBlocked semaddr)
    note (.verhogen semaddr blocked)
    schedulerEnqueueProcess blocked
  | none => do
    let m ← machine
    store semaddr (m.mem semaddr + 1)
    note (.verhogen semaddr none)

/-- `old_state` as `passeren` and `wait_io` pass it on. -/
def blockOn (key : Key) : KM T Unit := do
  let m ← machine
  schedulerBlockCurrent cfg key m.oldState

def passeren (semaddr : Key) : KM T Unit := do
  let m ← machine
  if m.mem semaddr ≠ 0 then do
    store semaddr (m.mem semaddr - 1)
    note (.passeren semaddr true)
  else do
    note (.passeren semaddr false)
    blockOn cfg semaddr

/-- Where `wait_io` writes the command. -/
def commandAddr (T : Target) (device : Word) (subdev : Nat) : Word :=
  if T.isTerminal device then if subdev ≠ 0 then device + 4 else device + 12 else device + 4

/-- `subdev` is a `bool`, that is a `uint8_t`. -/
def waitIo (command device : Word) (subdev : Nat) : KM T Unit := do
  let cur ← current
  note (.waitIo cur (commandAddr T device subdev) command)
  storeCommand (commandAddr T device subdev) command
  blockOn cfg (interruptsGetDevKey cfg device subdev)

/-- `spec_pass_up` with an index that may be anything: the elements of the two arrays are the words that are that far
behind their starts. -/
def specPassUpAt (cur : Pid) (excType oldArea newArea : Word) : KM T Word := do
  let w ← loadWord cfg (cfg.pcbAddr cur + BitVec.ofNat 32 T.excNewAreas + 4 * excType)
  if w ≠ 0 then do
    schedulerKillProcess cur
    pure syscallFailure
  else do
    storeWord cfg (cfg.pcbAddr cur + BitVec.ofNat 32 T.excNewAreas + 4 * excType) newArea
    storeWord cfg (cfg.pcbAddr cur + BitVec.ofNat 32 T.excOldAreas + 4 * excType) oldArea
    pure syscallSuccess

/-- `exc_type` is an `int` from a register, and nothing checks it. -/
def specPassUp (excType oldArea newArea : Word) : KM T Word := do
  let cur ← current
  if h : excType.toNat < 3 then do
    let type : Fin 3 := ⟨excType.toNat, h⟩
    let m ← machine
    if (m.pool.pcbs cur).excNewAreas type ≠ 0 then do
      schedulerKillProcess cur
      pure syscallFailure
    else do
      modifyPcb cur fun q => { q with excNewAreas := Function.update q.excNewAreas type newArea }
      modifyPcb cur fun q => { q with excOldAreas := Function.update q.excOldAreas type oldArea }
      pure syscallSuccess
  else specPassUpAt cfg cur excType oldArea newArea

def getCpuTime (user kernel wallclock : Word) : KM T Unit := do
  let t ← getTODLO cfg
  let cur ← current
  let m ← machine
  store wallclock ((t.zeroExtend 64 - (m.pool.pcbs cur).startTm).truncate 32)
  store user ((m.pool.pcbs cur).userTm.truncate 32)
  schedulerAccountTime cfg true
  let m ← machine
  store kernel ((m.pool.pcbs cur).kernelTm.truncate 32)

def getPid (pid ppid : Word) : KM T Unit := do
  let m ← machine
  Exec.guarded (decide (pid ≠ 0)) (store pid (cfg.pcbPtr m.currentProc))
  Exec.guarded (decide (ppid ≠ 0)) do
    let cur ← current
    store ppid (cfg.pcbPtr (m.pool.pcbs cur).pParent)

/-- `SYSRETURN(*old_state) = r`. -/
def setSysReturn (r : Word) : KM T Unit := do
  let m ← machine
  setOldArea .sysbk ((m.oldAreas .sysbk).setReturn r)

/-- The `PC(*old_state) += WORD_SIZE` of uMPS builds. -/
def advancePc : {T : Target} → CpuState T → CpuState T
  | .umps, st => st.setPc (st Target.umps.pc + wordSize)
  | .uarm, st => st

/-- The `switch` of `syscall_handler`. -/
def syscallSwitch : KM T Unit := do
  let m ← machine
  let st := m.oldAreas .sysbk
  match (st T.sysArg0).toNat with
  | 1 => getCpuTime cfg (st T.sysArg1) (st T.sysArg2) (st T.sysArg3)
  | 2 => do
    let r ← createProcess cfg (st T.sysArg1) (st T.sysArg2) (st T.sysArg3)
    setSysReturn r
  | 3 => do
    let r ← terminateProcess cfg (st T.sysArg1)
    setSysReturn r
  | 4 => verhogen (st T.sysArg1)
  | 5 => passeren cfg (st T.sysArg1)
  | 6 => waitIo cfg (st T.sysArg1) (st T.sysArg2) ((st T.sysArg3).toNat % 256)
  | 7 => do
    let r ← specPassUp cfg (st T.sysArg1) (st T.sysArg2) (st T.sysArg3)
    setSysReturn r
  | 8 => getPid cfg (st T.sysArg1) (st T.sysArg2)
  | _ => schedulerHandleException cfg 0 .sysbk

/-- A system call, as opposed to a breakpoint. -/
def systemCall : KM T Unit := do
  let m ← machine
  setOldArea .sysbk (advancePc (m.oldAreas .sysbk))
  syscallSwitch cfg

def syscallHandler : KM T Unit := do
  schedulerAccountTime cfg false
  upd fun m => { m with oldState := some .sysbk }
  let m ← machine
  Exec.guarded (decide (T.causeExc (m.oldAreas .sysbk T.cause) = T.causeSyscall)) (systemCall cfg)
  schedulerResume cfg false (some .sysbk)

def trapExceptionHandler : KM T Unit := schedulerHandleException cfg 2 .pgmtrap

def tlbExceptionHandler : KM T Unit := schedulerHandleException cfg 1 .tlb

/-- `SPECPASSUP_SYSBK_TYPE`, `SPECPASSUP_TLB_TYPE`, `SPECPASSUP_TRAP_TYPE`. -/
abbrev specPassUpSysbkType : Fin 3 := 0
abbrev specPassUpTlbType : Fin 3 := 1
abbrev specPassUpTrapType : Fin 3 := 2

end Bikaya.Model
