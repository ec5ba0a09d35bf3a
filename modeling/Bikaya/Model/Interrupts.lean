import Bikaya.Model.Scheduler

/-!
# `src/interrupts.c`
-/

namespace Bikaya.Model
open Bikaya.Lib KM

variable {T : Target} (cfg : Cfg T)

/-- The semaphore key of a device function. The quotient is by `DEV_REG_SIZE`. -/
def interruptsGetDevKey (reg : Word) (termRcpt : Nat) : Key :=
  let devAbsIndex := (reg - T.devRegStart).toNat / 16
  let devRelIndex := devAbsIndex % nDevPerIl
  let devLine := devAbsIndex / nDevPerIl
  if devIlStart + devLine < ilTerminal then cfg.semKey devLine devRelIndex
  else cfg.semKey (devLine + termRcpt) devRelIndex

/-- The status of the device function whose command register is at `addr`. -/
def devStatus (addr : Word) : KM T Word := do
  let m ← machine
  let f ← Exec.orFault .wild (Hw.fnAt T addr)
  pure (m.hw.status f)

/-- A word stored where a command register is expected. -/
def storeCommand (addr cmd : Word) : KM T Unit :=
  upd fun m =>
    match Hw.fnAt T addr with
    | some f => { m with hw := m.hw.issue f cmd }
    | none => { m with mem := Function.update m.mem addr cmd }

/-- `device->command = CMD_ACK`. -/
def acknowledge (addr : Word) : KM T Unit := do
  storeCommand addr cmdAck
  note (.ack addr)

def unblockProcess (semkey : Key) (status : Word) : KM T Unit := do
  let unblocked ← pool (aslRemoveBlocked semkey)
  schedulerEnqueueProcess unblocked
  let p ← Exec.orFault .nullDeref unblocked
  modifyPcb p fun q => { q with pS := q.pS.setReturn status }
  note (.complete semkey p status)

/-- A device function is served: its waiter gets the status, and the function is acknowledged. The command
register is at `device + command`. -/
def serve (device : Word) (command : Word) (termRcpt : Nat) : KM T Unit := do
  let status ← devStatus (device + command)
  unblockProcess (interruptsGetDevKey cfg device termRcpt) status
  acknowledge (device + command)

def handleDtp (device : Word) : KM T Unit := serve cfg device 4 0

/-- One side of `handle_term`. -/
def handleTermSide (device : Word) (command : Word) (termRcpt : Nat) : KM T Unit := do
  let status ← devStatus (device + command)
  Exec.guarded (status &&& termStatusMask == stTransmitted) (serve cfg device command termRcpt)

/-- The transmitter first (`transm_command` is the last word), then the receiver. -/
def handleTerm (device : Word) : KM T Unit := do
  handleTermSide cfg device 12 0
  handleTermSide cfg device 4 1

/-- One iteration of `handle_interrupt`: device `i` of the line has an interrupt pending. -/
def handleDevice (line i : Nat) : KM T Unit :=
  let device := T.devRegAddr line i
  if T.isTerminal device then handleTerm cfg device else handleDtp cfg device

/-- The loop of `handle_interrupt`, with `n` iterations to go. -/
def handleBits (line : Nat) : Nat → Nat → Nat → KM T Unit
  | 0, _, _ => pure ()
  | n + 1, i, bitmap => do
    Exec.guarded (bitmap % 2 == 1) (handleDevice cfg line i)
    handleBits line n (i + 1) (bitmap / 2)

def handleInterrupt (line : Nat) : KM T Unit := do
  let m ← machine
  handleBits cfg line 8 0 (m.hw.bitmap line)

/-- `if (INT_IS_PENDING(cause, line)) handle_interrupt(served)`. -/
def handleLine (cause : Word) (line served : Nat) : KM T Unit :=
  Exec.guarded (T.intIsPending cause line) (handleInterrupt cfg served)

/-- The `PC(*old_state) -= WORD_SIZE` of uARM builds. -/
def rewindPc : {T : Target} → CpuState T → CpuState T
  | .umps, st => st
  | .uarm, st => st.setPc (st Target.uarm.pc - wordSize)

def interruptsHandler : KM T Unit := do
  schedulerAccountTime cfg false
  let m ← machine
  let cause := m.oldAreas .int T.cause
  setOldArea .int (rewindPc (m.oldAreas .int))
  let timeSliceEnded := T.intIsPending cause ilTimer
  Exec.guarded timeSliceEnded (setTimer 0xFFFFFFFF)
  handleLine cfg cause ilDisk ilDisk
  handleLine cfg cause ilTape ilTape
  handleLine cfg cause ilEthernet ilEthernet
  -- the printer branch serves the Ethernet line
  handleLine cfg cause ilPrinter ilEthernet
  handleLine cfg cause ilTerminal ilTerminal
  schedulerResume cfg timeSliceEnded (some .int)

end Bikaya.Model
