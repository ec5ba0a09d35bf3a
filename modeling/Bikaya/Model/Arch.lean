import Mathlib.Data.BitVec
import Mathlib.Logic.Function.Basic

/-!
# The two machines (`include/umps.h`, `include/uarm.h`, `arch.h`, `const.h`)

* `Target` : the build target, `TARGET_UMPS` or `TARGET_UARM`;
* `CpuState T` : a `state_t` as its words in memory order, with the accessor macros of the target
  (`PC`, `STATUS`, `CAUSE`, `SYSARG0..3`, `SYSRETURN`);
* the cause register decoders and the interrupt lines;
* the device register area (`devRegAddr`, `isTerminal`, `Hw.fnAt`) and what a command does to a device.
-/

namespace Bikaya.Model

/-- A machine word. -/
abbrev Word := BitVec 32

inductive Target where
  | umps
  | uarm
deriving DecidableEq

/-! ## Constants -/

/-- `MAXPROC`. -/
abbrev maxProc : Nat := 20

abbrev wordSize : Word := 4

/-- `DEFAULT_PRIORITY`. -/
abbrev defaultPriority : Int := 1

/-- `CMD_ACK`. -/
abbrev cmdAck : Word := 1

/-- `ST_READY`, `ST_BUSY` and `ST_TRANSMITTED` (= `ST_RECEIVED`). -/
abbrev stReady : Word := 1
abbrev stBusy : Word := 3
abbrev stTransmitted : Word := 5

/-- `TERM_STATUS_MASK`. -/
abbrev termStatusMask : Word := 0xFF

/-- `IL_TIMER` and the device interrupt lines. -/
abbrev ilTimer : Nat := 2
abbrev ilDisk : Nat := 3
abbrev ilTape : Nat := 4
abbrev ilEthernet : Nat := 5
abbrev ilPrinter : Nat := 6
abbrev ilTerminal : Nat := 7

/-- `DEV_IL_START`, `N_DEV_PER_IL`, `N_EXT_IL`. -/
abbrev devIlStart : Nat := 3
abbrev nDevPerIl : Nat := 8
abbrev nExtIl : Nat := 5

/-- `TIME_SLICE_MS * 1000`. -/
abbrev timeSliceUs : Word := 3000

/-! ## Processor states -/

/-- `sizeof(state_t)` in words. -/
def Target.stateWords : Target → Nat
  | .umps => 35
  | .uarm => 22

/-- A `state_t`. -/
abbrev CpuState (T : Target) := Fin T.stateWords → Word

namespace Target

/-- `pc_epc` / `pc`. -/
def pc : (T : Target) → Fin T.stateWords
  | .umps => ⟨3, by decide⟩
  | .uarm => ⟨15, by decide⟩

/-- `status` / `cpsr`. -/
def status : (T : Target) → Fin T.stateWords
  | .umps => ⟨2, by decide⟩
  | .uarm => ⟨16, by decide⟩

/-- `cause` / `CP15_Cause`. -/
def cause : (T : Target) → Fin T.stateWords
  | .umps => ⟨1, by decide⟩
  | .uarm => ⟨19, by decide⟩

/-- `reg_sp` / `sp`. -/
def sp : (T : Target) → Fin T.stateWords
  | .umps => ⟨30, by decide⟩
  | .uarm => ⟨13, by decide⟩

/-- The word behind `VM`: `status` / `CP15_Control`. -/
def vm : (T : Target) → Fin T.stateWords
  | .umps => ⟨2, by decide⟩
  | .uarm => ⟨17, by decide⟩

/-- `SYSARG0`: `reg_a0` / `a1`. -/
def sysArg0 : (T : Target) → Fin T.stateWords
  | .umps => ⟨7, by decide⟩
  | .uarm => ⟨0, by decide⟩

/-- `SYSARG1`: `reg_a1` / `a2`. -/
def sysArg1 : (T : Target) → Fin T.stateWords
  | .umps => ⟨8, by decide⟩
  | .uarm => ⟨1, by decide⟩

/-- `SYSARG2`: `reg_a2` / `a3`. -/
def sysArg2 : (T : Target) → Fin T.stateWords
  | .umps => ⟨9, by decide⟩
  | .uarm => ⟨2, by decide⟩

/-- `SYSARG3`: `reg_a3` / `a4`. -/
def sysArg3 : (T : Target) → Fin T.stateWords
  | .umps => ⟨10, by decide⟩
  | .uarm => ⟨3, by decide⟩

/-- `SYSRETURN`: `reg_v0` / `a1`. -/
def sysReturn : (T : Target) → Fin T.stateWords
  | .umps => ⟨5, by decide⟩
  | .uarm => ⟨0, by decide⟩

/-- `KERNEL_MODE`, as a function of the status word. -/
def kernelMode : Target → Word → Word
  | .umps, s => s &&& ~~~0x00000002#32
  | .uarm, s => s ||| 0x0000001F#32

/-- `ALL_INT_ENABLE`, as a function of the status word. -/
def allIntEnable : Target → Word → Word
  | .umps, s => s ||| 0x0000ff00#32 ||| 0x00000004#32
  | .uarm, s => s &&& ~~~0x00000040#32 &&& ~~~0x00000080#32

/-- `VM_OFF`. -/
def vmOff : Target → Word
  | .umps => ~~~0x01000000#32
  | .uarm => ~~~0x00000001#32

/-- `CAUSE_EXC` of a cause word. -/
def causeExc : Target → Word → Word
  | .umps, c => (c &&& 0x0000007c#32) >>> 2
  | .uarm, c => c &&& 0xFFFFFF#32

/-- `CAUSE_SYSCALL`. -/
def causeSyscall : Target → Word
  | .umps => 8
  | .uarm => 4

/-- `INT_IS_PENDING`. -/
def intIsPending : Target → Word → Nat → Bool
  | .umps, c, line => c &&& (1#32 <<< (8 + line)) != 0
  | .uarm, c, line => c &&& (1#32 <<< (line + 24)) != 0

/-- `DEV_REG_START`. -/
def devRegStart : Target → Word
  | .umps => 0x10000050
  | .uarm => 0x00000040

/-- `TERM_0_ADDR`. -/
def term0Addr : Target → Word
  | .umps => 0x10000250
  | .uarm => 0x00000240

/-- `sizeof(pcb_t)`. -/
def pcbSize : Target → Nat
  | .umps => 232
  | .uarm => 176

/-- `IS_TERMINAL`. -/
def isTerminal (T : Target) (device : Word) : Bool := decide (T.term0Addr.toNat ≤ device.toNat)

/-- `DEV_REG_ADDR`. -/
def devRegAddr (T : Target) (line dev : Nat) : Word :=
  T.devRegStart + BitVec.ofNat 32 ((line - devIlStart) * nDevPerIl * 16 + dev * 16)

end Target

/-- A word of the return register replaced: `SYSRETURN(state) = w`. -/
def CpuState.setReturn {T : Target} (st : CpuState T) (w : Word) : CpuState T :=
  Function.update st T.sysReturn w

def CpuState.setPc {T : Target} (st : CpuState T) (w : Word) : CpuState T := Function.update st T.pc w

/-! ## Devices -/

/-- A device function: the device's index among the forty registers, and which side of a terminal. The
functions of the other devices have `rx = false`. -/
structure DevFn where
  dev : Nat
  rx : Bool
deriving DecidableEq

/-- The memory mapped device functions and their pending interrupts. -/
structure Hw where
  status : DevFn → Word
  command : DevFn → Word
  pending : DevFn → Bool

namespace Hw

/-- The device function whose command register is at `addr`, if any. -/
def fnAt (T : Target) (addr : Word) : Option DevFn :=
  let off := (addr - T.devRegStart).toNat
  let dev := off / 16
  if dev < 32 then if off % 16 = 4 then some ⟨dev, false⟩ else none
  else if dev < 40 then
    if off % 16 = 4 then some ⟨dev, true⟩ else if off % 16 = 12 then some ⟨dev, false⟩ else none
  else none

/-- An operation is in progress: the device register is frozen until it completes. -/
def inProgress (hw : Hw) (f : DevFn) : Bool := hw.status f == stBusy && !hw.pending f

/-- A command written to a device function. A frozen register accepts none; otherwise it acknowledges the pending
interrupt, and anything but `CMD_ACK` starts an operation. -/
def issue (hw : Hw) (f : DevFn) (cmd : Word) : Hw :=
  if hw.inProgress f then hw
  else
    { status := Function.update hw.status f (if cmd = cmdAck then stReady else stBusy)
      command := Function.update hw.command f cmd
      pending := Function.update hw.pending f false }

/-- The device interrupts: bit `i` of the interrupting devices bitmap of a line. Both sides of a terminal
raise the same bit. -/
def interrupting (hw : Hw) (line i : Nat) : Bool :=
  hw.pending ⟨(line - devIlStart) * nDevPerIl + i, false⟩ ||
    (line == ilTerminal && hw.pending ⟨(line - devIlStart) * nDevPerIl + i, true⟩)

/-- A byte from its bits, lowest first. -/
def ofBits : List Bool → Nat
  | [] => 0
  | b :: bs => b.toNat + 2 * ofBits bs

/-- The byte at `CDEV_BITMAP_ADDR(line)`. -/
def bitmap (hw : Hw) (line : Nat) : Nat := ofBits ((List.range nDevPerIl).map (hw.interrupting line))

end Hw
end Bikaya.Model
