import Bikaya.Lib.Exec
import Bikaya.Model.Arch
import Bikaya.Model.Listx

/-!
# The kernel's data (`include/types.h`, the static variables of `src/`)

* `Pcb`, `Node` : a `pcb_t` without its list fields, and the places of all `struct list_head` fields and
  sentinels;
* `Pool` : everything `pcb.c` and `asl.c` own, with the loops of `list_for_each_entry` (`listSearch`);
* `Machine` : the pool, the other static variables, the old areas, user memory and the devices;
* `Obs`, `KState` : the history of a run, for stating properties of it; the code never reads it.
-/

namespace Bikaya.Model
open Bikaya.Lib

/-- A `pcb_t *` other than NULL. The objects below `maxProc` are those of `pcbTable`. -/
abbrev Pid := Nat

/-- A semaphore key: the address of an `int`. -/
abbrev Key := Word

/-- A `pcb_t`, less `p_next`, `p_child` and `p_sib`. -/
structure Pcb (T : Target) where
  pParent : Option Pid
  pS : CpuState T
  priority : Int
  originalPriority : Int
  pSemkey : Key
  startTm : BitVec 64
  userTm : BitVec 64
  kernelTm : BitVec 64
  excNewAreas : Fin 3 → Word
  excOldAreas : Fin 3 → Word

/-- A `pcb_t` after `memset(pcb, 0, sizeof(pcb_t))`. -/
def Pcb.zero {T : Target} : Pcb T where
  pParent := none
  pS := fun _ => 0
  priority := 0
  originalPriority := 0
  pSemkey := 0
  startTm := 0
  userTm := 0
  kernelTm := 0
  excNewAreas := fun _ => 0
  excOldAreas := fun _ => 0

/-- The `struct list_head`s: the static sentinels, queue heads of other code (`head`), and the fields of
`pcb_t` and of `semdTable`. -/
inductive Node where
  | pcbFree
  | readyQueue
  | semdFree
  | asl
  | head (n : Nat)
  | pNext (p : Pid)
  | pChild (p : Pid)
  | pSib (p : Pid)
  | sNext (d : Nat)
  | sProcQ (d : Nat)
deriving DecidableEq

/-- `container_of(_, pcb_t, p_next)`. -/
def Node.pcb? : Node → Option Pid
  | pNext p => some p
  | _ => none

/-- `container_of(_, pcb_t, p_sib)`. -/
def Node.child? : Node → Option Pid
  | pSib p => some p
  | _ => none

/-- `container_of(_, semd_t, s_next)`. -/
def Node.semd? : Node → Option Nat
  | sNext d => some d
  | _ => none

/-- How an execution leaves the C abstract machine: a NULL pointer dereferenced, a pointer to no object of
the expected type dereferenced, an array index out of range, or a loop that does not end. -/
inductive Fault where
  | nullDeref
  | wild
  | badIndex
  | hang
deriving DecidableEq

/-- More iterations than any list in a 32-bit address space has members. -/
@[irreducible] def walkFuel : Nat := 2 ^ 32

/-- How many `pcb_t` objects fit in the address space. -/
def pcbObjects : Nat := 2 ^ 25

/-- The state of `pcb.c` and `asl.c`. -/
structure Pool (T : Target) where
  links : Links Node
  pcbs : Pid → Pcb T
  sKey : Nat → Key

/-- The code of `pcb.c` and `asl.c`. -/
abbrev PM (T : Target) := Exec (Pool T) Empty Fault

namespace PM
variable {T : Target}

/-- A list operation; it fails where it would dereference NULL. -/
def onLinks (f : Links Node → Option (Links Node)) : PM T Unit := fun p =>
  match f p.links with
  | some l => .ret () { p with links := l }
  | none => .fault .nullDeref

def modifyPcb (p : Pid) (f : Pcb T → Pcb T) : PM T Unit :=
  Exec.modify fun pool => { pool with pcbs := Function.update pool.pcbs p (f (pool.pcbs p)) }

end PM

/-- `list_for_each_entry` up to the first entry that passes `test`, from the node at `pos`. The test is
`none` where it would read a field of something that is no entry. -/
def searchFrom (l : Links Node) (head : Node) (test : Node → Option Bool) :
    Nat → Option Node → Except Fault (Option Node)
  | 0, _ => .error .hang
  | _ + 1, none => .error .nullDeref
  | n + 1, some pos =>
    if pos = head then .ok none
    else
      match test pos with
      | none => .error .wild
      | some true => .ok (some pos)
      | some false => searchFrom l head test n (l.next pos)

def listSearch {T : Target} (head : Node) (test : Pool T → Node → Option Bool) : PM T (Option Node) :=
  fun p =>
    match searchFrom p.links head (test p) walkFuel (p.links.next head) with
    | .ok r => .ret r p
    | .error f => .fault f

/-! ## The machine -/

/-- The exception old areas. -/
inductive OldArea where
  | int
  | tlb
  | pgmtrap
  | sysbk
deriving DecidableEq

/-- All the state the kernel works on. -/
structure Machine (T : Target) where
  pool : Pool T
  currentProc : Option Pid
  switchTick : Word
  idleProcState : CpuState T
  oldAreas : OldArea → CpuState T
  /-- `old_state` of `syscalls.c`. -/
  oldState : Option OldArea
  /-- Memory outside the kernel's own variables. -/
  mem : Word → Word
  hw : Hw
  /-- The interval timer. -/
  timer : Word
  /-- How many times the TOD clock has been read. -/
  reads : Nat

/-- `int` arithmetic on priorities: the machine's, or exact. -/
inductive PrioArith where
  | int32
  | exact
deriving DecidableEq

/-- `priority++`. -/
def PrioArith.succ : PrioArith → Int → Int
  | int32, p => (p + 1).bmod (2 ^ 32)
  | exact, p => p + 1

/-- What the compiled kernel does where C leaves it undefined: how it takes a word for a pointer, what it finds and
changes at an address outside `pcbTable`, and what `kill_tree` makes of a pointer to no element of `pcbTable` (none if
it does not come back). -/
structure Beyond (T : Target) where
  nodeAddr : Option Node → Word
  node : Word → Option Node
  pcb : Word → Option Pid
  load : Word → Machine T → Word
  store : Word → Word → Machine T → Machine T
  killTree : Word → Machine T → Option (Machine T)

/-- What is fixed during a run: where the linker put the tables, the boot-time contents of memory, and the
TOD value (all 64 bits of it) at each successive reading. -/
structure Cfg (T : Target) where
  prio : PrioArith
  clock : Nat → Nat
  timeScale : Word
  pcbTable : Word
  semKeys : Word
  ramTop : Word
  idleCode : Word
  testCode : Word
  /-- What `STST` stores. -/
  stst : CpuState T
  mem0 : Word → Word
  hw0 : Hw
  beyond : Beyond T
  pcbTable_pos : 0 < pcbTable.toNat
  pcbTable_fits : pcbTable.toNat + maxProc * T.pcbSize ≤ 2 ^ 32
  semKeys_fits : semKeys.toNat + (nExtIl + 1) * nDevPerIl * 4 ≤ 2 ^ 32

namespace Cfg
variable {T : Target}

/-- `&pcbTable[p]`. -/
def pcbAddr (cfg : Cfg T) (p : Pid) : Word := cfg.pcbTable + BitVec.ofNat 32 (p * T.pcbSize)

/-- The element of `pcbTable` at an address. -/
def pcbAt (cfg : Cfg T) (w : Word) : Option Pid :=
  let off := (w - cfg.pcbTable).toNat
  if off % T.pcbSize = 0 ∧ off / T.pcbSize < maxProc then some (off / T.pcbSize) else none

/-- A `pcb_t *` stored in memory. -/
def pcbPtr (cfg : Cfg T) : Option Pid → Word
  | none => 0
  | some p => cfg.pcbAddr p

/-- `&devices_semkeys[row][col]`. -/
def semKey (cfg : Cfg T) (row col : Nat) : Key := cfg.semKeys + BitVec.ofNat 32 ((row * nDevPerIl + col) * 4)

/-- `TIME_SLICE`. -/
def timeSlice (cfg : Cfg T) : Word := timeSliceUs * cfg.timeScale

end Cfg

/-! ## Kernel entries and the history -/

/-- A kernel entry: which old area the hardware filled and with what, and what memory and the devices were
by then. -/
structure Entry (T : Target) where
  area : OldArea
  st : CpuState T
  mem : Word → Word
  hw : Hw

/-- What a run is seen to do. -/
inductive Obs (T : Target) where
  /-- The kernel is entered. -/
  | entry (e : Entry T)
  /-- `p` is charged `amount`, in kernel or user time; `reading` is the number of the TOD reading. -/
  | charge (p : Pid) (kernel : Bool) (reading : Nat) (amount : Word)
  /-- `switch_tick` is set to the TOD reading of that number. -/
  | tick (reading : Nat)
  /-- `create_process` or `scheduler_init` gave `p` its first state. -/
  | create (p : Pid) (st : CpuState T)
  | enqueue (p : Pid)
  /-- The time slice of the current process is over, and the ready processes have aged. -/
  | expire
  /-- `scheduler_run` is entered. -/
  | run
  /-- `LDST` of the state of a process taken from the ready queue. -/
  | dispatch (p : Pid) (st : CpuState T)
  | idle (st : CpuState T)
  /-- `LDST(old_state)`. -/
  | resume (st : CpuState T)
  /-- `LDST` of a new area registered by `p`. -/
  | passUp (p : Pid) (st : CpuState T)
  /-- `p` blocks on `key`; `full` is the result of `asl_insert_blocked`. -/
  | block (p : Pid) (key : Key) (full : Bool)
  /-- A VERHOGEN, with the process it woke. -/
  | verhogen (semaddr : Key) (woken : Option Pid)
  /-- A PASSEREN, and whether it went through at once. -/
  | passeren (semaddr : Key) (passed : Bool)
  /-- `p` is about to write `command` to the device function at an address. -/
  | waitIo (p : Pid) (addr : Word) (command : Word)
  /-- A device operation ended with `status`; `p` waited for it. -/
  | complete (key : Key) (p : Pid) (status : Word)
  /-- The device function at an address is acknowledged. -/
  | ack (addr : Word)
  /-- `kill_tree` freed `p`. -/
  | bury (p : Pid)

/-- The machine and its history, latest first, each observation with the machine right after it. -/
structure KState (T : Target) where
  m : Machine T
  hist : List (Obs T × Machine T)

/-- The rest of the kernel's code. It exits by loading a processor state. -/
abbrev KM (T : Target) := Exec (KState T) (CpuState T) Fault

namespace KM
variable {T : Target}

def machine : KM T (Machine T) := fun s => .ret s.m s

def upd (f : Machine T → Machine T) : KM T Unit := Exec.modify fun s => { s with m := f s.m }

/-- Add to the history. -/
def note (o : Obs T) : KM T Unit := Exec.modify fun s => { s with hist := (o, s.m) :: s.hist }

/-- Call into `pcb.c` or `asl.c`. -/
def pool {α : Type} (x : PM T α) : KM T α :=
  Exec.zoom (fun s => s.m.pool) (fun p s => { s with m := { s.m with pool := p } }) x

def modifyPcb (p : Pid) (f : Pcb T → Pcb T) : KM T Unit := pool (PM.modifyPcb p f)

/-- `*addr = w`. -/
def store (addr w : Word) : KM T Unit := upd fun m => { m with mem := Function.update m.mem addr w }

/-- The `state_t` in memory at `addr`. -/
def stateAt (mem : Word → Word) (addr : Word) : CpuState T := fun i => mem (addr + BitVec.ofNat 32 (4 * i))

/-- `memcpy(addr, &st, sizeof(state_t))`. -/
def storeState (mem : Word → Word) (addr : Word) (st : CpuState T) : Word → Word := fun x =>
  let off := (x - addr).toNat
  if h : off % 4 = 0 ∧ off / 4 < T.stateWords then st ⟨off / 4, h.2⟩ else mem x

def setOldArea (a : OldArea) (st : CpuState T) : KM T Unit :=
  upd fun m => { m with oldAreas := Function.update m.oldAreas a st }

/-- `LDST`, with the observation it makes. -/
def ldst (o : Obs T) (st : CpuState T) : KM T Unit := do
  note o
  Exec.exit st

end KM
end Bikaya.Model
