import Bikaya.Model.Syscalls

/-!
# `src/main.c` and runs

`boot` is `main()` up to the first `LDST`. After that the loaded process (or the idle code) runs, and the
hardware enters the kernel again: `enter` fills an old area and `handler` is the code of the new area. A
`Run` is any number of such entries, each allowed by a predicate on the state before it.
-/

namespace Bikaya.Model
open Bikaya.Lib KM

variable {T : Target} (cfg : Cfg T)

/-- The list heads defined with `LIST_HEAD`; all other static storage is zero. -/
def Pool.static : Pool T where
  links :=
    let l : Links Node := ⟨fun _ => none, fun _ => none⟩
    initListHead (initListHead (initListHead (initListHead l .pcbFree) .readyQueue) .semdFree) .asl
  pcbs := fun _ => Pcb.zero
  sKey := fun _ => 0

/-- The machine when `main` starts. -/
def Machine.static : Machine T where
  pool := Pool.static
  currentProc := none
  switchTick := 0
  idleProcState := fun _ => 0
  oldAreas := fun _ _ => 0
  oldState := none
  mem := cfg.mem0
  hw := cfg.hw0
  timer := 0
  reads := 0

def main : KM T Unit := do
  pool pcbInit
  pool aslInit
  schedulerInit cfg
  schedulerRun cfg

def boot : Outcome (KState T) (CpuState T) Fault Unit := main cfg ⟨Machine.static cfg, []⟩

/-- The handler of the new area that goes with an old area. -/
def handler : OldArea → KM T Unit
  | .int => interruptsHandler cfg
  | .tlb => tlbExceptionHandler cfg
  | .pgmtrap => trapExceptionHandler cfg
  | .sysbk => syscallHandler cfg

/-- What the hardware does at an entry. -/
def enter (e : Entry T) : KM T Unit := do
  upd fun m => { m with oldAreas := Function.update m.oldAreas e.area e.st, mem := e.mem, hw := e.hw }
  note (.entry e)

/-- One kernel entry, up to the next `LDST`. -/
def kernelStep (e : Entry T) : KM T Unit := do
  enter e
  handler cfg e.area

/-- The states at the exits of the kernel in the runs all of whose entries satisfy `ok`. -/
inductive Run (ok : KState T → Entry T → Prop) : KState T → Prop where
  | boot {st : CpuState T} {s : KState T} : boot cfg = .exit st s → Run ok s
  | step {s s' : KState T} {st : CpuState T} (e : Entry T) : Run ok s → ok s e →
      kernelStep cfg e s = .exit st s' → Run ok s'

/-- Any number of further entries, from a state on. -/
inductive RunFrom (ok : KState T → Entry T → Prop) (s₀ : KState T) : KState T → Prop where
  | refl : RunFrom ok s₀ s₀
  | step {s s' : KState T} {st : CpuState T} (e : Entry T) : RunFrom ok s₀ s → ok s e →
      kernelStep cfg e s = .exit st s' → RunFrom ok s₀ s'

end Bikaya.Model
