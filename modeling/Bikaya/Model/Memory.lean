import Bikaya.Lib.Bytes
import Bikaya.Model.Main

/-!
# `src/memory.c`, and the new areas of `src/main.c`

The loops of `memset` and `memcpy` over a memory of bytes, as the compiled kernel has it; a length is a `size_t`, and
pointers wrap around. `INIT_NEW_AREA` fills the state that the hardware loads on an exception.
-/

namespace Bikaya.Model
open Bikaya.Lib.Bytes

/-- `while (n--) *p++ = (unsigned char)c;`. -/
def memsetLoop (c : BitVec 8) : Nat → Word → Mem → Mem
  | 0, _, mem => mem
  | n + 1, p, mem => memsetLoop c n (p + 1) (Function.update mem p c)

def memset (s : Word) (c : Int) (n : Word) (mem : Mem) : Word × Mem :=
  (s, memsetLoop (BitVec.ofInt 8 c) n.toNat s mem)

/-- `while (len--) *d++ = *s++;`. -/
def memcpyLoop : Nat → Word → Word → Mem → Mem
  | 0, _, _, mem => mem
  | n + 1, d, s, mem => memcpyLoop n (d + 1) (s + 1) (Function.update mem d (mem s))

def memcpy (dest src len : Word) (mem : Mem) : Word × Mem := (dest, memcpyLoop len.toNat dest src mem)

/-! ## New areas -/

/-- `sizeof(state_t)`. -/
def Target.stateSize (T : Target) : Word := BitVec.ofNat 32 (4 * T.stateWords)

/-- `ALL_INT_DISABLE`, as a function of the status word. -/
def Target.allIntDisable : Target → Word → Word
  | .umps, s => s &&& ~~~0x00000004#32
  | .uarm, s => s ||| 0x00000040#32 ||| 0x00000080#32

/-- `EXCV_BASE`. -/
def Target.excvBase : Target → Word
  | .umps => 0x20000000
  | .uarm => 0x00007000

/-- `INT_NEWAREA`, `TLB_NEWAREA`, `PGMTRAP_NEWAREA`, `SYSBK_NEWAREA`. -/
def Target.newArea (T : Target) (a : OldArea) : Word :=
  T.excvBase + (if a = .int then 1 else if a = .tlb then 3 else if a = .pgmtrap then 5 else 7) * T.stateSize

variable {T : Target}

/-- The address of a field of a `state_t`. -/
def fieldAddr (area : Word) (i : Fin T.stateWords) : Word := area + BitVec.ofNat 32 (4 * i)

/-- `(*area).i = f((*area).i)`. -/
def setField (area : Word) (i : Fin T.stateWords) (f : Word → Word) (mem : Mem) : Mem :=
  setWord mem (fieldAddr area i) (f (wordAt mem (fieldAddr area i)))

/-- `INIT_NEW_AREA`. -/
def initNewArea (T : Target) (ramTop area handler : Word) (mem : Mem) : Mem :=
  let mem := (memset area 0 T.stateSize mem).2
  let mem := setField area T.pc (fun _ => handler) mem
  let mem := setField area T.sp (fun _ => ramTop) mem
  let mem := setField area T.status T.kernelMode mem
  let mem := setField area T.status T.allIntDisable mem
  setField area T.vm (· &&& T.vmOff) mem

/-- What `main` does first; `handlers` are the addresses of the four handlers. -/
def initNewAreas (T : Target) (ramTop : Word) (handlers : OldArea → Word) (mem : Mem) : Mem :=
  let mem := initNewArea T ramTop (T.newArea .int) (handlers .int) mem
  let mem := initNewArea T ramTop (T.newArea .tlb) (handlers .tlb) mem
  let mem := initNewArea T ramTop (T.newArea .pgmtrap) (handlers .pgmtrap) mem
  initNewArea T ramTop (T.newArea .sysbk) (handlers .sysbk) mem

end Bikaya.Model
