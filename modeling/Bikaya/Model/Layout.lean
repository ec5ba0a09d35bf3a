import Mathlib.Data.List.FinRange
import Mathlib.Tactic.FinCases
import Bikaya.Model.Types

/-!
# A `pcb_t` as words (`include/types.h`)

`members` : the members of a `pcb_t` in memory order. `spec_pass_up` takes an index from a register and does not check
it, so it reads and writes words of this and other PCBs, or beyond `pcbTable` (`loadWord`, `storeWord`).
-/

namespace Bikaya.Model
open Bikaya.Lib KM

variable {T : Target}

/-- A word of a `pcb_t`, by its member. A `time_t` has its low word first. -/
inductive PcbWord (T : Target) where
  | link (field : Pid → Node) (prev : Bool)
  | parent
  | state (i : Fin T.stateWords)
  | priority
  | originalPriority
  | semkey
  | startTm (high : Bool)
  | userTm (high : Bool)
  | kernelTm (high : Bool)
  | excNewArea (i : Fin 3)
  | excOldArea (i : Fin 3)

/-- What aligns `start_tm`. -/
def Target.padding : (T : Target) → List (Option (PcbWord T))
  | .umps => [none]
  | .uarm => []

/-- `pcb_t`, word by word. -/
def Target.members (T : Target) : List (Option (PcbWord T)) :=
  List.flatten [
    [some (.link .pNext false), some (.link .pNext true), some .parent],
    [some (.link .pChild false), some (.link .pChild true), some (.link .pSib false), some (.link .pSib true)],
    (List.finRange T.stateWords).map fun i => some (.state i),
    [some .priority, some .originalPriority, some .semkey],
    T.padding,
    [some (.startTm false), some (.startTm true), some (.userTm false), some (.userTm true)],
    [some (.kernelTm false), some (.kernelTm true)],
    (List.finRange 3).map fun i => some (.excNewArea i),
    (List.finRange 3).map fun i => some (.excOldArea i)]

theorem members_length (T : Target) : 4 * T.members.length = T.pcbSize := by cases T <;> rfl

/-- The offsets of `exc_new_areas` and `exc_old_areas`. -/
def Target.excNewAreas (T : Target) : Nat := T.pcbSize - 24
def Target.excOldAreas (T : Target) : Nat := T.pcbSize - 12

/-- The word of a `pcb_t` at an address. -/
def Cfg.wordAt (cfg : Cfg T) (addr : Word) : Option (Pid × PcbWord T) :=
  let off := (addr - cfg.pcbTable).toNat
  if off % 4 = 0 ∧ off / T.pcbSize < maxProc then
    (T.members[off % T.pcbSize / 4]?.join).map fun w => (off / T.pcbSize, w)
  else none

/-- Half of a `time_t`. -/
def half (high : Bool) (t : BitVec 64) : Word := if high then (t >>> 32).truncate 32 else t.truncate 32

def setHalf (high : Bool) (t : BitVec 64) (w : Word) : BitVec 64 := if high then w ++ half false t else half true t ++ w

/-- The word of a PCB. -/
def Pool.word (cfg : Cfg T) (pool : Pool T) (p : Pid) : PcbWord T → Word
  | .link field false => cfg.beyond.nodeAddr (pool.links.next (field p))
  | .link field true => cfg.beyond.nodeAddr (pool.links.prev (field p))
  | .parent => cfg.pcbPtr (pool.pcbs p).pParent
  | .state i => (pool.pcbs p).pS i
  | .priority => BitVec.ofInt 32 (pool.pcbs p).priority
  | .originalPriority => BitVec.ofInt 32 (pool.pcbs p).originalPriority
  | .semkey => (pool.pcbs p).pSemkey
  | .startTm high => half high (pool.pcbs p).startTm
  | .userTm high => half high (pool.pcbs p).userTm
  | .kernelTm high => half high (pool.pcbs p).kernelTm
  | .excNewArea i => (pool.pcbs p).excNewAreas i
  | .excOldArea i => (pool.pcbs p).excOldAreas i

/-- A word of a PCB other than a link, written. -/
def Pcb.setWord (cfg : Cfg T) (q : Pcb T) (w : Word) : PcbWord T → Pcb T
  | .link _ _ => q
  | .parent => { q with pParent := cfg.beyond.pcb w }
  | .state i => { q with pS := Function.update q.pS i w }
  | .priority => { q with priority := w.toInt }
  | .originalPriority => { q with originalPriority := w.toInt }
  | .semkey => { q with pSemkey := w }
  | .startTm high => { q with startTm := setHalf high q.startTm w }
  | .userTm high => { q with userTm := setHalf high q.userTm w }
  | .kernelTm high => { q with kernelTm := setHalf high q.kernelTm w }
  | .excNewArea i => { q with excNewAreas := Function.update q.excNewAreas i w }
  | .excOldArea i => { q with excOldAreas := Function.update q.excOldAreas i w }

def Pool.setWord (cfg : Cfg T) (pool : Pool T) (p : Pid) (word : PcbWord T) (w : Word) : Pool T where
  links :=
    match word with
    | .link field false => { pool.links with next := Function.update pool.links.next (field p) (cfg.beyond.node w) }
    | .link field true => { pool.links with prev := Function.update pool.links.prev (field p) (cfg.beyond.node w) }
    | _ => pool.links
  pcbs := Function.update pool.pcbs p ((pool.pcbs p).setWord cfg w word)
  sKey := pool.sKey

/-- A word read through a pointer that may be anywhere. -/
def loadWord (cfg : Cfg T) (addr : Word) : KM T Word := do
  let m ← machine
  match cfg.wordAt addr with
  | some (p, word) => pure (m.pool.word cfg p word)
  | none => pure (cfg.beyond.load addr m)

/-- A word written through a pointer that may be anywhere. -/
def storeWord (cfg : Cfg T) (addr w : Word) : KM T Unit :=
  upd fun m =>
    match cfg.wordAt addr with
    | some (p, word) => { m with pool := m.pool.setWord cfg p word w }
    | none => cfg.beyond.store addr w m

theorem wordAt_pcbAddr (cfg : Cfg T) {p k : Nat} (hp : p < maxProc) (hk : k < T.members.length) :
    cfg.wordAt (cfg.pcbAddr p + BitVec.ofNat 32 (4 * k)) = (T.members[k]?.join).map fun w => (p, w) := by
  have hlen := members_length T
  have hpos : 0 < T.pcbSize := by cases T <;> decide
  have hmul : p * T.pcbSize + T.pcbSize ≤ maxProc * T.pcbSize := by
    rw [← Nat.succ_mul]
    exact Nat.mul_le_mul_right _ hp
  have hfits := cfg.pcbTable_fits
  have htable := cfg.pcbTable_pos
  have hoff : (cfg.pcbAddr p + BitVec.ofNat 32 (4 * k) - cfg.pcbTable).toNat = p * T.pcbSize + 4 * k := by
    unfold Cfg.pcbAddr
    rw [BitVec.add_assoc, ← BitVec.ofNat_add, BitVec.add_comm, BitVec.add_sub_cancel, BitVec.toNat_ofNat,
      Nat.mod_eq_of_lt]
    omega
  have hdiv : (p * T.pcbSize + 4 * k) / T.pcbSize = p := by
    rw [Nat.mul_comm, Nat.mul_add_div hpos, Nat.div_eq_of_lt (by omega), Nat.add_zero]
  have hmod : (p * T.pcbSize + 4 * k) % T.pcbSize = 4 * k := by
    rw [Nat.mul_comm, Nat.mul_add_mod, Nat.mod_eq_of_lt (by omega)]
  have halign : (p * T.pcbSize + 4 * k) % 4 = 0 := by
    rw [← hlen, Nat.mul_comm p, Nat.mul_assoc, ← Nat.mul_add, Nat.mul_mod_right]
  unfold Cfg.wordAt
  dsimp only
  rw [hoff, hdiv, hmod, Nat.mul_div_cancel_left k (by decide), if_pos ⟨halign, hp⟩]

/-- Within its bounds an array is where the members say. -/
theorem wordAt_excAreas (cfg : Cfg T) {p : Pid} (hp : p < maxProc) (i : Fin 3) :
    cfg.wordAt (cfg.pcbAddr p + BitVec.ofNat 32 (T.excNewAreas + 4 * i)) = some (p, .excNewArea i) ∧
    cfg.wordAt (cfg.pcbAddr p + BitVec.ofNat 32 (T.excOldAreas + 4 * i)) = some (p, .excOldArea i) := by
  have hnew : T.excNewAreas + 4 * i = 4 * (T.excNewAreas / 4 + i) := by
    cases T <;> simp [Target.excNewAreas, Target.pcbSize] <;> omega
  have hold : T.excOldAreas + 4 * i = 4 * (T.excOldAreas / 4 + i) := by
    cases T <;> simp [Target.excOldAreas, Target.pcbSize] <;> omega
  have hlen : ∀ T : Target, ∀ i : Fin 3,
      T.excNewAreas / 4 + i < T.members.length ∧ T.excOldAreas / 4 + i < T.members.length := by
    intro T i
    cases T <;> revert i <;> decide
  rw [hnew, hold, wordAt_pcbAddr cfg hp (hlen T i).1, wordAt_pcbAddr cfg hp (hlen T i).2]
  constructor
  · cases T <;> fin_cases i <;> rfl
  · cases T <;> fin_cases i <;> rfl

end Bikaya.Model
