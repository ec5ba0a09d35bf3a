import Bikaya.Lib.Intervals
import Bikaya.Spec.History

/-!
# What was charged

A history as an account of time: the intervals between TOD readings that were charged, and to whom (`charges`),
how much a process was charged since it was created (`chargedTo`), and the readings between which it happened.
-/

namespace Bikaya.Spec
open Bikaya.Lib Bikaya.Model

variable {T : Target}

/-- The TOD reading to which `switch_tick` was last set. -/
def lastTick : History T → Option Nat
  | [] => none
  | (.tick j, _) :: _ => some j
  | _ :: h => lastTick h

/-- The TOD reading to which `switch_tick` was first set, by the first `scheduler_run`. -/
def firstTick : History T → Option Nat
  | [] => none
  | (.tick j, _) :: h => (firstTick h).or (some j)
  | _ :: h => firstTick h

/-- The last TOD reading that accounting made. -/
def lastRead : History T → Option Nat
  | [] => none
  | (.charge _ _ j _, _) :: _ => some j
  | (.tick j, _) :: _ => some j
  | _ :: h => lastRead h

/-- The observations since `switch_tick` was last set, from that one on. -/
def sinceTick : History T → History T
  | [] => []
  | (.tick j, m) :: _ => [(.tick j, m)]
  | n :: h => n :: sinceTick h

/-- Time charged to a process: from one TOD reading to another. -/
structure Charge where
  pid : Pid
  kernel : Bool
  start : Nat
  stop : Nat
  amount : Word

/-- All the time charged, the last interval first. -/
def charges : History T → List Charge
  | [] => []
  | (.charge p kernel j amount, _) :: h => ⟨p, kernel, (lastTick h).getD 0, j, amount⟩ :: charges h
  | _ :: h => charges h

/-- The sum of all that was charged. -/
def total (h : History T) : Nat := ((charges h).map fun c => c.amount.toNat).sum

/-- What was charged to the PCB since it was last allocated, as the 64-bit sum it is kept as. -/
def chargedTo (p : Pid) (kernel : Bool) : History T → BitVec 64
  | [] => 0
  | (.create r _, _) :: h => if r = p then 0 else chargedTo p kernel h
  | (.charge r k _ amount, _) :: h =>
    if r = p ∧ k = kernel then chargedTo p kernel h + amount.zeroExtend 64 else chargedTo p kernel h
  | _ :: h => chargedTo p kernel h

/-! ## Dispatches -/

/-- The TOD reading of that number, as `getTODLO` returns it. -/
def todLow (cfg : Cfg T) (j : Nat) : Word := BitVec.ofNat 32 (cfg.clock j)

/-- The number of the next TOD reading when `scheduler_run` was last entered. -/
def runRead (h : History T) : Nat := ((lastRun h).map Machine.reads).getD 0

/-- The readings with which `scheduler_run` began when it dispatched `p`, since `p` was created, the last first. -/
def dispatchReads (p : Pid) : History T → List Nat
  | [] => []
  | (.create r _, _) :: h => if r = p then [] else dispatchReads p h
  | (.dispatch r _, _) :: h => if r = p then runRead h :: dispatchReads p h else dispatchReads p h
  | _ :: h => dispatchReads p h

/-- The first of them. -/
def firstDispatch (p : Pid) (h : History T) : Option Nat := (dispatchReads p h).getLast?

/-- `p` was the current process when it was created, so that it ran before it was dispatched. -/
def createdRunning (p : Pid) : History T → Bool
  | [] => false
  | (.create r _, m) :: h => if r = p then decide (m.currentProc = some p) else createdRunning p h
  | _ :: h => createdRunning p h

/-- Since its creation `p` has run from a first dispatch on, with the reading `i`. -/
def FirstRan (p : Pid) (i : Nat) (h : History T) : Prop := createdRunning p h = false ∧ firstDispatch p h = some i

instance (p : Pid) (i : Nat) (h : History T) : Decidable (FirstRan p i h) := by
  unfold FirstRan
  infer_instance

/-- What `p` was charged since it was created, the last interval first. -/
def chargesOf (p : Pid) : History T → List Charge
  | [] => []
  | (.create r _, _) :: h => if r = p then [] else chargesOf p h
  | (.charge r kernel j amount, _) :: h =>
    if r = p then ⟨r, kernel, (lastTick h).getD 0, j, amount⟩ :: chargesOf p h else chargesOf p h
  | _ :: h => chargesOf p h

/-- The time from the first dispatch of `p`, with the reading `i`, to the last tick that was not charged to `p`. -/
def uncharged (cfg : Cfg T) (p : Pid) (i : Nat) (h : History T) : Nat :=
  gaps Charge.start Charge.stop cfg.clock i (chargesOf p h) +
    (cfg.clock ((lastTick h).getD 0) - cfg.clock (lastStop Charge.stop i (chargesOf p h)))

/-! ## What accounting promises -/

/-- All that was charged is no more than the time from the first dispatch to the last reading of accounting. -/
def Bounded (cfg : Cfg T) (h : History T) : Prop :=
  total h = 0 ∨ ∃ f i, firstTick h = some f ∧ lastRead h = some i ∧ total h + cfg.clock f ≤ cfg.clock i

/-- What is charged is the time since the last tick, to the process that has been the current one since. -/
def ChargesRunning (cfg : Cfg T) (n : Obs T × Machine T) (earlier : History T) : Prop :=
  match n.1 with
  | .charge p _ j amount => ∃ i, lastTick earlier = some i ∧ i < j ∧
      amount.toNat = (cfg.clock j - cfg.clock i) % 2 ^ 32 ∧ n.2.currentProc = some p ∧
      ∀ n' ∈ sinceTick earlier, n'.2.currentProc = some p
  | _ => True

end Bikaya.Spec
