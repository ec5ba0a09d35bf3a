import Bikaya.Model.Types

/-!
# Reading the lists of a machine

The lists as a walk over the links finds them: `members` follows `next` from a list head until it is back
(`none` if that never happens). `freeList`, `readyList`, `activeSemds`, `waitingList` and `childList` are the
lists of the kernel read so. `walkFrom` also reads lists that do not close. They are
computable, and say nothing about how the links came about.
-/

namespace Bikaya.Spec
open Bikaya.Lib Bikaya.Model

variable {T : Target}

def membersFrom (l : Links Node) (head : Node) : Nat → Option Node → Option (List Node)
  | 0, _ => none
  | _ + 1, none => none
  | n + 1, some x => if x = head then some [] else (membersFrom l head n (l.next x)).map (x :: ·)

/-- The nodes of a circular list, from its head on. -/
def members (l : Links Node) (head : Node) : Option (List Node) := membersFrom l head walkFuel (l.next head)

/-- The nodes met on a walk over the links, which may never come back to the head. -/
def walkFrom (l : Links Node) (head : Node) : Nat → Option Node → List Node
  | 0, _ => []
  | _ + 1, none => []
  | n + 1, some x => if x = head then [] else x :: walkFrom l head n (l.next x)

/-- The PCBs of a list linked through `p_next`. -/
def pcbsIn (m : Machine T) (head : Node) : List Pid :=
  ((members m.pool.links head).getD []).filterMap Node.pcb?

def freeList (m : Machine T) : List Pid := pcbsIn m .pcbFree

def readyList (m : Machine T) : List Pid := pcbsIn m .readyQueue

/-- The descriptors in the ASL. -/
def activeSemds (m : Machine T) : List Nat := ((members m.pool.links .asl).getD []).filterMap Node.semd?

/-- The descriptors in the free list. -/
def freeSemds (m : Machine T) : List Nat := ((members m.pool.links .semdFree).getD []).filterMap Node.semd?

/-- Who waits on a key. -/
def waitingList (m : Machine T) (key : Key) : List Pid :=
  match (activeSemds m).find? fun d => decide (m.pool.sKey d = key) with
  | some d => pcbsIn m (.sProcQ d)
  | none => []

/-- The children of a process. -/
def childList (m : Machine T) (p : Pid) : List Pid :=
  ((members m.pool.links (.pChild p)).getD []).filterMap Node.child?

/-- A walk over the free list meets `p`. -/
def OnFreeWalk (m : Machine T) (p : Pid) : Prop :=
  Node.pNext p ∈ walkFrom m.pool.links .pcbFree walkFuel (m.pool.links.next .pcbFree)

instance (m : Machine T) (p : Pid) : Decidable (OnFreeWalk m p) := by
  unfold OnFreeWalk
  infer_instance

/-- The PCB is in use. -/
def Alive (m : Machine T) (p : Pid) : Prop := p < maxProc ∧ p ∉ freeList m

instance (m : Machine T) (p : Pid) : Decidable (Alive m p) := by
  unfold Alive
  infer_instance

/-- `p` is the parent of `c`. -/
def ParentOf (m : Machine T) (p c : Pid) : Prop := (m.pool.pcbs c).pParent = some p

end Bikaya.Spec
