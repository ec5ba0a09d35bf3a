import Bikaya.Lib.Forest
import Bikaya.Spec.BlockedMap
import Bikaya.Spec.PcbSets
import Bikaya.Spec.Reading

/-!
# What the tree operations of `pcb.c` are for: an ordered forest

`PcbTree` gives every PCB its children in the order in which they were inserted, besides the pool and the queues.
`TreeOp` are the tree operations and every other operation of `pcb.c` and `asl.c` that may come between them;
`Right` says which results the former may have and `next` what they do.
-/

namespace Bikaya.Spec
open Bikaya.Lib Bikaya.Model

inductive TreeOp where
  | insertChild (parent p : Pid)
  | removeChild (p : Pid)
  | findAndRemoveChild (p : Pid)
  | hasNoChildren (p : Pid)
  | pcb (op : PcbOp)
  | asl (op : AslOp)
  /-- `asl_find_and_remove_blocked_child`. -/
  | findAndRemoveBlockedChild (p : Pid)

namespace TreeOp

/-- The operation is one on the tree. -/
def OnTree : TreeOp → Prop
  | insertChild _ _ => True
  | removeChild _ => True
  | findAndRemoveChild _ => True
  | hasNoChildren _ => True
  | _ => False

/-- The operation writes nothing. -/
def Reads : TreeOp → Prop
  | hasNoChildren _ => True
  | pcb op => op.Reads
  | _ => False

end TreeOp

inductive TreeResult where
  | pcb (r : PcbResult)
  | asl (r : AslResult)

structure PcbTree where
  sets : PcbSets
  /-- Oldest first. -/
  kids : Pid → List Pid

/-- `p` is in the queue of a semaphore descriptor. -/
def InSemQueue (l : Links Node) (p : Pid) : Prop :=
  ∃ d < maxProc, ∃ xs, members l (.sProcQ d) = some xs ∧ Node.pNext p ∈ xs

namespace PcbTree

/-- After `pcb_init` and `asl_init`. -/
def initial : PcbTree where
  sets := .initial
  kids := fun _ => []

def Child (t : PcbTree) (p c : Pid) : Prop := c ∈ t.kids p

/-- When an operation may be called. -/
def Allowed (t : PcbTree) (l : Links Node) : TreeOp → Prop
  | .insertChild parent p => parent ∈ t.sets.allocated ∧ p ∈ t.sets.allocated ∧ (∀ r, p ∉ t.kids r) ∧
      ¬ Desc t.Child p parent
  | .removeChild p => p ∈ t.sets.allocated
  | .findAndRemoveChild _ => True
  | .hasNoChildren p => p ∈ t.sets.allocated
  | .pcb (.free p) => t.sets.Allowed (.free p) ∧ ¬ InSemQueue l p ∧ t.kids p = [] ∧ ∀ r, p ∉ t.kids r
  | .pcb (.setPriority p v) => t.sets.Allowed (.setPriority p v) ∧ ¬ InSemQueue l p
  | .pcb (.insertInQueue h p) => t.sets.Allowed (.insertInQueue h p) ∧ ¬ InSemQueue l p
  | .pcb op => t.sets.Allowed op
  | .asl (.insertBlocked _ p) => p ∈ t.sets.allocated ∧ ¬ t.sets.InQueue p ∧ ¬ InSemQueue l p
  | .asl _ => True
  | .findAndRemoveBlockedChild p => p ∈ t.sets.allocated

/-- What an operation may return. -/
def Right (t : PcbTree) : TreeOp → TreeResult → Prop
  | .insertChild _ _, .pcb .void => True
  | .removeChild p, .pcb (.pcb r) => r = (t.kids p).head?
  | .findAndRemoveChild p, .pcb (.pcb r) => r = some p ∧ (∃ parent, p ∈ t.kids parent) ∨
      r = none ∧ ∀ parent, p ∉ t.kids parent
  | .hasNoChildren p, .pcb (.bool b) => b = true ↔ t.kids p = []
  | .pcb op, .pcb r => t.sets.Right op r
  | .asl _, .asl _ => True
  | .findAndRemoveBlockedChild _, .pcb .void => True
  | _, _ => False

/-- What an operation with the given result does. -/
def next (t : PcbTree) : TreeOp → TreeResult → PcbTree
  | .insertChild parent p, _ => { t with kids := Function.update t.kids parent (t.kids parent ++ [p]) }
  | .removeChild p, _ => { t with kids := Function.update t.kids p (t.kids p).tail }
  | .findAndRemoveChild p, _ => { t with kids := fun r => (t.kids r).erase p }
  | .pcb op, .pcb r => { t with sets := t.sets.next op r }
  | _, _ => t

end PcbTree

end Bikaya.Spec
