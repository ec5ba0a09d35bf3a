import Mathlib.Data.Finset.Insert
import Bikaya.Spec.Queues

/-!
# What `pcb.c` is for: a pool and priority queues

`PcbSets` forgets the lists: the allocated PCBs, their priorities, and for every initialised queue its members
in the order in which they were inserted. `Right` says which results an operation may have and `next` what it
does. `PcbLists` keeps the order of the lists, but no links; `PcbLists.step` is deterministic, and `Sorted` relates the two.
-/

namespace Bikaya.Spec
open Bikaya.Lib Bikaya.Model

inductive PcbOp where
  | alloc
  | free (p : Pid)
  /-- `p->priority = v`. -/
  | setPriority (p : Pid) (v : Int)
  | makeEmptyQueue (h : QHead)
  | isQueueEmpty (h : QHead)
  | insertInQueue (h : QHead) (p : Pid)
  | queueHead (h : QHead)
  | removeFromQueue (h : QHead)
  | findAndRemove (h : QHead) (p : Pid)
  | isFree (p : Pid)

/-- The operation writes nothing. -/
def PcbOp.Reads : PcbOp → Prop
  | isQueueEmpty _ => True
  | queueHead _ => True
  | isFree _ => True
  | _ => False

inductive PcbResult where
  | void
  | pcb (p : Option Pid)
  | bool (b : Bool)
deriving DecidableEq

structure PcbSets where
  allocated : Finset Pid
  prio : Pid → Int
  /-- `none` for a queue that is not initialised. -/
  arrivals : QHead → Option (List Pid)

namespace PcbSets

/-- After `pcb_init`: all PCBs are free, and of all queues only the static one is initialised. -/
def initial : PcbSets where
  allocated := ∅
  prio := fun _ => 0
  arrivals := fun h => if h = .ready then some [] else none

def InQueue (m : PcbSets) (p : Pid) : Prop := ∃ h xs, m.arrivals h = some xs ∧ p ∈ xs

/-- When an operation may be called. -/
def Allowed (m : PcbSets) : PcbOp → Prop
  | .alloc => True
  | .free p => p ∈ m.allocated ∧ ¬ m.InQueue p
  | .setPriority p _ => p ∈ m.allocated ∧ ¬ m.InQueue p
  | .makeEmptyQueue h => ∀ xs, m.arrivals h = some xs → xs = []
  | .isQueueEmpty h => ∃ xs, m.arrivals h = some xs
  | .insertInQueue h p => (∃ xs, m.arrivals h = some xs) ∧ p ∈ m.allocated ∧ ¬ m.InQueue p
  | .queueHead h => ∃ xs, m.arrivals h = some xs
  | .removeFromQueue h => ∃ xs, m.arrivals h = some xs
  | .findAndRemove h _ => ∃ xs, m.arrivals h = some xs
  | .isFree p => p < maxProc

/-- The member that is served first: nobody has a higher priority, and the equals came later. -/
def First (m : PcbSets) (xs : List Pid) (p : Pid) : Prop :=
  p ∈ xs ∧ ∀ y ∈ xs, y ≠ p → m.prio y < m.prio p ∨ m.prio y = m.prio p ∧ [p, y].Sublist xs

/-- NULL for an empty queue, else its first member. -/
def IsHead (m : PcbSets) (h : QHead) : Option Pid → Prop
  | none => m.arrivals h = some []
  | some p => ∃ xs, m.arrivals h = some xs ∧ m.First xs p

/-- What an operation may return. -/
def Right (m : PcbSets) : PcbOp → PcbResult → Prop
  | .alloc, .pcb none => m.allocated.card = maxProc
  | .alloc, .pcb (some p) => m.allocated.card < maxProc ∧ p < maxProc ∧ p ∉ m.allocated
  | .free _, .void => True
  | .setPriority _ _, .void => True
  | .makeEmptyQueue _, .void => True
  | .isQueueEmpty h, .bool b => b = true ↔ m.arrivals h = some []
  | .insertInQueue _ _, .void => True
  | .queueHead h, .pcb r => m.IsHead h r
  | .removeFromQueue h, .pcb r => m.IsHead h r
  | .findAndRemove h p, .pcb r => r = some p ∧ (∃ xs, m.arrivals h = some xs ∧ p ∈ xs) ∨
      r = none ∧ ∀ xs, m.arrivals h = some xs → p ∉ xs
  | .isFree p, .bool b => b = true ↔ p ∉ m.allocated
  | _, _ => False

def setArrivals (m : PcbSets) (h : QHead) (f : List Pid → List Pid) : PcbSets :=
  { m with arrivals := Function.update m.arrivals h ((m.arrivals h).map f) }

/-- What an operation with the given result does. -/
def next (m : PcbSets) : PcbOp → PcbResult → PcbSets
  | .alloc, .pcb (some p) =>
    { m with allocated := insert p m.allocated, prio := Function.update m.prio p 0 }
  | .free p, _ => { m with allocated := m.allocated.erase p }
  | .setPriority p v, _ => { m with prio := Function.update m.prio p v }
  | .makeEmptyQueue h, _ => { m with arrivals := Function.update m.arrivals h (some []) }
  | .insertInQueue h p, _ => m.setArrivals h (· ++ [p])
  | .removeFromQueue h, .pcb (some p) => m.setArrivals h (·.erase p)
  | .findAndRemove h p, _ => m.setArrivals h (·.erase p)
  | _, _ => m

end PcbSets

/-! ## The lists -/

structure PcbLists where
  free : List Pid
  queue : QHead → Option (List Pid)

namespace PcbLists

def setQueue (L : PcbLists) (h : QHead) (xs : Option (List Pid)) : PcbLists :=
  { L with queue := Function.update L.queue h xs }

/-- The first member of a queue. -/
def first (L : PcbLists) (h : QHead) : Option Pid := (L.queue h).bind List.head?

def step (prio : Pid → Int) (L : PcbLists) : PcbOp → PcbResult × PcbLists
  | .alloc => (.pcb L.free.head?, { L with free := L.free.tail })
  | .free p => (.void, { L with free := p :: L.free })
  | .setPriority _ _ => (.void, L)
  | .makeEmptyQueue h => (.void, L.setQueue h (some []))
  | .isQueueEmpty h => (.bool (decide (L.queue h = some [])), L)
  | .insertInQueue h p => (.void, L.setQueue h ((L.queue h).map (insertPrio prio p)))
  | .queueHead h => (.pcb (L.first h), L)
  | .removeFromQueue h => (.pcb (L.first h), L.setQueue h ((L.queue h).map List.tail))
  | .findAndRemove h p =>
    (.pcb (if p ∈ (L.queue h).getD [] then some p else none), L.setQueue h ((L.queue h).map (·.erase p)))
  | .isFree p => (.bool (decide (p ∈ L.free)), L)

/-- The sentinels and the members of their rings. -/
def rings (L : PcbLists) : Node → Option (List Node)
  | .pcbFree => some (L.free.map .pNext)
  | .readyQueue => (L.queue .ready).map (List.map .pNext)
  | .head n => (L.queue (.head n)).map (List.map .pNext)
  | _ => none

/-- The lists hold the sets: every PCB of the table is either free or allocated and nothing is in a list twice,
only allocated PCBs are in queues, and every queue is in stable order. -/
structure Sorted (L : PcbLists) (m : PcbSets) : Prop where
  free_nodup : L.free.Nodup
  mem_free : ∀ p, p ∈ L.free ↔ p < maxProc ∧ p ∉ m.allocated
  allocated_lt : ∀ p ∈ m.allocated, p < maxProc
  initialised : ∀ h, (L.queue h).isSome = (m.arrivals h).isSome
  nodup : ∀ h xs, L.queue h = some xs → xs.Nodup
  allocated : ∀ h xs, L.queue h = some xs → ∀ p ∈ xs, p ∈ m.allocated
  stable : ∀ h xs ys, L.queue h = some xs → m.arrivals h = some ys → StablySorted m.prio ys xs

end PcbLists

/-- The lists of `pcb.c` among all lists. -/
def Queues.lists (q : Queues) : PcbLists where
  free := q.free
  queue := q.queue

theorem Queues.lists_setQueue (q : Queues) (h : QHead) (xs : List Pid) :
    (q.setQueue h xs).lists = q.lists.setQueue h (some xs) := by
  unfold Queues.lists PcbLists.setQueue
  rw [Queues.setQueue_free, Queues.queue_setQueue]

end Bikaya.Spec
