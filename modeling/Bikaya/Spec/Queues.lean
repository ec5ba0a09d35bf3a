import Bikaya.Lib.Prio
import Bikaya.Model.Types

/-!
# What the process structures are for

`Queues` is the content of every list of `pcb.c` and `asl.c`, without links: the free PCBs, the ready
queue, the waiting list of every semaphore key (empty for an inactive one), other queues, and for every
allocated PCB its children, oldest first. A PCB is `Queued` when it is in a list linked through `p_next`.
-/

namespace Bikaya.Spec
open Bikaya.Lib Bikaya.Model

/-- The sentinel of a queue of PCBs: the ready queue, or one of other code. -/
inductive QHead where
  | ready
  | head (n : Nat)
deriving DecidableEq

def QHead.node : QHead → Node
  | ready => .readyQueue
  | head n => .head n

structure Queues where
  free : List Pid
  ready : List Pid
  waiting : Key → List Pid
  heads : Nat → Option (List Pid)
  /-- `none` for a PCB whose `p_child` is not initialised. -/
  kids : Pid → Option (List Pid)

namespace Queues

/-- The content of a queue. -/
def queue (q : Queues) : QHead → Option (List Pid)
  | .ready => some q.ready
  | .head n => q.heads n

def setQueue (q : Queues) (h : QHead) (xs : List Pid) : Queues :=
  match h with
  | .ready => { q with ready := xs }
  | .head n => { q with heads := Function.update q.heads n (some xs) }

/-- `p` is in a list linked through `p_next`. -/
def Queued (q : Queues) (p : Pid) : Prop :=
  p ∈ q.free ∨ p ∈ q.ready ∨ (∃ k, p ∈ q.waiting k) ∨ ∃ n xs, q.heads n = some xs ∧ p ∈ xs

/-- `p` is alive and does not run. -/
def Resting (q : Queues) (p : Pid) : Prop := p ∈ q.ready ∨ ∃ k, p ∈ q.waiting k

/-- `p` waits on some key. -/
def Waits (q : Queues) (p : Pid) : Prop := ∃ k, p ∈ q.waiting k

/-- `c` is a child of `p`. -/
def Child (q : Queues) (p c : Pid) : Prop := ∃ cs, q.kids p = some cs ∧ c ∈ cs

def setWaiting (q : Queues) (k : Key) (xs : List Pid) : Queues :=
  { q with waiting := Function.update q.waiting k xs }

def setKids (q : Queues) (p : Pid) (cs : Option (List Pid)) : Queues :=
  { q with kids := Function.update q.kids p cs }

/-- A freshly allocated PCB, first of the free list. -/
def alloc (q : Queues) (p : Pid) : Queues := { q with free := q.free.tail }.setKids p (some [])

/-- `p` returned to the pool. -/
def release (q : Queues) (p : Pid) : Queues := { q with free := p :: q.free }.setKids p none

/-- `p` made the youngest child of `parent`. -/
def adopt (q : Queues) (parent p : Pid) : Queues :=
  q.setKids parent ((q.kids parent).map (· ++ [p]))

/-- `p` taken from its parent. -/
def orphan (q : Queues) (parent p : Pid) : Queues :=
  q.setKids parent ((q.kids parent).map (·.erase p))

/-- `p` taken from its parent and from every queue, and put in the free list. -/
def bury (q : Queues) (p : Pid) : Queues where
  free := p :: q.free
  ready := q.ready.erase p
  waiting := fun k => (q.waiting k).erase p
  heads := q.heads
  kids := fun r => if r = p then none else (q.kids r).map (·.erase p)

/-- `p` put in the ready queue. -/
def enqueue (q : Queues) (prio : Pid → Int) (p : Pid) : Queues :=
  { q with ready := insertPrio prio p q.ready }

/-- `p` taken from the waiting list of `k`. -/
def unblock (q : Queues) (k : Key) (p : Pid) : Queues := q.setWaiting k ((q.waiting k).erase p)

/-- The PCBs `ps` taken from the waiting lists. -/
def unblockAll (q : Queues) (ps : List Pid) : Queues :=
  { q with waiting := fun k => (q.waiting k).filter fun r => decide (r ∉ ps) }

/-! ## One queue changed -/

section
variable (q : Queues) (h : QHead) (xs : List Pid)

@[simp] theorem setQueue_free : (q.setQueue h xs).free = q.free := by cases h <;> rfl
@[simp] theorem setQueue_waiting : (q.setQueue h xs).waiting = q.waiting := by cases h <;> rfl
@[simp] theorem setQueue_kids : (q.setQueue h xs).kids = q.kids := by cases h <;> rfl

theorem queue_setQueue : (q.setQueue h xs).queue = Function.update q.queue h (some xs) := by
  funext k
  cases h <;> cases k <;> simp [queue, setQueue]
  next i j => by_cases hj : j = i <;> simp [hj, queue]

omit h xs in
theorem queued_iff (p : Pid) :
    q.Queued p ↔ p ∈ q.free ∨ (∃ h xs, q.queue h = some xs ∧ p ∈ xs) ∨ ∃ k, p ∈ q.waiting k := by
  constructor
  · rintro (hp | hp | hp | ⟨n, xs, hx, hp⟩)
    · exact Or.inl hp
    · exact Or.inr (Or.inl ⟨.ready, q.ready, rfl, hp⟩)
    · exact Or.inr (Or.inr hp)
    · exact Or.inr (Or.inl ⟨.head n, xs, hx, hp⟩)
  · rintro (hp | ⟨h, xs, hx, hp⟩ | hp)
    · exact Or.inl hp
    · cases h with
      | ready =>
        cases hx
        exact Or.inr (Or.inl hp)
      | head n => exact Or.inr (Or.inr (Or.inr ⟨n, xs, hx, hp⟩))
    · exact Or.inr (Or.inr (Or.inl hp))

theorem queued_setQueue (p : Pid) (hp : (q.setQueue h xs).Queued p) : p ∈ xs ∨ q.Queued p := by
  rw [queued_iff, setQueue_free, setQueue_waiting, queue_setQueue] at hp
  rw [queued_iff]
  rcases hp with hp | ⟨k, ys, hy, hm⟩ | hp
  · exact Or.inr (Or.inl hp)
  · by_cases hk : k = h
    · subst hk
      rw [Function.update_self] at hy
      cases hy
      exact Or.inl hm
    · rw [Function.update_of_ne hk] at hy
      exact Or.inr (Or.inr (Or.inl ⟨k, ys, hy, hm⟩))
  · exact Or.inr (Or.inr (Or.inr hp))

end

/-! ## The rings behind the lists -/

/-- The sentinels and the members of their rings, with `asl` the active descriptors, `sf` the free ones
and `key` the keys of the descriptors. -/
def rings (q : Queues) (asl sf : List Nat) (key : Nat → Key) : Node → Option (List Node)
  | .pcbFree => some (q.free.map .pNext)
  | .readyQueue => some (q.ready.map .pNext)
  | .semdFree => some (sf.map .sNext)
  | .asl => some (asl.map .sNext)
  | .head n => (q.heads n).map (List.map .pNext)
  | .pChild p => (q.kids p).map (List.map .pSib)
  | .sProcQ d => if d ∈ asl then some ((q.waiting (key d)).map .pNext) else if d ∈ sf then some [] else none
  | .pNext _ => none
  | .pSib _ => none
  | .sNext _ => none

end Queues
end Bikaya.Spec
