import Bikaya.Model.Types

/-!
# `src/pcb.c`
-/

namespace Bikaya.Model
open Bikaya.Lib

variable {T : Target}

/-! ## The free list -/

def pcbInit : PM T Unit :=
  Exec.forEach (List.range maxProc) fun i => PM.onLinks fun l => listAdd l (.pNext i) .pcbFree

def pcbFree (p : Pid) : PM T Unit := PM.onLinks fun l => listAdd l (.pNext p) .pcbFree

/-- The list fields of a `pcb_t` overwritten by `memset`. -/
def clearNode (l : Links Node) (n : Node) : Links Node := (l.setNext n none).setPrev n none

def pcbAlloc : PM T (Option Pid) := do
  let pool ← Exec.read
  match listNext pool.links .pcbFree with
  | none => pure none
  | some next => do
    PM.onLinks fun l => listDel l next
    let p ← Exec.orFault .wild next.pcb?
    -- memset(pcb, 0, sizeof(pcb_t))
    PM.modifyPcb p fun _ => Pcb.zero
    PM.onLinks fun l => some (clearNode (clearNode (clearNode l (.pNext p)) (.pChild p)) (.pSib p))
    PM.onLinks fun l => some (initListHead l (.pChild p))
    PM.onLinks fun l => some (initListHead l (.pNext p))
    PM.onLinks fun l => some (initListHead l (.pSib p))
    pure (some p)

/-! ## Queues -/

def pcbMakeEmptyQueue (head : Node) : PM T Unit := PM.onLinks fun l => some (initListHead l head)

def pcbIsQueueEmpty (head : Node) : PM T Bool := do
  let pool ← Exec.read
  pure (listEmpty pool.links head)

/-- `it->priority < p->priority`. -/
def lowerThan (p : Pid) (pool : Pool T) (n : Node) : Option Bool :=
  n.pcb?.map fun it => decide ((pool.pcbs it).priority < (pool.pcbs p).priority)

def pcbInsertInQueue (head : Node) (p : Pid) : PM T Unit := do
  let pool ← Exec.read
  if listEmpty pool.links head then
    PM.onLinks fun l => listAddTail l (.pNext p) head
  else do
    match ← listSearch head (lowerThan p) with
    | some it => PM.onLinks fun l => listAddTail l (.pNext p) it
    | none => PM.onLinks fun l => listAddTail l (.pNext p) head

def pcbQueueHead (head : Node) : PM T (Option Pid) := do
  let pool ← Exec.read
  match listNext pool.links head with
  | none => pure none
  | some n => do
    let p ← Exec.orFault .wild n.pcb?
    pure (some p)

def pcbRemoveFromQueue (head : Node) : PM T (Option Pid) := do
  match ← pcbQueueHead head with
  | none => pure none
  | some p => do
    PM.onLinks fun l => listDel l (.pNext p)
    pure (some p)

/-- `iterator == p`, a comparison of pointers. -/
def isEntry (p : Pid) (_ : Pool T) (n : Node) : Option Bool := some (decide (n = .pNext p))

def pcbIsFree (p : Pid) : PM T Bool := do
  match ← listSearch .pcbFree (isEntry p) with
  | some _ => pure true
  | none => pure false

def pcbFindAndRemove (head : Node) (p : Pid) : PM T (Option Pid) := do
  match ← listSearch head (isEntry p) with
  | some _ => do
    PM.onLinks fun l => listDel l (.pNext p)
    pure (some p)
  | none => pure none

/-! ## The process tree -/

def pcbHasNoChildren (p : Pid) : PM T Bool := do
  let pool ← Exec.read
  pure (listEmpty pool.links (.pChild p))

def pcbInsertChild (parent p : Pid) : PM T Unit := do
  PM.onLinks fun l => listAddTail l (.pSib p) (.pChild parent)
  PM.modifyPcb p fun q => { q with pParent := some parent }

def pcbRemoveChild (p : Pid) : PM T (Option Pid) := do
  let pool ← Exec.read
  match listNext pool.links (.pChild p) with
  | none => pure none
  | some child => do
    let pcb ← Exec.orFault .wild child.child?
    PM.onLinks fun l => listDel l child
    PM.modifyPcb pcb fun q => { q with pParent := none }
    pure (some pcb)

def pcbFindAndRemoveChild (p : Pid) : PM T (Option Pid) := do
  let pool ← Exec.read
  match (pool.pcbs p).pParent with
  | none => pure none
  | some _ => do
    PM.onLinks fun l => listDel l (.pSib p)
    PM.modifyPcb p fun q => { q with pParent := none }
    pure (some p)

end Bikaya.Model
