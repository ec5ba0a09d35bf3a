import Bikaya.Model.Pcb

/-!
# `src/asl.c`
-/

namespace Bikaya.Model
open Bikaya.Lib

variable {T : Target}

/-- `it->s_key == key`. -/
def hasKey (key : Key) (pool : Pool T) (n : Node) : Option Bool := n.semd?.map fun d => decide (pool.sKey d = key)

def aslSemd (key : Key) : PM T (Option Nat) := do
  match ← listSearch .asl (hasKey key) with
  | some n => do
    let d ← Exec.orFault .wild n.semd?
    pure (some d)
  | none => pure none

def setKey (d : Nat) (key : Key) : PM T Unit :=
  Exec.modify fun pool => { pool with sKey := Function.update pool.sKey d key }

def aslInit : PM T Unit :=
  Exec.forEach (List.range maxProc) fun i => do
    setKey i 0
    PM.onLinks fun l => some (initListHead l (.sProcQ i))
    PM.onLinks fun l => listAdd l (.sNext i) .semdFree

/-- Take the first free descriptor into the ASL. -/
def aslNewSemd : PM T (Option Nat) := do
  let pool ← Exec.read
  if listEmpty pool.links .semdFree then pure none
  else do
    let n ← Exec.orFault .nullDeref (listNext pool.links .semdFree)
    let d ← Exec.orFault .wild n.semd?
    PM.onLinks fun l => listDel l (.sNext d)
    PM.onLinks fun l => listAdd l (.sNext d) .asl
    pure (some d)

/-- The descriptor of a key, a new one if the key has none. -/
def aslSemdOrNew (key : Key) : PM T (Option Nat) := do
  match ← aslSemd key with
  | some d => pure (some d)
  | none => aslNewSemd

/-- `TRUE` means that there was no descriptor left. -/
def aslInsertBlocked (key : Key) (p : Pid) : PM T Bool := do
  match ← aslSemdOrNew key with
  | none => pure true
  | some semd => do
    pcbInsertInQueue (.sProcQ semd) p
    setKey semd key
    PM.modifyPcb p fun q => { q with pSemkey := key }
    pure false

/-- A descriptor whose queue became empty goes back to the free list. -/
def aslReleaseIfEmpty (semd : Nat) : PM T Unit := do
  let pool ← Exec.read
  Exec.guarded (listEmpty pool.links (.sProcQ semd)) do
    PM.onLinks fun l => listDel l (.sNext semd)
    PM.onLinks fun l => listAdd l (.sNext semd) .semdFree

def aslRemoveBlocked (key : Key) : PM T (Option Pid) := do
  match ← aslSemd key with
  | none => pure none
  | some semd => do
    let pool ← Exec.read
    let elem ← Exec.orFault .nullDeref (listNext pool.links (.sProcQ semd))
    let p ← Exec.orFault .wild elem.pcb?
    PM.onLinks fun l => listDel l elem
    aslReleaseIfEmpty semd
    PM.modifyPcb p fun q => { q with pSemkey := 0 }
    pure (some p)

def aslFindAndRemoveBlocked (p : Pid) : PM T (Option Pid) := do
  let pool ← Exec.read
  match ← aslSemd (pool.pcbs p).pSemkey with
  | none => pure none
  | some semd => do
    match ← listSearch (.sProcQ semd) (isEntry p) with
    | none => pure none
    | some it => do
      PM.onLinks fun l => listDel l it
      aslReleaseIfEmpty semd
      pure (some p)

def aslBlockedHead (key : Key) : PM T (Option Pid) := do
  match ← aslSemd key with
  | none => pure none
  | some semd => do
    let pool ← Exec.read
    match listNext pool.links (.sProcQ semd) with
    | none => pure none
    | some n => do
      let p ← Exec.orFault .wild n.pcb?
      pure (some p)

/-- The loop of `asl_find_and_remove_blocked_child` over the children, from the node at a position. -/
def unblockChildren (unblock : Pid → PM T Unit) (head : Node) : Nat → Option Node → PM T Unit
  | 0, _ => Exec.fault .hang
  | _ + 1, none => Exec.fault .nullDeref
  | n + 1, some pos => do
    if pos = head then pure ()
    else do
      let it ← Exec.orFault .wild pos.child?
      unblock it
      let pool ← Exec.read
      unblockChildren unblock head n (pool.links.next pos)

/-- The first argument bounds the depth of the recursion. -/
def aslFindAndRemoveBlockedChild : Nat → Pid → PM T Unit
  | 0, _ => Exec.fault .hang
  | n + 1, p => do
    let pool ← Exec.read
    match ← aslSemd (pool.pcbs p).pSemkey with
    | none => pure ()
    | some _ => do
      unblockChildren (aslFindAndRemoveBlockedChild n) (.pChild p) walkFuel (pool.links.next (.pChild p))
      let _ ← aslFindAndRemoveBlocked p

end Bikaya.Model
