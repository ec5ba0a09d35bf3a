import Bikaya.Model.Main

/-!
# Reading a history

What a history of observations, latest first, says about the present: the last kernel entry (`lastEntry`) and
the last one of a process (`entryOf`), the processor state a process is to be resumed with (`context`), when a
process was last put in the ready queue (`enqueuedAt`), whether a PCB lives (`dormant`), the machine at the last
`scheduler_run` (`lastRun`), and whether a time slice has ended that no dispatch has followed (`sliceOver`).
-/

namespace Bikaya.Spec
open Bikaya.Lib Bikaya.Model

variable {T : Target}

abbrev History (T : Target) := List (Obs T × Machine T)

/-! ## Entries -/

/-- The last kernel entry, with the machine at that moment. -/
def lastEntry : History T → Option (Entry T × Machine T)
  | [] => none
  | (.entry e, m) :: _ => some (e, m)
  | _ :: h => lastEntry h

/-- The last entry while `p` was running. -/
def entryOf (p : Pid) : History T → Option (Entry T)
  | [] => none
  | (.entry e, m) :: h => if m.currentProc = some p then some e else entryOf p h
  | _ :: h => entryOf p h

/-- System call number `n`. -/
def IsCall (e : Entry T) (n : Nat) : Prop :=
  e.area = .sysbk ∧ T.causeExc (e.st T.cause) = T.causeSyscall ∧ (e.st T.sysArg0).toNat = n

instance (e : Entry T) (n : Nat) : Decidable (IsCall e n) := by
  unfold IsCall
  infer_instance

/-- A timer interrupt. -/
def IsTimer (e : Entry T) : Prop := e.area = .int ∧ T.intIsPending (e.st T.cause) ilTimer = true

instance (e : Entry T) : Decidable (IsTimer e) := by
  unfold IsTimer
  infer_instance

/-- By how much an entry moves the program counter: past a SYSCALL on uMPS, back to the interrupted instruction on
uARM. -/
def pcStep (e : Entry T) : Word :=
  if T = .umps ∧ e.area = .sysbk ∧ T.causeExc (e.st T.cause) = T.causeSyscall then 4
  else if T = .uarm ∧ e.area = .int then -4
  else 0

/-- The saved state of an entry with its program counter adjusted. -/
def adjusted (e : Entry T) : CpuState T := fun i => if i = T.pc then e.st i + pcStep e else e.st i

theorem adjusted_int {e : Entry T} (h : e.area = .int) : adjusted e = rewindPc e.st := by
  funext i
  unfold adjusted pcStep
  rw [h]
  cases T with
  | umps => simp [rewindPc]
  | uarm =>
    by_cases hi : i = Target.uarm.pc
    · subst hi
      simp [rewindPc, CpuState.setPc, BitVec.sub_eq_add_neg]
    · simp [rewindPc, CpuState.setPc, hi]

theorem adjusted_syscall {e : Entry T} (h : e.area = .sysbk) (hc : T.causeExc (e.st T.cause) = T.causeSyscall) :
    adjusted e = advancePc e.st := by
  funext i
  unfold adjusted pcStep
  rw [h]
  cases T with
  | umps =>
    by_cases hi : i = Target.umps.pc
    · subst hi
      simp [advancePc, CpuState.setPc, hc]
    · simp [advancePc, CpuState.setPc, hi]
  | uarm => simp [advancePc]

/-- Breakpoints, TLB exceptions and program traps. -/
theorem adjusted_exception {e : Entry T} (h : e.area ≠ .int)
    (hc : ¬ (e.area = .sysbk ∧ T.causeExc (e.st T.cause) = T.causeSyscall)) : adjusted e = e.st := by
  have hstep : pcStep e = 0 := by
    unfold pcStep
    rw [if_neg fun h' => hc h'.2, if_neg fun h' => h h'.2]
  funext i
  unfold adjusted
  rw [hstep]
  split
  · exact BitVec.add_zero (e.st i)
  · rfl

theorem adjusted_fault {e : Entry T} (h : e.area = .tlb ∨ e.area = .pgmtrap) : adjusted e = e.st := by
  refine adjusted_exception ?_ fun hc => ?_
  · rcases h with h | h <;> rw [h] <;> decide
  · rcases h with h | h <;> exact absurd (h.symm.trans hc.1) (by decide)

/-- The words that the kernel writes in the process's memory on an entry, other than the semaphores of
VERHOGEN and PASSEREN: `m` is the machine at the entry. -/
def Outputs (e : Entry T) (m : Machine T) (a : Word) : Prop :=
  (IsCall e 1 ∧ (a = e.st T.sysArg1 ∨ a = e.st T.sysArg2 ∨ a = e.st T.sysArg3)) ∨
  (IsCall e 2 ∧ a = e.st T.sysArg3) ∨
  (IsCall e 6 ∧ a = commandAddr T (e.st T.sysArg2) ((e.st T.sysArg3).toNat % 256)) ∨
  (IsCall e 8 ∧ (a = e.st T.sysArg1 ∨ a = e.st T.sysArg2)) ∨
  ∃ p t, m.currentProc = some p ∧ (m.pool.pcbs p).excNewAreas t ≠ 0 ∧
    (a - (m.pool.pcbs p).excOldAreas t).toNat < 4 * T.stateWords

theorem outputs_iff (e : Entry T) (m : Machine T) (a : Word) : Outputs e m a ↔
    (IsCall e 1 ∧ (a = e.st T.sysArg1 ∨ a = e.st T.sysArg2 ∨ a = e.st T.sysArg3)) ∨
    (IsCall e 2 ∧ a = e.st T.sysArg3) ∨
    (IsCall e 6 ∧ a = commandAddr T (e.st T.sysArg2) ((e.st T.sysArg3).toNat % 256)) ∨
    (IsCall e 8 ∧ (a = e.st T.sysArg1 ∨ a = e.st T.sysArg2)) ∨
    m.currentProc.any fun p => decide (∃ t, (m.pool.pcbs p).excNewAreas t ≠ 0 ∧
      (a - (m.pool.pcbs p).excOldAreas t).toNat < 4 * T.stateWords) := by
  unfold Outputs
  cases m.currentProc <;> simp

instance (e : Entry T) (m : Machine T) (a : Word) : Decidable (Outputs e m a) :=
  decidable_of_iff' _ (outputs_iff e m a)

/-! ## Contexts -/

/-- What the process will find in its registers when it is dispatched: the state it was created with or had
at its last entry, with the status of the device operation it waited for. -/
def context (p : Pid) : History T → Option (CpuState T)
  | [] => none
  | (.create p' st, _) :: h => if p' = p then some st else context p h
  | (.entry e, m) :: h => if m.currentProc = some p then some (adjusted e) else context p h
  | (.complete _ p' status, _) :: h =>
    if p' = p then (context p h).map fun st => Function.update st T.sysReturn status else context p h
  | _ :: h => context p h

/-! ## The ready queue -/

/-- The position in the history of the last enqueueing of `p`. -/
def enqueuedAt (p : Pid) : History T → Nat
  | [] => 0
  | (.enqueue p', _) :: h => if p' = p then h.length + 1 else enqueuedAt p h
  | _ :: h => enqueuedAt p h

/-- The machine when `scheduler_run` was last entered. -/
def lastRun : History T → Option (Machine T)
  | [] => none
  | (.run, m) :: _ => some m
  | _ :: h => lastRun h

/-- `p` is enqueued. -/
def startsWait (p : Pid) : Obs T → Bool
  | .enqueue r => decide (r = p)
  | _ => false

/-- `p` is dispatched or killed. -/
def endsWait (p : Pid) : Obs T → Bool
  | .dispatch r _ => decide (r = p)
  | .bury r => decide (r = p)
  | _ => false

/-- The history since `p` was enqueued, with the machine at that moment, if it has neither been dispatched nor
killed since. -/
def waitOf (p : Pid) : History T → Option (History T × Machine T)
  | [] => none
  | n :: h =>
    if startsWait p n.1 then some ([], n.2)
    else if endsWait p n.1 then none
    else (waitOf p h).map fun w => (n :: w.1, w.2)

/-- The observation that a time slice has ended. -/
def isExpire : Obs T → Bool
  | .expire => true
  | _ => false

/-- How many time slices have ended. -/
def expiries (h : History T) : Nat := h.countP fun n => isExpire n.1

/-- A time slice has ended and no process has been dispatched since. -/
def sliceOver : History T → Bool
  | [] => false
  | (.expire, _) :: _ => true
  | (.dispatch _ _, _) :: _ => false
  | _ :: h => sliceOver h

/-! ## Lives -/

/-- The PCB has not come to life since `kill_tree` freed it, or ever. -/
def dormant (p : Pid) : History T → Bool
  | [] => true
  | (.create r _, _) :: h => if r = p then false else dormant p h
  | (.bury r, _) :: h => if r = p then true else dormant p h
  | _ :: h => dormant p h

/-! ## Registrations -/

/-- The entry is a SPECPASSUP of `p` for the type. -/
def IsRequest (p : Pid) (type : Fin 3) (e : Entry T) (m : Machine T) : Prop :=
  IsCall e 7 ∧ m.currentProc = some p ∧ (e.st T.sysArg1).toNat = type.val

instance (p : Pid) (type : Fin 3) (e : Entry T) (m : Machine T) : Decidable (IsRequest p type e m) := by
  unfold IsRequest
  infer_instance

/-- `p` has made a SPECPASSUP for the type since it was created. -/
def requested (p : Pid) (type : Fin 3) : History T → Bool
  | [] => false
  | (.create r _, _) :: h => if r = p then false else requested p type h
  | (.entry e, m) :: h => if IsRequest p type e m then true else requested p type h
  | _ :: h => requested p type h

/-- The new and the old area that `p` has registered for the type since it was created. A later SPECPASSUP counts
only while the new area is 0. -/
def registered (p : Pid) (type : Fin 3) : History T → Word × Word
  | [] => (0, 0)
  | (.create r _, _) :: h => if r = p then (0, 0) else registered p type h
  | (.entry e, m) :: h =>
    if IsRequest p type e m ∧ (registered p type h).1 = 0 then (e.st T.sysArg3, e.st T.sysArg2) else registered p type h
  | _ :: h => registered p type h

/-! ## Devices -/

/-- The device function is acknowledged. -/
def isAck (f : DevFn) : Obs T → Bool
  | .ack addr => decide (Hw.fnAt T addr = some f)
  | _ => false

/-- How often the device function was acknowledged. -/
def acks (f : DevFn) (h : History T) : Nat := h.countP fun n => isAck f n.1

/-! ## Semaphores -/

/-- A VERHOGEN of the semaphore. -/
def isVerhogen (sem : Key) : Obs T → Bool
  | .verhogen key _ => decide (key = sem)
  | _ => false

/-- A PASSEREN of the semaphore. -/
def isPasseren (sem : Key) : Obs T → Bool
  | .passeren key _ => decide (key = sem)
  | _ => false

/-- A system call of this number on the semaphore enters the kernel. -/
def isCallOn (n : Nat) (sem : Key) : Obs T → Bool
  | .entry e => decide (IsCall e n ∧ e.st T.sysArg1 = sem)
  | _ => false

/-- A PASSEREN of the semaphore completes: it goes through, or its caller is woken. -/
def completes (sem : Key) : Obs T → Bool
  | .passeren key true => decide (key = sem)
  | .verhogen key (some _) => decide (key = sem)
  | _ => false

/-- How many VERHOGENs of the semaphore there are. -/
def verhogens (sem : Key) (h : History T) : Nat := h.countP fun n => isVerhogen sem n.1

/-- How many PASSERENs of the semaphore there are. -/
def passerens (sem : Key) (h : History T) : Nat := h.countP fun n => isPasseren sem n.1

/-- How many system calls of this number there are on the semaphore. -/
def callsOn (n : Nat) (sem : Key) (h : History T) : Nat := h.countP fun x => isCallOn n sem x.1

/-- How many PASSERENs of the semaphore completed. -/
def completed (sem : Key) (h : History T) : Nat := h.countP fun n => completes sem n.1

end Bikaya.Spec
