import Bikaya.Lib.Forest
import Bikaya.Spec.History
import Bikaya.Spec.Reading

/-!
# What an entry asks of the kernel

Predicates on a kernel entry `e` and the machine `m` at that moment: which processes it condemns (`Condemns`,
`Doomed`), which device operations it reports (`Wakes`), and, read from a history, which call the kernel is
serving (`SemCall`, `WaitIoCall`, `OutputCall`, `TimerCall`).
-/

namespace Bikaya.Spec
open Bikaya.Lib Bikaya.Model

variable {T : Target}

/-! ## Devices -/

/-- The semaphore key of a device function. -/
def devKey (cfg : Cfg T) (f : DevFn) : Key := cfg.semKey (f.dev / nDevPerIl + f.rx.toNat) (f.dev % nDevPerIl)

/-- The interrupt handler takes the operation of `f` for completed: terminals are judged by their status. -/
def Finished (hw : Hw) (f : DevFn) : Prop :=
  if f.dev < 32 then f.rx = false ∧ hw.pending f = true
  else f.dev < 40 ∧ hw.status f &&& termStatusMask = stTransmitted

instance (hw : Hw) (f : DevFn) : Decidable (Finished hw f) := by
  unfold Finished
  infer_instance

/-- The functions that exist: one side of a terminal, or a device of another kind. -/
def Exists (f : DevFn) : Prop := f.dev < 40 ∧ (f.dev < 32 → f.rx = false)

theorem Finished.exists {hw : Hw} {f : DevFn} (h : Finished hw f) : Exists f := by
  unfold Finished at h
  split at h
  · exact ⟨by omega, fun _ => h.1⟩
  · exact ⟨h.1, fun hlt => by contradiction⟩

/-- The interrupt handler serves the line. It never serves the printers, but the Ethernet line twice. -/
def LineServed (T : Target) (cause : Word) (line : Nat) : Prop :=
  (line ≠ ilPrinter ∧ T.intIsPending cause line = true) ∨
  (line = ilEthernet ∧ T.intIsPending cause ilPrinter = true)

instance (T : Target) (cause : Word) (line : Nat) : Decidable (LineServed T cause line) := by
  unfold LineServed
  infer_instance

/-- The entry is an interrupt at which the operation of `f` is reported to its waiter. -/
def Wakes (e : Entry T) (f : DevFn) : Prop :=
  Finished e.hw f ∧ LineServed T (e.st T.cause) (devIlStart + f.dev / nDevPerIl) ∧
    e.hw.interrupting (devIlStart + f.dev / nDevPerIl) (f.dev % nDevPerIl) = true

instance (e : Entry T) (f : DevFn) : Decidable (Wakes e f) := by
  unfold Wakes
  infer_instance

/-! ## Deaths -/

/-- What a TERMINATEPROCESS with this argument ends. -/
def target (cfg : Cfg T) (m : Machine T) (pid : Word) : Option Pid :=
  if pid = 0 then m.currentProc else cfg.pcbAt pid

/-- The kernel stays within its tables: SPECPASSUP has type 0, 1 or 2, and TERMINATEPROCESS names the caller or an
element of `pcbTable`. -/
structure InBounds (cfg : Cfg T) (e : Entry T) : Prop where
  excType : IsCall e 7 → (e.st T.sysArg1).toNat < 3
  pid : IsCall e 3 → e.st T.sysArg1 ≠ 0 → cfg.pcbAt (e.st T.sysArg1) ≠ none

theorem inBounds_iff {cfg : Cfg T} {e : Entry T} : InBounds cfg e ↔
    (IsCall e 7 → (e.st T.sysArg1).toNat < 3) ∧ (IsCall e 3 → e.st T.sysArg1 ≠ 0 → cfg.pcbAt (e.st T.sysArg1) ≠ none) :=
  ⟨fun h => ⟨h.excType, h.pid⟩, fun h => ⟨h.1, h.2⟩⟩

instance (cfg : Cfg T) (e : Entry T) : Decidable (InBounds cfg e) := decidable_of_iff' _ inBounds_iff

/-- Other entries than those two calls are. -/
theorem inBounds_of_not {cfg : Cfg T} {e : Entry T} (h3 : ¬ IsCall e 3) (h7 : ¬ IsCall e 7) : InBounds cfg e :=
  ⟨fun h => absurd h h7, fun h => absurd h h3⟩

/-- The entry is an exception of this type. -/
def Raises (e : Entry T) (type : Fin 3) : Prop :=
  match e.area with
  | .int => False
  | .tlb => type.val = 1
  | .pgmtrap => type.val = 2
  | .sysbk => type.val = 0 ∧ ¬ ∃ n, 1 ≤ n ∧ n ≤ 8 ∧ IsCall e n

/-- The entry has `root` killed, with its descendants: a TERMINATEPROCESS, an exception that nobody handles,
or a second SPECPASSUP for a type. -/
def Condemns (cfg : Cfg T) (e : Entry T) (m : Machine T) (root : Pid) : Prop :=
  (IsCall e 3 ∧ target cfg m (e.st T.sysArg1) = some root) ∨
  (m.currentProc = some root ∧ ∃ type, Raises e type ∧ (m.pool.pcbs root).excNewAreas type = 0) ∨
  (m.currentProc = some root ∧ IsCall e 7 ∧ ∃ type : Fin 3, type.val = (e.st T.sysArg1).toNat ∧
    (m.pool.pcbs root).excNewAreas type ≠ 0)

/-- The entry has `p` killed. -/
def Doomed (cfg : Cfg T) (e : Entry T) (m : Machine T) (p : Pid) : Prop :=
  ∃ root, Condemns cfg e m root ∧ Desc (ParentOf m) root p

/-! ## The call that is served -/

/-- The last entry is a system call on the semaphore `key`, and memory is still as it was then. -/
def SemCall (s : KState T) (n : Nat) (key : Key) : Prop :=
  ∃ e m, lastEntry s.hist = some (e, m) ∧ IsCall e n ∧ key = e.st T.sysArg1 ∧ s.m.mem = m.mem

/-- The last entry is a WAITIO. -/
def WaitIoCall (h : History T) (command device : Word) (subdev : Nat) : Prop :=
  ∃ e m, lastEntry h = some (e, m) ∧ IsCall e 6 ∧ command = e.st T.sysArg1 ∧ device = e.st T.sysArg2 ∧
    subdev = (e.st T.sysArg3).toNat % 256

/-- The word at `a` is an output of the last entry. -/
def OutputCall (h : History T) (a : Word) : Prop := ∃ e m, lastEntry h = some (e, m) ∧ Outputs e m a

/-- The last entry is a timer interrupt of the process `p`. -/
def TimerCall (h : History T) (p : Pid) : Prop :=
  ∃ e m, lastEntry h = some (e, m) ∧ IsTimer e ∧ m.currentProc = some p

/-- The last entry has `p` killed. -/
def KillCall (cfg : Cfg T) (h : History T) (p : Pid) : Prop :=
  ∃ e m, lastEntry h = some (e, m) ∧ Doomed cfg e m p

/-- `r` was ready at an entry with priority `x`, or is woken by it and has `x` for original priority. -/
def ReadyOrWoken (cfg : Cfg T) (e : Entry T) (m : Machine T) (r : Pid) (x : Int) : Prop :=
  (r ∈ readyList m ∧ x = (m.pool.pcbs r).priority) ∨
  ∃ f, Wakes e f ∧ (waitingList m (devKey cfg f)).head? = some r ∧ x = (m.pool.pcbs r).originalPriority

end Bikaya.Spec
