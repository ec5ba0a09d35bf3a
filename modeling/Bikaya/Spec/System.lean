import Bikaya.Lib.Prio
import Bikaya.Lib.Simulation
import Bikaya.Spec.Entries

/-!
# What the kernel is for

A `System` of processes, without control blocks, links or tables: who runs, who is ready, who waits for which
semaphore, and what the processes are; besides them the memory and the devices. `Call` says what each system call
does to it, `Completes` what the end of device operations does, `Leave` which process goes on, and `Step` what a whole
kernel entry does: it is entered with `e` and loads `st`. Time is left out: what GETCPUTIME stores is any three words.
-/

namespace Bikaya.Spec
open Bikaya.Lib Bikaya.Model Bikaya.Model.KM

variable {T : Target}

structure Process (T : Target) where
  /-- The processor state saved when it last stopped. -/
  context : CpuState T
  priority : Int
  original : Int
  parent : Option Pid
  /-- Where its exception handlers are, 0 for none, and where it wants the state saved. -/
  newArea : Fin 3 → Word
  oldArea : Fin 3 → Word

@[ext] structure System (T : Target) where
  running : Option Pid
  ready : List Pid
  waiting : Key → List Pid
  process : Pid → Option (Process T)
  mem : Word → Word
  hw : Hw

namespace System

/-! ## Operations -/

/-- The process `p` changed. -/
def alter (S : System T) (p : Pid) (f : Process T → Process T) : System T :=
  { S with process := Function.update S.process p ((S.process p).map f) }

def prio (S : System T) (p : Pid) : Int := ((S.process p).map (·.priority)).getD 0

def store (S : System T) (a w : Word) : System T := { S with mem := Function.update S.mem a w }

/-- A result for which the caller may have given no place. -/
def storeAt (S : System T) (a w : Word) : System T := if a ≠ 0 then S.store a w else S

def setWaiting (S : System T) (key : Key) (ps : List Pid) : System T :=
  { S with waiting := Function.update S.waiting key ps }

def save (S : System T) (p : Pid) (st : CpuState T) : System T := S.alter p fun x => { x with context := st }

/-- `p` becomes ready. -/
def wake (S : System T) (p : Pid) : System T :=
  let S := S.alter p fun x => { x with priority := x.original }
  { S with ready := insertPrio S.prio p S.ready }

/-- The ready processes age. -/
def age (arith : PrioArith) (S : System T) : System T :=
  { S with process := fun p => if p ∈ S.ready then
      (S.process p).map fun x => { x with priority := arith.succ x.priority } else S.process p }

/-- The time slice of `p` is over. -/
def preempt (arith : PrioArith) (S : System T) (p : Pid) (st : CpuState T) : System T :=
  { ((S.age arith).save p st).wake p with running := none }

/-- `p` stops to wait for `key`. -/
def block (S : System T) (p : Pid) (key : Key) (st : CpuState T) : System T :=
  let S := S.save p st
  { S.setWaiting key (insertPrio S.prio p (S.waiting key)) with running := none }

/-- A command for a device; where there is no command register it is just a word. -/
def command (S : System T) (a cmd : Word) : System T :=
  match Hw.fnAt T a with
  | some f => { S with hw := S.hw.issue f cmd }
  | none => S.store a cmd

/-- `p` comes to life. -/
def spawn (S : System T) (p : Pid) (st : CpuState T) (priority : Int) (parent : Option Pid) : System T :=
  let x : Process T := ⟨st, priority, priority, parent, fun _ => 0, fun _ => 0⟩
  ({ S with process := Function.update S.process p (some x) } : System T).wake p

def parent (S : System T) (p : Pid) : Option Pid := (S.process p).bind (·.parent)

def Child (S : System T) (p c : Pid) : Prop := S.parent c = some p

open Classical in
/-- `r` is not below `p`. -/
noncomputable def spared (S : System T) (p r : Pid) : Bool := decide (¬ Desc S.Child p r)

/-- `p` dies with its descendants. -/
noncomputable def kill (S : System T) (p : Pid) : System T :=
  { S with
    running := S.running.filter (S.spared p)
    ready := S.ready.filter (S.spared p)
    waiting := fun key => (S.waiting key).filter (S.spared p)
    process := fun r => if S.spared p r then S.process r else none }

/-- The operation of `f` has ended; `p` waited for it before `rest`. -/
def complete (cfg : Cfg T) (S : System T) (f : DevFn) (p : Pid) (rest : List Pid) : System T :=
  { ((S.setWaiting (devKey cfg f) rest).wake p).alter p
      fun x => { x with context := x.context.setReturn (S.hw.status f) } with
    hw := S.hw.issue f cmdAck }

/-- What a TERMINATEPROCESS with this argument is about. -/
def target (cfg : Cfg T) (S : System T) (pid : Word) : Option Pid := if pid = 0 then S.running else cfg.pcbAt pid

/-- The kernel is entered. -/
def entered (S : System T) (e : Entry T) : System T := { S with mem := e.mem, hw := e.hw }

/-- The parent does not matter for the place in the ready queue. -/
theorem spawn_adopt (S : System T) (p : Pid) (st : CpuState T) (priority : Int) (parent : Option Pid) :
    ((S.spawn p st priority none).alter p fun x => { x with parent := parent }) = S.spawn p st priority parent := by
  have hprio : ∀ par par' : Option Pid, ∀ r,
      (({ S with process := Function.update S.process p (some ⟨st, priority, priority, par, fun _ => 0, fun _ => 0⟩) } :
        System T).alter p fun x => { x with priority := x.original }).prio r =
      (({ S with process := Function.update S.process p (some ⟨st, priority, priority, par', fun _ => 0, fun _ => 0⟩) } :
        System T).alter p fun x => { x with priority := x.original }).prio r := by
    intro par par' r
    by_cases hr : r = p <;> simp [prio, alter, hr]
  ext1
  · rfl
  · exact (insertPrio_congr _ p (hprio parent none p) fun r _ => hprio parent none r).symm
  · rfl
  · funext r
    by_cases hr : r = p <;> simp [spawn, wake, alter, hr]
  · rfl
  · rfl

theorem spared_iff {S : System T} {p r : Pid} : S.spared p r = true ↔ ¬ Desc S.Child p r := by
  simp [spared]

end System

/-! ## Who goes on -/

/-- Without a running process: the first ready one, or the idle code. -/
inductive Dispatch (cfg : Cfg T) (S : System T) : CpuState T → System T → Prop where
  | idle : S.ready = [] → Dispatch cfg S (kernelState cfg.idleCode cfg.stst) S
  | load {p : Pid} {rest : List Pid} {x : Process T} : S.ready = p :: rest → S.process p = some x →
      Dispatch cfg S x.context { S with ready := rest, running := some p }

/-- The kernel is left; `c` is the state of the running process, if there is one, and `ended` says that its time slice
is over. -/
inductive Leave (cfg : Cfg T) (S : System T) (ended : Bool) (c : CpuState T) : CpuState T → System T → Prop where
  | resume {p : Pid} : S.running = some p → ended = false → Leave cfg S ended c c S
  | preempt {p : Pid} {st : CpuState T} {S' : System T} : S.running = some p → ended = true →
      Dispatch cfg (S.preempt cfg.prio p c) st S' → Leave cfg S ended c st S'
  | dispatch {st : CpuState T} {S' : System T} : S.running = none → Dispatch cfg S st S' → Leave cfg S ended c st S'

/-! ## System calls -/

/-- A system call: the state with which to go back to the caller, and the system after it. -/
inductive Call (cfg : Cfg T) (e : Entry T) (S : System T) : CpuState T → System T → Prop where
  | getCpuTime {p : Pid} (user kernel wallclock : Word) : IsCall e 1 → S.running = some p →
      Call cfg e S (adjusted e) (((S.store (e.st T.sysArg3) wallclock).store (e.st T.sysArg1) user).store
        (e.st T.sysArg2) kernel)
  | createFull : IsCall e 2 → (∀ p < maxProc, S.process p ≠ none) →
      Call cfg e S ((adjusted e).setReturn syscallFailure) S
  | create {p parent : Pid} : IsCall e 2 → p < maxProc → S.process p = none → S.running = some parent →
      Call cfg e S ((adjusted e).setReturn syscallSuccess)
        ((S.spawn p (stateAt S.mem (e.st T.sysArg1)) (e.st T.sysArg2).toInt (some parent)).storeAt (e.st T.sysArg3)
          (cfg.pcbAddr p))
  | terminateDead {p : Pid} : IsCall e 3 → S.target cfg (e.st T.sysArg1) = some p → S.process p = none →
      Call cfg e S ((adjusted e).setReturn syscallFailure) S
  | terminate {p : Pid} {x : Process T} : IsCall e 3 → S.target cfg (e.st T.sysArg1) = some p →
      S.process p = some x → Call cfg e S ((adjusted e).setReturn syscallSuccess) (S.kill p)
  | handOver {p : Pid} {rest : List Pid} : IsCall e 4 → S.waiting (e.st T.sysArg1) = p :: rest →
      Call cfg e S (adjusted e) ((S.setWaiting (e.st T.sysArg1) rest).wake p)
  | raise : IsCall e 4 → S.waiting (e.st T.sysArg1) = [] →
      Call cfg e S (adjusted e) (S.store (e.st T.sysArg1) (S.mem (e.st T.sysArg1) + 1))
  | pass : IsCall e 5 → S.mem (e.st T.sysArg1) ≠ 0 →
      Call cfg e S (adjusted e) (S.store (e.st T.sysArg1) (S.mem (e.st T.sysArg1) - 1))
  | wait {p : Pid} : IsCall e 5 → S.mem (e.st T.sysArg1) = 0 → S.running = some p →
      Call cfg e S (adjusted e) (S.block p (e.st T.sysArg1) (adjusted e))
  | waitIo {p : Pid} {subdev : Nat} : IsCall e 6 → subdev = (e.st T.sysArg3).toNat % 256 → S.running = some p →
      Call cfg e S (adjusted e) ((S.command (commandAddr T (e.st T.sysArg2) subdev) (e.st T.sysArg1)).block p
        (interruptsGetDevKey cfg (e.st T.sysArg2) subdev) (adjusted e))
  | register {p : Pid} {x : Process T} {type : Fin 3} : IsCall e 7 → type.val = (e.st T.sysArg1).toNat →
      S.running = some p → S.process p = some x → x.newArea type = 0 →
      Call cfg e S ((adjusted e).setReturn syscallSuccess) (S.alter p fun x => { x with
        newArea := Function.update x.newArea type (e.st T.sysArg3)
        oldArea := Function.update x.oldArea type (e.st T.sysArg2) })
  | registerTwice {p : Pid} {x : Process T} {type : Fin 3} : IsCall e 7 → type.val = (e.st T.sysArg1).toNat →
      S.running = some p → S.process p = some x → x.newArea type ≠ 0 →
      Call cfg e S ((adjusted e).setReturn syscallFailure) (S.kill p)
  | getPid : IsCall e 8 → (e.st T.sysArg2 ≠ 0 → S.running ≠ none) →
      Call cfg e S (adjusted e) ((S.storeAt (e.st T.sysArg1) (cfg.pcbPtr S.running)).storeAt (e.st T.sysArg2)
        (cfg.pcbPtr (S.running.bind S.parent)))

theorem isCall_unique {e : Entry T} {n k : Nat} (h : IsCall e n) (h' : IsCall e k) : n = k := h.2.2.symm.trans h'.2.2

theorem isCall_of_call {cfg : Cfg T} {e : Entry T} {S S' : System T} {c : CpuState T} (h : Call cfg e S c S') :
    ∃ n, 1 ≤ n ∧ n ≤ 8 ∧ IsCall e n := by
  cases h <;> refine ⟨_, ?_, ?_, ‹IsCall e _›⟩ <;> decide

/-! ## Exceptions and interrupts -/

/-- The type of the exception, if the entry is one. -/
def trap (e : Entry T) : Option (Fin 3) :=
  match e.area with
  | .int => none
  | .tlb => some specPassUpTlbType
  | .pgmtrap => some specPassUpTrapType
  | .sysbk => if T.causeExc (e.st T.cause) = T.causeSyscall ∧
      ((e.st T.sysArg0).toNat = 0 ∨ 8 < (e.st T.sysArg0).toNat) then some specPassUpSysbkType else none

/-- An exception of the running process, whose state was `c`. -/
inductive Handle (cfg : Cfg T) (S : System T) (type : Fin 3) (c : CpuState T) : CpuState T → System T → Prop where
  /-- It goes to the handler that the process registered. -/
  | passUp {p : Pid} {x : Process T} {mem : Word → Word} : S.running = some p → S.process p = some x →
      x.newArea type ≠ 0 → mem = storeState S.mem (x.oldArea type) c →
      Handle cfg S type c (stateAt mem (x.newArea type)) { S with mem := mem }
  /-- Nobody handles it. -/
  | die {p : Pid} {x : Process T} {st : CpuState T} {S' : System T} : S.running = some p → S.process p = some x →
      x.newArea type = 0 → Dispatch cfg (S.kill p) st S' → Handle cfg S type c st S'

/-- The functions of a device: the transmitter of a terminal comes before the receiver. -/
def deviceFns (d : Nat) : List DevFn := [⟨d, false⟩, ⟨d, true⟩]

/-- The functions whose operations are reported to their waiters, in the order in which the kernel looks at them. -/
def completions (e : Entry T) : List DevFn := ((List.range 40).flatMap deviceFns).filter fun f => decide (Wakes e f)

/-- The operations of some functions, one after the other, have ended. -/
inductive Completes (cfg : Cfg T) : System T → List DevFn → System T → Prop where
  | nil (S : System T) : Completes cfg S [] S
  | cons {S S' : System T} {f : DevFn} {fs : List DevFn} {p : Pid} {rest : List Pid} :
      S.waiting (devKey cfg f) = p :: rest → Completes cfg (S.complete cfg f p rest) fs S' →
      Completes cfg S (f :: fs) S'

namespace Completes
variable {cfg : Cfg T} {S S₁ S₂ : System T} {fs fs' : List DevFn}

theorem append (h : Completes cfg S fs S₁) (h' : Completes cfg S₁ fs' S₂) : Completes cfg S (fs ++ fs') S₂ := by
  induction h with
  | nil => exact h'
  | cons hw _ ih => exact .cons hw (ih h')

theorem of_append : ∀ {fs : List DevFn} {S : System T}, Completes cfg S (fs ++ fs') S₂ →
    ∃ S₁, Completes cfg S fs S₁ ∧ Completes cfg S₁ fs' S₂ := by
  intro fs
  induction fs with
  | nil => exact fun h => ⟨_, .nil _, h⟩
  | cons f fs ih =>
    intro S h
    cases h with
    | cons hw h =>
      obtain ⟨S₁, h₁, h₂⟩ := ih h
      exact ⟨S₁, .cons hw h₁, h₂⟩

theorem unique (h : Completes cfg S fs S₁) (h' : Completes cfg S fs S₂) : S₁ = S₂ := by
  induction h with
  | nil =>
    cases h'
    rfl
  | cons hw _ ih =>
    cases h' with
    | cons hw' h' =>
      rw [hw] at hw'
      obtain ⟨rfl, rfl⟩ := List.cons.inj hw'
      exact ih h'

end Completes

/-! ## A kernel entry -/

inductive Step (cfg : Cfg T) (S : System T) (e : Entry T) : CpuState T → System T → Prop where
  | call {c st : CpuState T} {S₁ S' : System T} : Call cfg e (S.entered e) c S₁ → Leave cfg S₁ false c st S' →
      Step cfg S e st S'
  | breakpoint {st : CpuState T} {S' : System T} : e.area = .sysbk → T.causeExc (e.st T.cause) ≠ T.causeSyscall →
      Leave cfg (S.entered e) false e.st st S' → Step cfg S e st S'
  | exception {type : Fin 3} {st : CpuState T} {S' : System T} : trap e = some type →
      Handle cfg (S.entered e) type (adjusted e) st S' → Step cfg S e st S'
  | interrupt {st : CpuState T} {S₁ S' : System T} : e.area = .int →
      Completes cfg (S.entered e) (completions e) S₁ →
      Leave cfg S₁ (T.intIsPending (e.st T.cause) ilTimer) (adjusted e) st S' → Step cfg S e st S'

/-- The entry keeps the kernel within its tables, and is no TERMINATEPROCESS of a proper ancestor of the caller. -/
structure Admitted (cfg : Cfg T) (S : System T) (e : Entry T) : Prop extends InBounds cfg e where
  spares : IsCall e 3 → ∀ p c, S.target cfg (e.st T.sysArg1) = some p → S.running = some c →
    ¬ Relation.TransGen S.Child p c

/-- After the boot: the first process runs. -/
def System.boot (cfg : Cfg T) : System T where
  running := some (maxProc - 1)
  ready := []
  waiting := fun _ => []
  process := Function.update (fun _ => none) (maxProc - 1) (some
    ⟨kernelState cfg.testCode (Function.update cfg.stst T.sp (cfg.ramTop - 4096)), defaultPriority, defaultPriority,
      none, fun _ => 0, fun _ => 0⟩)
  mem := cfg.mem0
  hw := cfg.hw0

/-- The abstract kernel. A label is an entry with the state that is loaded at its end; `ok` are the rules that entries
keep. -/
def abstractKernel (cfg : Cfg T) (ok : System T → Entry T → Prop) : Lts (System T) (Entry T × CpuState T) where
  init S := S = .boot cfg
  step S a S' := ok S a.1 ∧ Step cfg S a.1 a.2 S'

end Bikaya.Spec
