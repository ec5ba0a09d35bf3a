import Bikaya.Lib.Always
import Bikaya.Refine.State
import Bikaya.Spec.Entries

/-!
# The acts of the kernel

`Act cfg s q s' q'` : one of the things the kernel does to a state `s` that holds the lists `q`. Every kernel
entry is a sequence of acts (`Steps`), so a property of runs needs one case for each act and never the code.
The states in which acts end are written with the functions of `KState` below, one for each piece of code.
-/

namespace Bikaya.Model
open Bikaya.Lib

variable {T : Target}

/-- The PCBs of `xs` one step older. -/
def agePcbs (arith : PrioArith) (xs : List Pid) (pcbs : Pid → Pcb T) (p : Pid) : Pcb T :=
  if p ∈ xs then { pcbs p with priority := arith.succ (pcbs p).priority } else pcbs p

namespace KState

def prio (s : KState T) (p : Pid) : Int := (s.m.pool.pcbs p).priority

def setPcb (s : KState T) (p : Pid) (f : Pcb T → Pcb T) : KState T :=
  s.setPool { s.m.pool with pcbs := Function.update s.m.pool.pcbs p (f (s.m.pool.pcbs p)) }

def relink (s : KState T) (l : Links Node) : KState T := s.setPool { s.m.pool with links := l }

def setCurrent (s : KState T) (p : Option Pid) : KState T := { s with m := { s.m with currentProc := p } }

def setMem (s : KState T) (mem : Word → Word) : KState T := { s with m := { s.m with mem := mem } }

def setAreas (s : KState T) (areas : OldArea → CpuState T) (old : Option OldArea) : KState T :=
  { s with m := { s.m with oldAreas := areas, oldState := old } }

/-- The hardware has entered the kernel. -/
def entered (s : KState T) (e : Entry T) : KState T :=
  let m := { s.m with oldAreas := Function.update s.m.oldAreas e.area e.st, mem := e.mem, hw := e.hw }
  ({ s with m := m } : KState T).push (.entry e)

def resetPrio (s : KState T) (p : Pid) : KState T := s.setPcb p fun x => { x with priority := x.originalPriority }

/-- `scheduler_enqueue_process`. -/
def enqueued (s : KState T) (p : Pid) (l : Links Node) : KState T := ((s.resetPrio p).relink l).push (.enqueue p)

/-- `aging`, on the ready processes `xs`. -/
def aged (cfg : Cfg T) (s : KState T) (xs : List Pid) : KState T :=
  s.setPool { s.m.pool with pcbs := agePcbs cfg.prio xs s.m.pool.pcbs }

/-- The end of a time slice of `p`, whose state was `st`. -/
def expired (cfg : Cfg T) (s : KState T) (xs : List Pid) (p : Pid) (st : CpuState T) : KState T :=
  ((s.aged cfg xs).push .expire).setPcb p fun x => { x with pS := st }

/-- A word stored where a command register is expected. -/
def commanded (s : KState T) (addr cmd : Word) : KState T :=
  match Hw.fnAt T addr with
  | some f => { s with m := { s.m with hw := s.m.hw.issue f cmd } }
  | none => s.setMem (Function.update s.m.mem addr cmd)

/-- `p` taken from the waiting list of its semaphore. -/
def popped (s : KState T) (p : Pid) (l : Links Node) : KState T :=
  (s.setPcb p fun x => { x with pSemkey := 0 }).relink l

/-- `p`, which was current, waits in the queue of `key`. -/
def blockedOn (s : KState T) (pool : Pool T) (p : Pid) (key : Key) : KState T :=
  ((s.setPool pool).setCurrent none).push (.block p key false)

/-- `p` fresh from `pcb_alloc` with its first state and priority. -/
def spawned (s : KState T) (p : Pid) (l : Links Node) (st : CpuState T) (prio : Int) : KState T :=
  ((((s.setPcb p fun _ => Pcb.zero).relink l).setPcb p fun x => { x with pS := st }).setPcb p
    fun x => { x with originalPriority := prio }).push (.create p st)

end KState
end Bikaya.Model

namespace Bikaya.Kernel
open Bikaya.Lib Bikaya.Model Bikaya.Spec Bikaya.Refine

variable {T : Target}

/-! ## Accounting -/

/-- A PCB up to its times. -/
def timeless (x : Pcb T) : Pcb T := { x with startTm := 0, userTm := 0, kernelTm := 0 }

/-- Two machines that differ at most in what serves the accounting of time. -/
structure SameButTime (m m' : Machine T) : Prop where
  links : m'.pool.links = m.pool.links
  sKey : m'.pool.sKey = m.pool.sKey
  pcbs : ∀ p, timeless (m'.pool.pcbs p) = timeless (m.pool.pcbs p)
  currentProc : m'.currentProc = m.currentProc
  idleProcState : m'.idleProcState = m.idleProcState
  oldAreas : m'.oldAreas = m.oldAreas
  oldState : m'.oldState = m.oldState
  mem : m'.mem = m.mem
  hw : m'.hw = m.hw

/-- The observations that accounting makes. -/
def IsTime : Obs T → Prop
  | .charge _ _ _ _ => True
  | .tick _ => True
  | _ => False

/-- Nothing but accounting happens between `s` and `s'`. -/
structure Timed (s s' : KState T) : Prop where
  same : SameButTime s.m s'.m
  hist : ∃ ns, s'.hist = ns ++ s.hist ∧ ∀ n ∈ ns, IsTime n.1 ∧ SameButTime s.m n.2

/-- Every completed operation has a waiter. -/
def Waited (cfg : Cfg T) (hw : Hw) (q : Queues) : Prop := ∀ f, Finished hw f → q.waiting (devKey cfg f) ≠ []

/-! ## Acts -/

/-- An `int`. -/
def IsInt (x : Int) : Prop := -2 ^ 31 ≤ x ∧ x < 2 ^ 31

/-- How a process comes to block: PASSEREN on a semaphore at zero, or WAITIO. -/
inductive Blocking (cfg : Cfg T) (s : KState T) (p : Pid) : Key → KState T → Prop where
  | passeren (key : Key) : SemCall s 5 key → s.m.mem key = 0 → Blocking cfg s p key (s.push (.passeren key false))
  | waitIo (command device : Word) (subdev : Nat) : WaitIoCall s.hist command device subdev →
      Blocking cfg s p (interruptsGetDevKey cfg device subdev)
        ((s.push (.waitIo p (commandAddr T device subdev) command)).commanded (commandAddr T device subdev) command)

/-- `LDST(old_state)` for the current process `p`: the area of the last entry, which was `p`'s, holds its
context, with the result of the system call if there is one. -/
structure Resumes (s : KState T) (p : Pid) (st : CpuState T) : Prop where
  current : s.m.currentProc = some p
  entry : ∃ e m, lastEntry s.hist = some (e, m) ∧ m.currentProc = some p ∧ st = s.m.oldAreas e.area
  context : ∃ c, context p s.hist = some c ∧ (st = c ∨ ∃ r, st = c.setReturn r)

inductive Act (cfg : Cfg T) : KState T → Queues → KState T → Queues → Prop where
  | time {s s' : KState T} {q : Queues} : Timed s s' → Act cfg s q s' q
  /-- The program counter of an old area adjusted, a result put in it, `old_state` set. -/
  | areas {s : KState T} {q : Queues} (areas : OldArea → CpuState T) (old : Option OldArea) :
      Act cfg s q (s.setAreas areas old) q
  /-- A result stored in the memory of the process. -/
  | output {s : KState T} {q : Queues} (mem : Word → Word) :
      (∀ a, mem a ≠ s.m.mem a → OutputCall s.hist a) → Act cfg s q (s.setMem mem) q
  | register {s : KState T} {q : Queues} (p : Pid) (new old : Fin 3 → Word) :
      Act cfg s q (s.setPcb p fun x => { x with excNewAreas := new, excOldAreas := old }) q
  | resume {s : KState T} {q : Queues} {p : Pid} {st : CpuState T} : Resumes s p st →
      Act cfg s q (s.push (.resume st)) q
  | passUp {s : KState T} {q : Queues} {p : Pid} {st : CpuState T} : s.m.currentProc = some p →
      Act cfg s q (s.push (.passUp p st)) q
  | idle {s : KState T} {q : Queues} : s.m.currentProc = none → q.ready = [] →
      Act cfg s q (s.push (.idle s.m.idleProcState)) q
  /-- The time slice of `p` ends: the ready processes age, and `p` joins them. -/
  | preempt {s : KState T} {q : Queues} {p : Pid} {st : CpuState T} {l : Links Node} :
      s.m.currentProc = some p → ¬ q.Queued p → context p s.hist = some st → TimerCall s.hist p →
      sliceOver s.hist = false →
      (∃ e m, lastEntry s.hist = some (e, m) ∧ ∀ r ∈ q.ready, ReadyOrWoken cfg e m r (s.prio r)) →
      Act cfg s q ((s.expired cfg q.ready p st).enqueued p l)
        (q.enqueue ((s.expired cfg q.ready p st).resetPrio p).prio p)
  /-- The first ready process is taken and loaded. -/
  | dispatch {s s₂ : KState T} {q : Queues} {p : Pid} {rest : List Pid} {l : Links Node} :
      q.ready = p :: rest → Timed (((s.push .run).relink l).setCurrent (some p)) s₂ →
      Act cfg s q (s₂.push (.dispatch p (s₂.m.pool.pcbs p).pS)) { q with ready := rest }
  /-- The current process `p` blocks on `key`. -/
  | block {s s₁ s₂ : KState T} {q : Queues} {p : Pid} {key : Key} {st : CpuState T} {pool : Pool T} :
      s.m.currentProc = some p → ¬ q.Queued p → context p s.hist = some st → Blocking cfg s p key s₁ →
      Timed (s₁.setPcb p fun x => { x with pS := st }) s₂ →
      pool.pcbs = Function.update s₂.m.pool.pcbs p { s₂.m.pool.pcbs p with pSemkey := key } →
      (∃ e m, lastEntry s.hist = some (e, m) ∧ m.currentProc = some p) →
      Act cfg s q (s₂.blockedOn pool p key) (q.setWaiting key (insertPrio s₂.prio p (q.waiting key)))
  /-- VERHOGEN with a waiter. -/
  | handOver {s : KState T} {q : Queues} {key : Key} {p : Pid} {rest : List Pid} {l l' : Links Node} :
      SemCall s 4 key → q.waiting key = p :: rest →
      Act cfg s q (((s.popped p l).push (.verhogen key (some p))).enqueued p l')
        ((q.setWaiting key rest).enqueue ((s.popped p l).resetPrio p).prio p)
  /-- VERHOGEN without a waiter. -/
  | verhogen {s : KState T} {q : Queues} {key : Key} : SemCall s 4 key → q.waiting key = [] →
      Act cfg s q ((s.setMem (Function.update s.m.mem key (s.m.mem key + 1))).push (.verhogen key none)) q
  /-- PASSEREN that goes through. -/
  | passeren {s : KState T} {q : Queues} {key : Key} : SemCall s 5 key → s.m.mem key ≠ 0 →
      Act cfg s q ((s.setMem (Function.update s.m.mem key (s.m.mem key - 1))).push (.passeren key true)) q
  /-- A completed operation is reported to its waiter and acknowledged. -/
  | serve {s : KState T} {q : Queues} {f : DevFn} {addr : Word} {p : Pid} {rest : List Pid} {l l' : Links Node} :
      Finished s.m.hw f → Hw.fnAt T addr = some f → q.waiting (devKey cfg f) = p :: rest →
      Act cfg s q
        ((((((s.popped p l).enqueued p l').setPcb p fun x =>
          { x with pS := x.pS.setReturn (s.m.hw.status f) }).push
            (.complete (devKey cfg f) p (s.m.hw.status f))).commanded addr cmdAck).push (.ack addr))
        ((q.setWaiting (devKey cfg f) rest).enqueue ((s.popped p l).resetPrio p).prio p)
  /-- A PCB comes to life. -/
  | spawn {s : KState T} {q : Queues} {p : Pid} {rest : List Pid} {st : CpuState T} {prio : Int}
      {l l' : Links Node} : q.free = p :: rest → IsInt prio →
      Act cfg s q ((s.spawned p l st prio).enqueued p l')
        ((q.alloc p).enqueue ((s.spawned p l st prio).resetPrio p).prio p)
  | adopt {s : KState T} {q : Queues} {parent p : Pid} {l : Links Node} :
      Act cfg s q ((s.setPcb p fun x => { x with pParent := some parent }).relink l) (q.adopt parent p)
  /-- The current process is about to be killed. -/
  | quit {s : KState T} {q : Queues} : Act cfg s q (s.setCurrent none) q
  | bury {s : KState T} {q : Queues} {p : Pid} {pool : Pool T} : KillCall cfg s.hist p → q.kids p = some [] →
      s.m.currentProc ≠ some p →
      pool.pcbs = Function.update s.m.pool.pcbs p { s.m.pool.pcbs p with pParent := none } →
      Act cfg s q ((s.setPool pool).push (.bury p)) (q.bury p)

/-- Any number of acts, in sound states. -/
inductive Steps (cfg : Cfg T) (s₀ : KState T) (q₀ : Queues) : KState T → Queues → Prop where
  | refl : Steps cfg s₀ q₀ s₀ q₀
  | act {s s' : KState T} {q q' : Queues} {out out' : List Pid} : Steps cfg s₀ q₀ s q → Sound s.m.pool q out →
      Act cfg s q s' q' → Sound s'.m.pool q' out' → Steps cfg s₀ q₀ s' q'

/-- What every act keeps, any number of acts keeps. -/
theorem Steps.keeps {cfg : Cfg T} {I : KState T → Queues → Prop} {s₀ s : KState T} {q₀ q : Queues}
    (h : Steps cfg s₀ q₀ s q)
    (hact : ∀ {s s' q q' out out'}, Sound s.m.pool q out → Sound s'.m.pool q' out' → Act cfg s q s' q' →
      I s q → I s' q')
    (h₀ : I s₀ q₀) : I s q := by
  induction h with
  | refl => exact h₀
  | act _ hs ha hs' ih => exact hact hs hs' ha ih

end Bikaya.Kernel
