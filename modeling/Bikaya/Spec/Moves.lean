import Bikaya.Spec.System

/-!
# The moves of the abstract kernel

A `Step` is a sequence of `Move`s; between two of them one process may be in the hands of the kernel. So what a move
keeps holds of every reachable system (`reach_keeps`), and an invariant needs one case for each move, not one for each
call.
-/

namespace Bikaya.Spec
open Bikaya.Lib Bikaya.Model Bikaya.Model.KM

variable {T : Target} {cfg : Cfg T}

inductive Move (cfg : Cfg T) : System T → Option Pid → System T → Option Pid → Prop where
  | memory {S : System T} {o : Option Pid} (mem : Word → Word) : Move cfg S o { S with mem := mem } o
  | devices {S : System T} {o : Option Pid} (hw : Hw) : Move cfg S o { S with hw := hw } o
  /-- The context or the exception areas of a process change. -/
  | adjust {S : System T} {o : Option Pid} {p : Pid} {f : Process T → Process T} :
      (∀ x, (f x).priority = x.priority ∧ (f x).original = x.original ∧ (f x).parent = x.parent) →
      Move cfg S o (S.alter p f) o
  | stop {S : System T} {p : Pid} : S.running = some p → Move cfg S none { S with running := none } (some p)
  | pop {S : System T} {key : Key} {p : Pid} {rest : List Pid} : S.waiting key = p :: rest →
      Move cfg S none (S.setWaiting key rest) (some p)
  | wake {S : System T} {p : Pid} : Move cfg S (some p) (S.wake p) none
  | wait {S : System T} {p : Pid} (key : Key) :
      Move cfg S (some p) (S.setWaiting key (insertPrio S.prio p (S.waiting key))) none
  | age {S : System T} : Move cfg S none (S.age cfg.prio) none
  | born {S : System T} {p parent : Pid} {x : Process T} : S.process p = none → p < maxProc →
      S.running = some parent → x.parent = some parent →
      Move cfg S none { S with process := Function.update S.process p (some x) } (some p)
  | load {S : System T} {p : Pid} {rest : List Pid} : S.running = none → S.ready = p :: rest →
      Move cfg S none { S with ready := rest, running := some p } none
  | kill {S : System T} (p : Pid) : Move cfg S none (S.kill p) none

/-- Any number of moves. -/
inductive Moves (cfg : Cfg T) (S : System T) : System T → Option Pid → Prop where
  | refl : Moves cfg S S none
  | move {S₁ S₂ : System T} {o₁ o₂ : Option Pid} : Moves cfg S S₁ o₁ → Move cfg S₁ o₁ S₂ o₂ → Moves cfg S S₂ o₂

namespace Moves
variable {S S' S₁ S₂ : System T} {o o' : Option Pid} {p : Pid}

/-- What every move keeps, any number of moves keeps. -/
theorem keeps {I : System T → Option Pid → Prop} (h : Moves cfg S S' o)
    (hmove : ∀ {S o S' o'}, Move cfg S o S' o' → I S o → I S' o') (h₀ : I S none) : I S' o := by
  induction h with
  | refl => exact h₀
  | move _ hm ih => exact hmove hm ih

section
variable (h : Moves cfg S S₁ o)
include h

theorem store (a w : Word) : Moves cfg S (S₁.store a w) o := h.move (.memory _)

theorem storeAt (a w : Word) : Moves cfg S (S₁.storeAt a w) o := by
  unfold System.storeAt
  split
  · exact h.store a w
  · exact h

theorem save (p : Pid) (st : CpuState T) : Moves cfg S (S₁.save p st) o := h.move (.adjust fun _ => ⟨rfl, rfl, rfl⟩)

theorem command (a cmd : Word) : Moves cfg S (S₁.command a cmd) o := by
  unfold System.command
  split
  · exact h.move (.devices _)
  · exact h.store a cmd

theorem entered (e : Entry T) : Moves cfg S (S₁.entered e) o := (h.move (.memory e.mem)).move (.devices e.hw)

end

section
variable (h : Moves cfg S S₁ none)
include h

theorem preempt (hp : S₁.running = some p) (st : CpuState T) : Moves cfg S (S₁.preempt cfg.prio p st) none := by
  have h₁ := (h.move .age).save p st
  exact (h₁.move (.stop hp)).move .wake

theorem block (hp : S₁.running = some p) (key : Key) (st : CpuState T) : Moves cfg S (S₁.block p key st) none :=
  ((h.save p st).move (.stop hp)).move (.wait key)

theorem spawn {parent : Pid} (hp : p < maxProc) (hdead : S₁.process p = none) (hrun : S₁.running = some parent)
    (st : CpuState T) (priority : Int) : Moves cfg S (S₁.spawn p st priority (some parent)) none :=
  (h.move (.born hdead hp hrun rfl)).move .wake

theorem complete {f : DevFn} {rest : List Pid} (hw : S₁.waiting (devKey cfg f) = p :: rest) :
    Moves cfg S (S₁.complete cfg f p rest) none := by
  have h₁ : Moves cfg S (((S₁.setWaiting (devKey cfg f) rest).wake p).alter p
      fun x => { x with context := x.context.setReturn (S₁.hw.status f) }) none :=
    ((h.move (.pop hw)).move .wake).move (.adjust fun _ => ⟨rfl, rfl, rfl⟩)
  exact h₁.move (.devices _)

theorem completes {fs : List DevFn} : Completes cfg S₁ fs S₂ → Moves cfg S S₂ none := by
  intro hc
  induction hc with
  | nil => exact h
  | cons hw _ ih => exact ih (h.complete hw)

theorem dispatch {st : CpuState T} (hn : S₁.running = none) (hd : Dispatch cfg S₁ st S₂) : Moves cfg S S₂ none := by
  cases hd with
  | idle _ => exact h
  | load hr _ => exact h.move (.load hn hr)

theorem leave {ended : Bool} {c st : CpuState T} (hl : Leave cfg S₁ ended c st S₂) : Moves cfg S S₂ none := by
  cases hl with
  | resume _ _ => exact h
  | preempt hp _ hd => exact (h.preempt hp c).dispatch rfl hd
  | dispatch hn hd => exact h.dispatch hn hd

theorem call {e : Entry T} {c : CpuState T} (hc : Call cfg e S₁ c S₂) : Moves cfg S S₂ none := by
  cases hc with
  | getCpuTime _ _ _ _ _ => exact ((h.store _ _).store _ _).store _ _
  | createFull _ _ => exact h
  | create _ hp hdead hrun => exact (h.spawn hp hdead hrun _ _).storeAt _ _
  | terminateDead _ _ _ => exact h
  | terminate _ _ _ => exact h.move (.kill _)
  | handOver _ hw => exact (h.move (.pop hw)).move .wake
  | raise _ _ => exact h.store _ _
  | pass _ _ => exact h.store _ _
  | wait _ _ hp => exact h.block hp _ _
  | waitIo _ _ hp =>
    refine (h.command _ _).block ?_ _ _
    unfold System.command
    split <;> exact hp
  | register _ _ _ _ _ => exact h.move (.adjust fun _ => ⟨rfl, rfl, rfl⟩)
  | registerTwice _ _ _ _ _ => exact h.move (.kill _)
  | getPid _ _ => exact (h.storeAt _ _).storeAt _ _

end

/-- The running process is its own victim. -/
theorem kill_running {S : System T} (hp : S.running = some p) : (S.kill p).running = none := by
  have hself : S.spared p p = false := by
    rw [Bool.eq_false_iff, ne_eq, System.spared_iff]
    exact fun hn => hn Relation.ReflTransGen.refl
  unfold System.kill
  simp [hp, Option.filter, hself]

/-- A kernel entry is made of moves. -/
theorem step {e : Entry T} {st : CpuState T} (hs : Step cfg S e st S') : Moves cfg S S' none := by
  have h : Moves cfg S (S.entered e) none := Moves.refl.entered e
  cases hs with
  | call hc hl => exact (h.call hc).leave hl
  | breakpoint _ _ hl => exact h.leave hl
  | exception _ hh =>
    cases hh with
    | passUp _ _ _ _ => exact h.move (.memory _)
    | die hp _ _ hd => exact (h.move (.kill _)).dispatch (kill_running hp) hd
  | interrupt _ hc hl => exact (h.completes hc).leave hl

end Moves

/-- What holds at the boot and every move keeps holds of every system reached. -/
theorem reach_keeps {ok : System T → Entry T → Prop} {I : System T → Option Pid → Prop} (h₀ : I (.boot cfg) none)
    (hmove : ∀ {S o S' o'}, Move cfg S o S' o' → I S o → I S' o') {S : System T}
    (h : (abstractKernel cfg ok).Reach S) : I S none := by
  refine Lts.Reach.keeps (M := abstractKernel cfg ok) (I := fun S => I S none) (fun hb => ?_) (fun _ hI hs => ?_) h
  · exact hb ▸ h₀
  · exact (Moves.step hs.2).keeps hmove hI

end Bikaya.Spec
