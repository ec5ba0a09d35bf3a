import Bikaya.Spec.Idle
import Bikaya.System.Family

/-!
# Idling and deadlock in the code

`work_conserving` : the kernel loads the idle code only when every live process waits for a semaphore. `deadlock` :
if none of them waits for a device, none ever runs again.
-/

namespace Bikaya.Results
open Bikaya.Lib Bikaya.Model Bikaya.Spec Bikaya.Kernel

variable {T : Target} {cfg : Cfg T}

/-- At the exits without a running process nobody is ready, every live process waits for a semaphore, and the next
load is the idle code's. -/
theorem work_conserving {s s' : KState T} {e : Entry T} {st : CpuState T} (h : Run cfg (Lawful cfg) s)
    (hok : Lawful cfg s e) (hs : kernelStep cfg e s = .exit st s') (hn : s'.m.currentProc = none) :
    readyList s'.m = [] ∧ st = kernelState cfg.idleCode cfg.stst ∧
    ∀ p, Alive s'.m p → ∃ key, p ∈ waitingList s'.m key := by
  have hstep := (kernelStep_system (run_showing id h) hok hs).2
  obtain ⟨hready, hst⟩ := hstep.idles hn
  refine ⟨hready, hst, fun p hp => ?_⟩
  have hfit := reach_fit (run_reach (.step e h hok hs))
  obtain ⟨a, ha⟩ := (hfit.lives p).mp ((process_systemOf s'.m p).mpr hp)
  cases a with
  | running => exact absurd (hn.symm.trans ha) (by simp)
  | ready =>
    have hmem : p ∈ (systemOf s'.m).ready := ha
    rw [hready] at hmem
    exact absurd hmem List.not_mem_nil
  | waiting key => exact ⟨key, ha⟩
  | held => cases ha

/-- The first process waits for the semaphore at 0x300. -/
def halfStarved : KState .umps := after demo forked (syscall forked 5 0x300 0 0)

/-- Its child, too. -/
def starved : KState .umps := after demo halfStarved (syscall halfStarved 5 0x300 0 0)

abbrev Allowed (s : KState .umps) (e : Entry .umps) : Prop :=
  ValidEntry demo s e ∧ isLawful demo s e = true ∧ exits demo s e = true

theorem starved_facts : Allowed forked (syscall forked 5 0x300 0 0) ∧
    Allowed halfStarved (syscall halfStarved 5 0x300 0 0) ∧ Allowed starved (timer starved) ∧
    starved.m.currentProc = none ∧ ∀ d < 40, ∀ rx, waitingList starved.m (devKey demo ⟨d, rx⟩) = [] := by
  decide +kernel

theorem run_halfStarved : Run demo (fun s e => ValidEntry demo s e ∧ Lawful demo s e) halfStarved := by
  obtain ⟨⟨hvalid, hlawful, hexits⟩, -⟩ := starved_facts
  exact run_after run_forked ⟨hvalid, lawful_of_check hlawful⟩ hexits

theorem run_starved : Run demo (fun s e => ValidEntry demo s e ∧ Lawful demo s e) starved := by
  obtain ⟨-, ⟨hvalid, hlawful, hexits⟩, -⟩ := starved_facts
  exact run_after run_halfStarved ⟨hvalid, lawful_of_check hlawful⟩ hexits

theorem work_conserving_starved : ∃ s e, starved = after demo s e ∧ starved.m.currentProc = none ∧
    ∀ p, Alive starved.m p → ∃ key, p ∈ waitingList starved.m key := by
  obtain ⟨-, ⟨-, hlawful, hexits⟩, -, hn, -⟩ := starved_facts
  obtain ⟨st, hs⟩ := kernelStep_after hexits
  have hrun := run_mono And.right run_halfStarved
  exact ⟨halfStarved, syscall halfStarved 5 0x300 0 0, rfl, hn,
    (work_conserving hrun (lawful_of_check hlawful) hs hn).2.2⟩

/-- While no process runs, nothing but interrupts enters the kernel. -/
def Quiescent (s : KState T) (e : Entry T) : Prop := e.area ≠ .int → s.m.currentProc ≠ none

theorem Quiescent.int {s : KState T} {e : Entry T} (h : Quiescent s e) (hn : s.m.currentProc = none) : e.area = .int := by
  by_contra ha
  exact h ha hn

/-- Deadlock is for good: when all live processes wait for semaphores that are no device's, then whatever interrupts
come, the same processes wait in the same order, and only the idle code is loaded. -/
theorem deadlock {s s' : KState T} (h : Run cfg (Lawful cfg) s) (hn : s.m.currentProc = none)
    (hdev : ∀ f, Spec.Exists f → waitingList s.m (devKey cfg f) = []) (h' : RunFrom cfg Quiescent s s') :
    s'.m.currentProc = none ∧ readyList s'.m = [] ∧ (∀ key, waitingList s'.m key = waitingList s.m key) ∧
    (∀ p, Alive s'.m p ↔ Alive s.m p) ∧
    ∀ e st s'', Quiescent s' e → kernelStep cfg e s' = .exit st s'' → st = kernelState cfg.idleCode cfg.stst := by
  have hgo : Run cfg (Lawful cfg) s' ∧ Stuck cfg (systemOf s'.m) ∧
      (systemOf s'.m).waiting = (systemOf s.m).waiting ∧ (systemOf s'.m).process = (systemOf s.m).process := by
    induction h' with
    | refl => exact ⟨h, ⟨hn, reach_idles (run_reach h) hn, hdev⟩, rfl, rfl⟩
    | step e _ hok hs ih =>
      obtain ⟨hrun, hstuck, hwaiting, hprocess⟩ := ih
      have hint := hok.int hstuck.running
      have hstep := (kernelStep_system (run_showing id hrun) (lawful_of_int hint) hs).2
      obtain ⟨heq, -⟩ := hstuck.step hstep hint
      refine ⟨.step e hrun (lawful_of_int hint) hs, ?_, ?_, ?_⟩
      · rw [heq]
        exact hstuck.entered e
      · rw [heq]
        exact hwaiting
      · rw [heq]
        exact hprocess
  obtain ⟨hrun, hstuck, hwaiting, hprocess⟩ := hgo
  refine ⟨hstuck.running, hstuck.ready, fun key => congrFun hwaiting key, fun p => ?_, fun e st s'' hok hs => ?_⟩
  · rw [← process_systemOf, ← process_systemOf, hprocess]
  · have hint := hok.int hstuck.running
    have hstep := (kernelStep_system (run_showing id hrun) (lawful_of_int hint) hs).2
    exact (hstuck.step hstep hint).2

theorem deadlock_starved : waitingList (after demo starved (timer starved)).m 0x300 = waitingList starved.m 0x300 := by
  have hrun : Run demo (Lawful demo) starved := run_mono And.right run_starved
  obtain ⟨-, -, ⟨hvalid, -, hexits⟩, hn, hall⟩ := starved_facts
  have hdev : ∀ f, Spec.Exists f → waitingList starved.m (devKey demo f) = [] := by
    rintro ⟨d, rx⟩ ⟨hd, -⟩
    exact hall d hd rx
  have h' : RunFrom demo Quiescent starved (after demo starved (timer starved)) :=
    runFrom_after .refl hvalid.running hexits
  exact (deadlock hrun hn hdev h').2.2.1 0x300

end Bikaya.Results
