import Bikaya.Spec.Turns
import Bikaya.System.Family

/-!
# The life of a process in the code

`life_cycle` : what a kernel entry of a run does to a process. `wait_turn` : who waits for a semaphore is overtaken
only by processes of a higher priority, and each VERHOGEN brings it one place forward.
-/

namespace Bikaya.Results
open Bikaya.Lib Bikaya.Model Bikaya.Spec Bikaya.Kernel

variable {T : Target} {cfg : Cfg T}

theorem life_cycle {s s' : KState T} {e : Entry T} {st : CpuState T} (h : Run cfg (Lawful cfg) s)
    (hok : Lawful cfg s e) (hs : kernelStep cfg e s = .exit st s') (p : Pid) :
    Fate cfg (systemOf s.m) e (systemOf s'.m) p ∧
    (s.m.currentProc = some p → p ∈ readyList s'.m → IsTimer e) := by
  have hstep := (kernelStep_system (run_showing id h) hok hs).2
  refine ⟨hstep.fate p, fun hp hready => ?_⟩
  exact hstep.preempts (reach_fit (run_reach (.step e h hok hs))) hp hready

theorem forked_timer : isLawful demo forked (timer forked) = true ∧ exits demo forked (timer forked) = true := by
  decide +kernel

theorem life_cycle_childRuns : Lawful demo forked (timer forked) ∧
    Fate demo (systemOf forked.m) (timer forked) (systemOf childRuns.m) firstPid := by
  have hok := lawful_of_check forked_timer.1
  obtain ⟨st, hs⟩ := kernelStep_after forked_timer.2
  exact ⟨hok, (life_cycle (run_mono And.right run_forked) hok hs firstPid).1⟩

/-- Every waiting list is in the order of the priorities. While `p` waits for `key`, the VERHOGENs of `key` and the
processes still ahead of it are at most as many as those that were ahead of it, and those of a higher priority that
came to wait meanwhile. -/
theorem wait_turn {s₀ s : KState T} {tr : List (KState T × (Entry T × CpuState T))} {key : Key} {p : Pid}
    (h₀ : Run cfg (Lawful cfg) s₀) (h : (kernel cfg (Lawful cfg)).Path s₀ tr s)
    (hwait : ∀ x ∈ tr, p ∈ waitingList x.1.m key) (hp : p ∈ waitingList s.m key) :
    (∀ key, Descending (fun r => (s.m.pool.pcbs r).priority) (waitingList s.m key)) ∧
    (waitingList s.m key).idxOf p + tr.countP (fun x => decide (RaisesSem x.2.1 key)) ≤
      (waitingList s₀.m key).idxOf p + tr.countP fun x => decide (Overtakes cfg (systemOf x.1.m) x.2.1 key p) := by
  have habs := kernel_abstraction (Admitted cfg) id fun hs hok => admitted_of_lawful hs hok
  obtain ⟨-, hpath⟩ := habs.path (run_showing id h₀) h
  have hreach := hpath.reach (run_reach h₀)
  refine ⟨fun key => ?_, ?_⟩
  · refine (reach_sorted hreach key).congr fun r hr => ?_
    have hlive := (reach_fit hreach).alive (a := .waiting key) hr
    have halive := (process_systemOf s.m r).mp hlive
    simp [System.prio, systemOf, halive, procOf]
  · have hcount := ahead_path hpath (run_reach h₀) (fun x hx => ?_) (show p ∈ (systemOf s.m).waiting key from hp)
    · rw [List.countP_map, List.countP_map] at hcount
      exact hcount
    · obtain ⟨y, hy, rfl⟩ := List.mem_map.mp hx
      exact hwait y hy

/-- The first process has a second child. -/
def forkedTwice : KState .umps := after demo forked (syscall forked 2 0 1 0)

/-- The first process waits for the semaphore at 0x300. -/
def queuedOne : KState .umps := after demo forkedTwice (syscall forkedTwice 5 0x300 0 0)

/-- Its first child, too; the second child runs. -/
def queued : KState .umps := after demo queuedOne (syscall queuedOne 5 0x300 0 0)

/-- It raises the semaphore. -/
def advanced : KState .umps := after demo queued (syscall queued 4 0x300 0 0)

theorem queued_facts : exits demo forked (syscall forked 2 0 1 0) = true ∧
    exits demo forkedTwice (syscall forkedTwice 5 0x300 0 0) = true ∧
    exits demo queuedOne (syscall queuedOne 5 0x300 0 0) = true ∧ exits demo queued (syscall queued 4 0x300 0 0) = true ∧
    18 ∈ waitingList queued.m 0x300 ∧ 18 ∈ waitingList advanced.m 0x300 := by decide +kernel

theorem lawful_syscall {s : KState .umps} {n a b c : Word} (h3 : n ≠ 3) (h7 : n ≠ 7) : Lawful demo s (syscall s n a b c) :=
  lawful_of_not (fun hcall => h3 (BitVec.eq_of_toNat_eq hcall.2.2)) fun hcall => h7 (BitVec.eq_of_toNat_eq hcall.2.2)

theorem run_queued : Run demo (Lawful demo) queued := by
  obtain ⟨h₁, h₂, h₃, -⟩ := queued_facts
  have hforked := run_mono And.right run_forked
  have hone : Run demo (Lawful demo) queuedOne :=
    run_after (run_after hforked (lawful_syscall (by decide) (by decide)) h₁) (lawful_syscall (by decide) (by decide)) h₂
  exact run_after hone (lawful_syscall (by decide) (by decide)) h₃

/-- The child moves up to the front. -/
theorem wait_turn_advanced : ∃ tr : List (KState .umps × (Entry .umps × CpuState .umps)),
    (kernel demo (Lawful demo)).Path queued tr advanced ∧
    (waitingList advanced.m 0x300).idxOf 18 + tr.countP (fun x => decide (RaisesSem x.2.1 0x300)) ≤
      (waitingList queued.m 0x300).idxOf 18 +
        tr.countP fun x => decide (Overtakes demo (systemOf x.1.m) x.2.1 0x300 18) := by
  obtain ⟨-, -, -, hexits, hwait, hwait'⟩ := queued_facts
  have hok : Lawful demo queued (syscall queued 4 0x300 0 0) := lawful_syscall (by decide) (by decide)
  obtain ⟨st, hs⟩ := kernelStep_after hexits
  have hpath : (kernel demo (Lawful demo)).Path queued [(queued, syscall queued 4 0x300 0 0, st)] advanced :=
    .step .refl ⟨hok, hs⟩
  refine ⟨_, hpath, (wait_turn run_queued hpath (fun x hx => ?_) hwait').2⟩
  rw [List.mem_singleton.mp hx]
  exact hwait

end Bikaya.Results
