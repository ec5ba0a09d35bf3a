import Bikaya.Kernel.Meter
import Bikaya.Kernel.Replay

/-!
# CPU time is charged once, to the process that ran

In every run whose TOD readings never decrease and in which the kernel stays within its tables (`charged_once`). A
SPECPASSUP with a type below 0 writes into the times of the caller.
-/

namespace Bikaya.Results
open Bikaya.Lib Bikaya.Model Bikaya.Spec Bikaya.Kernel

variable {T : Target}

/-- What was charged until now, to the dead as well. -/
structure ChargedOnce (cfg : Cfg T) (s : KState T) : Prop where
  /-- `user_tm` and `kernel_tm` are made of the charges of the history. -/
  times : ∀ p, (s.m.pool.pcbs p).userTm = chargedTo p false s.hist ∧
    (s.m.pool.pcbs p).kernelTm = chargedTo p true s.hist
  /-- Their sum, at every moment, is no more than the TOD elapsed from the first `scheduler_run` to the last
  accounting. -/
  bounded : Always (fun n earlier => Bounded cfg (n :: earlier)) s.hist
  /-- An interval begins after the end of the one charged before it. -/
  disjoint : (charges s.hist).Pairwise fun later earlier => earlier.stop < later.start
  /-- Each was the time of the process that was the current one, and of no other or none. -/
  running : Always (ChargesRunning cfg) s.hist

theorem charged_once {cfg : Cfg T} (hclock : Monotone cfg.clock) {s : KState T}
    (h : Run cfg (fun _ => InBounds cfg) s) : ChargedOnce cfg s := by
  obtain ⟨hm, -⟩ := run_metered hclock id h
  exact ⟨fun p => ⟨hm.user p, hm.kernel p⟩, hm.bounded, hm.disjoint, hm.charging⟩

/-- The first process has created a child and been preempted by it. -/
theorem charged_once_childRuns : ChargedOnce demo childRuns :=
  charged_once demo_monotone (run_mono (fun hok => hok.2.toInBounds) run_childRuns)

/-! ## A type below 0 -/

/-- The first process has asked for type -5. -/
def timesOverwritten : KState .umps := after demo (booted demo) (syscall (booted demo) 7 0xFFFFFFFB 0x20003000 0)

/-- The old area is stored in the low word of `kernel_tm`, which then is more than all the time that has passed. -/
theorem charged_once_fails : ¬ ∀ (cfg : Cfg .umps) (s : KState .umps), Monotone cfg.clock →
    Run cfg (fun _ _ => True) s → ChargedOnce cfg s := by
  intro h
  have hrun : Run demo (fun _ _ => True) timesOverwritten := run_after (run_booted demo _) trivial (by decide +kernel)
  have hkernel := ((h demo timesOverwritten demo_monotone hrun).times 19).2
  exact absurd hkernel (by decide +kernel)

end Bikaya.Results
