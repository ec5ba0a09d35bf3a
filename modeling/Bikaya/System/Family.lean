import Bikaya.Kernel.Replay
import Bikaya.Spec.Descent
import Bikaya.System.Runs

/-!
# The family of the first process

`descends` : in every run each live process descends from the first one through live processes. `first_ends_all` :
when the first process is dead, all are, and from then on the kernel only loads the idle code.
-/

namespace Bikaya.Kernel
open Bikaya.Lib Bikaya.Model Bikaya.Spec

variable {T : Target} {cfg : Cfg T} {s s' : KState T}

theorem process_systemOf (m : Machine T) (p : Pid) : (systemOf m).process p ≠ none ↔ Alive m p := by
  unfold systemOf
  by_cases hp : Alive m p <;> simp [hp]

/-- The systems that a run shows are reached by the abstract kernel. -/
theorem run_reach (h : Run cfg (Lawful cfg) s) : (abstractKernel cfg (Admitted cfg)).Reach (systemOf s.m) :=
  run_system id (fun hs hok => admitted_of_lawful hs hok) h

end Bikaya.Kernel

namespace Bikaya.Results
open Bikaya.Lib Bikaya.Model Bikaya.Spec Bikaya.Kernel

variable {T : Target} {cfg : Cfg T}

/-- Every live process descends from the first one, and all its ancestors live. -/
theorem descends {s : KState T} (h : Run cfg (Lawful cfg) s) {p : Pid} (hp : Alive s.m p) :
    Desc (ParentOf s.m) firstPid p ∧ ∀ a, Desc (ParentOf s.m) a p → Alive s.m a := by
  have hroot := reach_rooted (run_reach h)
  have hchild := (run_showing id h).child_eq
  rw [← process_systemOf] at hp
  refine ⟨hchild ▸ hroot.descends hp, fun a ha => ?_⟩
  rw [← hchild] at ha
  rw [← process_systemOf]
  rcases Relation.ReflTransGen.cases_head ha with he | ⟨c, hc, -⟩
  · exact he ▸ hp
  · exact hroot.parent_lives hc

theorem alive_childRuns : Alive childRuns.m 18 := by decide +kernel

theorem descends_childRuns : Run demo (Lawful demo) childRuns ∧ Alive childRuns.m 18 ∧
    Desc (ParentOf childRuns.m) firstPid 18 := by
  have hrun : Run demo (Lawful demo) childRuns := run_mono And.right run_childRuns
  exact ⟨hrun, alive_childRuns, (descends hrun alive_childRuns).1⟩

/-- With the first process all others have died, for good: whatever lawful entries follow, no process is born and
the idle code goes on. -/
theorem first_ends_all {s s' : KState T} (h : Run cfg (Lawful cfg) s) (hdead : ¬ Alive s.m firstPid)
    (h' : RunFrom cfg (Lawful cfg) s s') :
    (∀ p, ¬ Alive s'.m p) ∧ ∀ e st s'', Lawful cfg s' e → kernelStep cfg e s' = .exit st s'' →
      st = kernelState cfg.idleCode cfg.stst := by
  have hgo : Run cfg (Lawful cfg) s' ∧ ∀ p, (systemOf s'.m).process p = none := by
    induction h' with
    | refl =>
      rw [← process_systemOf, not_not] at hdead
      exact ⟨h, (reach_rooted (run_reach h)).all_dead hdead⟩
    | step e _ hok hs ih =>
      obtain ⟨hrun, hnone⟩ := ih
      have hstep := (kernelStep_system (run_showing id hrun) hok hs).2
      exact ⟨.step e hrun hok hs, (dead_step hstep (reach_fit (run_reach hrun)) hnone).1⟩
  obtain ⟨hrun, hnone⟩ := hgo
  refine ⟨fun p hp => (process_systemOf s'.m p).mpr hp (hnone p), fun e st s'' hok hs => ?_⟩
  have hstep := (kernelStep_system (run_showing id hrun) hok hs).2
  exact (dead_step hstep (reach_fit (run_reach hrun)) hnone).2

/-- The first process of `forked` has terminated itself, and with it its child. -/
def deserted : KState .umps := after demo forked (syscall forked 3 0 0 0)

theorem deserted_facts : isLawful demo forked (syscall forked 3 0 0 0) = true ∧
    exits demo forked (syscall forked 3 0 0 0) = true ∧ ¬ Alive deserted.m firstPid := by decide +kernel

theorem first_ends_all_deserted : Run demo (Lawful demo) deserted ∧ ¬ Alive deserted.m firstPid ∧
    ∀ p, ¬ Alive deserted.m p := by
  obtain ⟨hlawful, hexits, hdead⟩ := deserted_facts
  have hrun : Run demo (Lawful demo) deserted :=
    run_after (run_mono And.right run_forked) (lawful_of_check hlawful) hexits
  exact ⟨hrun, hdead, (first_ends_all hrun hdead .refl).1⟩

end Bikaya.Results
