import Bikaya.Spec.Frame
import Bikaya.System.Family

/-!
# Isolation in the code

`memory_frame` : which words of memory a kernel entry changes. `others_frame` : what it does to the processes that do
not run.
-/

namespace Bikaya.Results
open Bikaya.Lib Bikaya.Model Bikaya.Spec Bikaya.Kernel

variable {T : Target} {cfg : Cfg T}

/-- A kernel entry writes its results (`Writes`) and, for VERHOGEN and PASSEREN, the semaphore; the rest of the memory
is as the process left it. -/
theorem memory_frame {s s' : KState T} {e : Entry T} {st : CpuState T} (h : Run cfg (Lawful cfg) s)
    (hok : Lawful cfg s e) (hs : kernelStep cfg e s = .exit st s') {a : Word}
    (hw : ¬ Writes (systemOf s.m) e a) :
    s'.m.mem a =
      if IsCall e 4 ∧ e.st T.sysArg1 = a ∧ waitingList s.m a = [] then e.mem a + 1
      else if IsCall e 5 ∧ e.st T.sysArg1 = a ∧ e.mem a ≠ 0 then e.mem a - 1
      else e.mem a :=
  (kernelStep_system (run_showing id h) hok hs).2.mem hw

/-- The first process passes a semaphore at 2. -/
def passing : Entry .umps := { syscall forked 5 0x300 0 0 with mem := Function.update forked.m.mem 0x300 2 }

theorem passing_facts : exits demo forked passing = true ∧ isLawful demo forked passing = true ∧
    ¬ Writes (systemOf forked.m) passing 0x300 ∧ ¬ IsCall passing 4 ∧ IsCall passing 5 ∧
    passing.st Target.umps.sysArg1 = 0x300 ∧ passing.mem 0x300 = 2 := by decide +kernel

theorem memory_frame_passeren : ∃ s', (∃ st, kernelStep demo passing forked = .exit st s') ∧ s'.m.mem 0x300 = 1 := by
  obtain ⟨hexits, hlawful, hw, h4, h5, harg, hmem⟩ := passing_facts
  obtain ⟨st, hs⟩ := kernelStep_after hexits
  refine ⟨after demo forked passing, ⟨st, hs⟩, ?_⟩
  rw [memory_frame (run_mono And.right run_forked) (lawful_of_check hlawful) hs hw, if_neg fun hc => h4 hc.1,
    if_pos ⟨h5, harg, by rw [hmem]; decide⟩, hmem]
  rfl

/-- A kernel entry leaves a process that does not run its saved state, its original priority, its parent and its
exception areas; only the end of its device operation puts the status into the saved state as the result. -/
theorem others_frame {s s' : KState T} {e : Entry T} {st : CpuState T} (h : Run cfg (Lawful cfg) s)
    (hok : Lawful cfg s e) (hs : kernelStep cfg e s = .exit st s') {p : Pid} (hp : s.m.currentProc ≠ some p)
    (hlive : Alive s.m p) (hlive' : Alive s'.m p) :
    (procOf (s'.m.pool.pcbs p)).own = (procOf (s.m.pool.pcbs p)).own ∨
    e.area = .int ∧ ∃ f ∈ completions e, p ∈ waitingList s.m (devKey cfg f) ∧
      (procOf (s'.m.pool.pcbs p)).own =
        { procOf (s.m.pool.pcbs p) with context := (s.m.pool.pcbs p).pS.setReturn (e.hw.status f) }.own := by
  have hstep := (kernelStep_system (run_showing id h) hok hs).2
  have hown : ∀ {m : Machine T}, Alive m p → (systemOf m).process p = some (procOf (m.pool.pcbs p)) := fun ha => if_pos ha
  have hframe := hstep.others (reach_fit (run_reach h)) hp ((process_systemOf s.m p).mpr hlive)
    ((process_systemOf s'.m p).mpr hlive')
  unfold System.own System.result at hframe
  rw [hown hlive, hown hlive'] at hframe
  refine hframe.imp (fun ho => Option.some.inj ho) fun ho => ⟨ho.1, ?_⟩
  obtain ⟨f, hf, hw, ho⟩ := ho.2
  exact ⟨f, hf, hw, Option.some.inj ho⟩

theorem timer_facts : exits demo forked (timer forked) = true ∧ isLawful demo forked (timer forked) = true ∧
    forked.m.currentProc ≠ some 18 ∧ Alive forked.m 18 ∧ Alive childRuns.m 18 ∧ completions (timer forked) = [] := by
  decide +kernel

/-- A time slice ends, and the child is as it was. -/
theorem others_frame_childRuns : (procOf (childRuns.m.pool.pcbs 18)).own = (procOf (forked.m.pool.pcbs 18)).own := by
  obtain ⟨hexits, hlawful, hp, hlive, hlive', hnone⟩ := timer_facts
  obtain ⟨st, hs⟩ := kernelStep_after hexits
  rcases others_frame (run_mono And.right run_forked) (lawful_of_check hlawful) hs hp hlive hlive' with
    h | ⟨-, f, hf, -, -⟩
  · exact h
  · rw [hnone] at hf
    exact absurd hf List.not_mem_nil

end Bikaya.Results
