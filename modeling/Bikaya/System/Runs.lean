import Bikaya.System.Kernel

/-!
# Runs, on systems

`kernel cfg ok` : the kernel with its entries as a transition system. Its runs are those of the abstract kernel, read
through `systemOf` (`kernel_abstraction`, `kernel_refines`); so what holds in every run of the abstract kernel holds in
every run of the code (`run_system`).
-/

namespace Bikaya.Kernel
open Bikaya.Lib Bikaya.Model Bikaya.Spec Bikaya.Refine Bikaya.Model.KM

variable {T : Target} {cfg : Cfg T} {ok : KState T → Entry T → Prop} {s s' : KState T} {e : Entry T}

/-- The kernel. A label is an entry with the state that is loaded at its end. -/
def kernel (cfg : Cfg T) (ok : KState T → Entry T → Prop) : Lts (KState T) (Entry T × CpuState T) where
  init s := ∃ st, boot cfg = .exit st s
  step s a s' := ok s a.1 ∧ kernelStep cfg a.1 s = .exit a.2 s'

theorem reach_iff : (kernel cfg ok).Reach s ↔ Run cfg ok s := by
  constructor
  · intro h
    refine h.keeps (fun {s} hb => ?_) fun {s a s'} _ hr hs => .step a.1 hr hs.1 hs.2
    obtain ⟨st, hb⟩ := hb
    exact .boot hb
  · intro h
    induction h with
    | boot hb => exact ⟨[], .init ⟨_, hb⟩⟩
    | step e _ hok hs ih =>
      obtain ⟨tr, htr⟩ := ih
      exact ⟨_, htr.step (a := (e, _)) ⟨hok, hs⟩⟩

/-- The machine shows its own system. -/
def Showing (cfg : Cfg T) (s : KState T) : Prop := ∃ q, Shows cfg s q s.m.currentProc.toList (systemOf s.m)

theorem Shows.system_eq {q : Queues} {out : List Pid} {S : System T} (h : Shows cfg s q out S) : systemOf s.m = S :=
  (systemOf_eq h.sound.rep).trans h.system

theorem Shows.showing {q : Queues} {S : System T} (h : Shows cfg s q s.m.currentProc.toList S) : Showing cfg s :=
  ⟨q, by rw [h.system_eq]; exact h⟩

/-- Ancestors are the same. -/
theorem Showing.child_eq (h : Showing cfg s) : (systemOf s.m).Child = ParentOf s.m := by
  obtain ⟨q, hq⟩ := h
  rw [Shows.child_eq hq, hq.sound.rep.child_eq]

theorem admitted_of_lawful (h : Showing cfg s) (hs : Lawful cfg s e) : Admitted cfg (systemOf s.m) e := by
  refine ⟨hs.toInBounds, fun hcall p c hp hc => ?_⟩
  rw [h.child_eq]
  exact hs.spares hcall p c hp hc

/-! ## The boot -/

/-- The state with which the first process starts. -/
def firstState (cfg : Cfg T) : CpuState T :=
  kernelState cfg.testCode (Function.update cfg.stst T.sp (cfg.ramTop - 4096))

theorem boot_shows (cfg : Cfg T) : ∃ s q, boot cfg = .exit (firstState cfg) s ∧
    Shows cfg s q s.m.currentProc.toList (.boot cfg) := by
  obtain ⟨pool₁, pool₂, hrun₁, hrun₂, hrep, hz⟩ := init_rep (T := T)
  generalize hs₁ : KState.setPool (KState.setPool ⟨Machine.static cfg, []⟩ pool₁) pool₂ = s₁
  generalize hs₀ : ({ s₁ with m := { s₁.m with idleProcState := kernelState cfg.idleCode cfg.stst } } : KState T) = s₀
  have hpool : s₀.m.pool = pool₂ := by
    subst hs₀ hs₁
    rfl
  let S₀ : System T := ⟨none, [], fun _ => [], fun _ => none, cfg.mem0, cfg.hw0⟩
  have h₀ : Shows cfg s₀ initial [] S₀ := by
    refine ⟨hpool ▸ ⟨hrep, initial_places.1, initial_places.2⟩, ?_, by subst hs₀; rfl⟩
    ext1
    · subst hs₀ hs₁
      rfl
    · rfl
    · rfl
    · funext p
      refine process_eq_none.mpr fun hp => hp.2 ?_
      exact List.mem_reverse.mpr (List.mem_range.mpr hp.1)
    · subst hs₀ hs₁
      rfl
    · subst hs₀ hs₁
      rfl
  have hf : initial.free = (maxProc - 1) :: (List.range (maxProc - 1)).reverse := rfl
  obtain ⟨l, l', halloc, henq, h₁⟩ := h₀.spawn hf (firstState cfg) defaultPriority
  have hinit : schedulerInit cfg s₁ = .ret ()
      ((s₀.spawned (maxProc - 1) l (firstState cfg) defaultPriority).enqueued (maxProc - 1) l') := by
    unfold schedulerInit
    rw [bind_ret (t := s₀) (a := ()) (by rw [← hs₀]; rfl), bind_ret halloc, bind_ret (orFault_ret _ _),
      bind_ret (modifyPcb_ret _ _ _), bind_ret (modifyPcb_ret _ _ _), bind_ret (note_ret _ _)]
    exact henq
  have hrun := schedulerRun_dispatch (F := fun _ => False) h₁ (insertPrio_ne_nil _ _ _) none
  have hwp : Exec.wp (main cfg) (fun _ _ => False)
      (fun st s' => Ends cfg (Dispatch cfg { S₀.spawn (maxProc - 1) (firstState cfg) defaultPriority none with
        running := none } st) s') (fun _ => False) ⟨Machine.static cfg, []⟩ := by
    unfold main
    refine wp_bind_ret (pool_ret hrun₁) (wp_bind_ret (pool_ret (s := KState.setPool _ pool₁) hrun₂) ?_)
    rw [hs₁]
    exact wp_bind_ret hinit hrun
  obtain ⟨st, s, hb, q, S, h, hd⟩ := wp_exits hwp
  have hproc : (S₀.spawn (maxProc - 1) (firstState cfg) defaultPriority none).process = (System.boot cfg).process := by
    funext r
    by_cases hr : r = maxProc - 1
    · subst hr
      simp [System.spawn, System.wake, System.alter, System.boot, firstState, S₀]
    · simp only [System.spawn, System.wake, System.alter, System.boot, Function.update_of_ne hr, S₀]
  have hready : (S₀.spawn (maxProc - 1) (firstState cfg) defaultPriority none).ready = [maxProc - 1] := rfl
  cases hd with
  | idle hnil => exact absurd (hready.symm.trans hnil) (by simp)
  | @load p rest x hr hx =>
    obtain ⟨rfl, rfl⟩ := List.cons.inj (hready.symm.trans hr)
    rw [hproc] at hx h
    have hx : x.context = firstState cfg := by
      simp only [System.boot, Function.update_self] at hx
      obtain rfl := Option.some.inj hx
      rfl
    refine ⟨s, q, hx ▸ hb, ?_⟩
    exact h

/-! ## The abstraction -/

/-- What a step of the kernel is. -/
theorem kernelStep_system {st : CpuState T} (h : Showing cfg s) (hlawful : Lawful cfg s e)
    (hs : kernelStep cfg e s = .exit st s') : Showing cfg s' ∧ Step cfg (systemOf s.m) e st (systemOf s'.m) := by
  obtain ⟨q, hq⟩ := h
  have hwp := kernelStep_step hq (admitted_of_lawful hq.showing hlawful)
  unfold Exec.wp at hwp
  rw [hs] at hwp
  obtain ⟨q', S', h', hstep⟩ := hwp
  rw [h'.system_eq]
  exact ⟨h'.showing, hstep⟩

/-- Where the kernel faults. -/
theorem kernelStep_fault (h : Showing cfg s) (hlawful : Lawful cfg s e) :
    (∃ f, kernelStep cfg e s = .fault f) ↔ ∀ st S', ¬ Step cfg (systemOf s.m) e st S' := by
  constructor
  · intro hf
    obtain ⟨f, hf⟩ := hf
    obtain ⟨q, hq⟩ := h
    have hwp := kernelStep_step hq (admitted_of_lawful hq.showing hlawful)
    unfold Exec.wp at hwp
    rw [hf] at hwp
    exact hwp
  · intro hno
    cases hk : kernelStep cfg e s with
    | ret a s' =>
      obtain ⟨q, hq⟩ := h
      have hwp := kernelStep_step hq (admitted_of_lawful hq.showing hlawful)
      unfold Exec.wp at hwp
      rw [hk] at hwp
      exact hwp.elim
    | exit st s' => exact absurd (kernelStep_system h hlawful hk).2 (hno st _)
    | fault f => exact ⟨f, rfl⟩

variable {ok' : System T → Entry T → Prop}

/-- The kernel is an implementation of the abstract one. -/
theorem kernel_abstraction (ok' : System T → Entry T → Prop) (hlawful : ∀ {s e}, ok s e → Lawful cfg s e)
    (hok : ∀ {s e}, Showing cfg s → ok s e → ok' (systemOf s.m) e) :
    Lts.Abstraction (kernel cfg ok) (abstractKernel cfg ok') (Showing cfg) fun s => systemOf s.m where
  init hb := by
    obtain ⟨st, hb⟩ := hb
    obtain ⟨s, q, hb', h⟩ := boot_shows cfg
    rw [hb'] at hb
    cases hb
    exact ⟨h.showing, h.system_eq⟩
  step h hs := by
    obtain ⟨h', hstep⟩ := kernelStep_system h (hlawful hs.1) hs.2
    exact ⟨h', hok h hs.1, hstep⟩

theorem run_showing (hlawful : ∀ {s e}, ok s e → Lawful cfg s e) (h : Run cfg ok s) : Showing cfg s := by
  obtain ⟨tr, htr⟩ := reach_iff.mpr h
  exact ((kernel_abstraction (fun _ _ => True) hlawful fun _ _ => trivial).trace htr).1

/-- What holds of the systems that the abstract kernel reaches holds of every run of the code. -/
theorem run_system (hlawful : ∀ {s e}, ok s e → Lawful cfg s e)
    (hok : ∀ {s e}, Showing cfg s → ok s e → ok' (systemOf s.m) e) (h : Run cfg ok s) :
    (abstractKernel cfg ok').Reach (systemOf s.m) :=
  (kernel_abstraction ok' hlawful hok).reach (reach_iff.mpr h)

end Bikaya.Kernel

namespace Bikaya.Results
open Bikaya.Model Bikaya.Spec Bikaya.Kernel

variable {T : Target}

/-- Every lawful run of the kernel, seen as the entries and the states that are loaded, is a run of the abstract kernel;
at an entry the kernel faults if and only if the abstract kernel has no step, and it does not where machines and devices
keep their promises. -/
theorem kernel_refines (cfg : Cfg T) {tr : List (Entry T × CpuState T)} {s : KState T}
    (h : (kernel cfg (Lawful cfg)).Trace tr s) :
    (abstractKernel cfg (Admitted cfg)).Trace tr (systemOf s.m) ∧
    ∀ e, Lawful cfg s e →
      (∀ st s', kernelStep cfg e s = .exit st s' → Step cfg (systemOf s.m) e st (systemOf s'.m)) ∧
      ((∃ f, kernelStep cfg e s = .fault f) ↔ ∀ st S', ¬ Step cfg (systemOf s.m) e st S') ∧
      (ValidEntry cfg s e → ∃ st s', kernelStep cfg e s = .exit st s') := by
  have habs := kernel_abstraction (Admitted cfg) id fun hs hok => admitted_of_lawful hs hok
  obtain ⟨hshow, htr⟩ := habs.trace h
  obtain ⟨q, hb⟩ := run_between id (reach_iff.mp ⟨tr, h⟩)
  exact ⟨htr, fun e he => ⟨fun st s' hk => (kernelStep_system hshow he hk).2, kernelStep_fault hshow he,
    fun hv => step_valid hb.sound hb.slice he hv⟩⟩

/-- Up to `childRuns` a process was created, and the first one preempted. -/
theorem kernel_refines_childRuns : ∃ tr, (kernel demo (Lawful demo)).Trace tr childRuns ∧
    (abstractKernel demo (Admitted demo)).Trace tr (systemOf childRuns.m) := by
  obtain ⟨tr, htr⟩ := reach_iff.mpr (run_mono And.right run_childRuns)
  exact ⟨tr, htr, (kernel_refines demo htr).1⟩

end Bikaya.Results
