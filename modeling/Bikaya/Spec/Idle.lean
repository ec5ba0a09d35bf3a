import Bikaya.Spec.Steps

/-!
# Idling

The kernel idles only when nobody is ready (`Step.idles`). If then nobody waits for a device either, nothing but an
interrupt enters it and no interrupt wakes anybody: the system is stuck, and stays so (`Stuck.step`).
-/

namespace Bikaya.Spec
open Bikaya.Lib Bikaya.Model

variable {T : Target} {cfg : Cfg T} {S S' : System T} {e : Entry T} {st : CpuState T}

theorem Dispatch.idles (h : Dispatch cfg S st S') (hn : S'.running = none) :
    S' = S ∧ S.ready = [] ∧ st = kernelState cfg.idleCode cfg.stst := by
  cases h with
  | idle hr => exact ⟨rfl, hr, rfl⟩
  | load _ _ => cases hn

theorem Leave.idles {ended : Bool} {c : CpuState T} (h : Leave cfg S ended c st S') (hn : S'.running = none) :
    S'.ready = [] ∧ st = kernelState cfg.idleCode cfg.stst := by
  cases h with
  | resume hp _ => exact absurd (hn.symm.trans hp) (by simp)
  | preempt _ _ hd =>
    obtain ⟨rfl, hr, hst⟩ := hd.idles hn
    exact ⟨hr, hst⟩
  | dispatch _ hd =>
    obtain ⟨rfl, hr, hst⟩ := hd.idles hn
    exact ⟨hr, hst⟩

/-- Without a running process after the entry nobody is ready, and the idle code was loaded. -/
theorem Step.idles (h : Step cfg S e st S') (hn : S'.running = none) :
    S'.ready = [] ∧ st = kernelState cfg.idleCode cfg.stst := by
  cases h with
  | call _ hl => exact hl.idles hn
  | breakpoint _ _ hl => exact hl.idles hn
  | exception _ hh =>
    cases hh with
    | passUp hp _ _ _ => exact absurd (hn.symm.trans hp) (by simp)
    | die _ _ _ hd =>
      obtain ⟨rfl, hr, hst⟩ := hd.idles hn
      exact ⟨hr, hst⟩
  | interrupt _ _ hl => exact hl.idles hn

theorem reach_idles {ok : System T → Entry T → Prop} (h : (abstractKernel cfg ok).Reach S) (hn : S.running = none) :
    S.ready = [] := by
  refine h.keeps (I := fun S => S.running = none → S.ready = []) (fun hb hn => ?_) (fun _ _ hs hn => ?_) hn
  · subst hb
    cases hn
  · exact (hs.2.idles hn).1

/-! ## Deadlock -/

/-- Nobody runs, nobody is ready and nobody waits for a device. -/
structure Stuck (cfg : Cfg T) (S : System T) : Prop where
  running : S.running = none
  ready : S.ready = []
  devices : ∀ f, Exists f → S.waiting (devKey cfg f) = []

/-- An interrupt of a stuck system only brings memory and devices up to date. -/
theorem Stuck.step (h : Stuck cfg S) (hs : Step cfg S e st S') (harea : e.area = .int) :
    S' = S.entered e ∧ st = kernelState cfg.idleCode cfg.stst := by
  have hnot : ∀ {n}, ¬ IsCall e n := fun hc => absurd (harea.symm.trans hc.1) (by simp)
  cases hs with
  | call hc _ =>
    obtain ⟨n, -, -, hn⟩ := isCall_of_call hc
    exact absurd hn hnot
  | breakpoint hsys _ _ => exact absurd (harea.symm.trans hsys) (by simp)
  | exception htrap _ => simp [trap, harea] at htrap
  | interrupt _ hc hl =>
    have hnone : completions e = [] := by
      cases hf : completions e with
      | nil => rfl
      | cons f fs =>
        rw [hf] at hc
        have hmem : f ∈ completions e := by rw [hf]; exact List.mem_cons_self
        have hwakes : Wakes e f := of_decide_eq_true (List.mem_filter.mp hmem).2
        cases hc with
        | cons hw _ =>
          have hnil : (S.entered e).waiting (devKey cfg f) = [] := h.devices f hwakes.1.exists
          exact absurd (hnil.symm.trans hw) (by simp)
    rw [hnone] at hc
    cases hc
    have hn : (S.entered e).running = none := h.running
    cases hl with
    | resume hp _ => exact absurd (hn.symm.trans hp) (by simp)
    | preempt hp _ _ => exact absurd (hn.symm.trans hp) (by simp)
    | dispatch _ hd =>
      cases hd with
      | idle _ => exact ⟨rfl, rfl⟩
      | load hr _ => exact absurd (h.ready.symm.trans hr) (by simp)

theorem Stuck.entered (h : Stuck cfg S) (e : Entry T) : Stuck cfg (S.entered e) := ⟨h.running, h.ready, h.devices⟩

end Bikaya.Spec
