import Bikaya.Results.Exceptions
import Bikaya.System.Interrupts

/-!
# Kernel entries, on systems

`kernelStep_step` : from a state that shows `S` a kernel entry does a `Step`, and it faults where there is none.
-/

namespace Bikaya.Kernel
open Bikaya.Lib Bikaya.Model Bikaya.Spec Bikaya.Refine Bikaya.Model.KM

variable {T : Target} {cfg : Cfg T} {s s' : KState T} {q q' : Queues} {S S' : System T} {e : Entry T}
  {E : CpuState T → KState T → Prop} {F : Fault → Prop}

/-- The result of a call in the old area. -/
theorem setSysReturn_served {x : KM T Word} (h : AtSwitch cfg e s q S)
    (hx : Exec.wp x (fun r s' => Served cfg e S s.m.oldAreas ((adjusted e).setReturn r) s') E F s) :
    Exec.wp (x >>= setSysReturn) (fun _ s' => Ends cfg (Call cfg e S (s'.m.oldAreas .sysbk)) s') E F s := by
  rw [Exec.wp_bind]
  refine Exec.wp_conseq hx fun r s₁ hs₁ => ?_
  obtain ⟨hareas, q₁, S₁, h₁, hc⟩ := hs₁
  refine wp_ret (setSysReturn_ret r s₁) ?_
  have hst : (s₁.setAreas (Function.update s₁.m.oldAreas .sysbk ((s₁.m.oldAreas .sysbk).setReturn r))
      s₁.m.oldState).m.oldAreas .sysbk = (adjusted e).setReturn r := by
    rw [setSysReturn_area, hareas, h.state]
  rw [hst]
  exact Shows.ends (h₁.areas (Function.update s₁.m.oldAreas .sysbk ((s₁.m.oldAreas .sysbk).setReturn r)) s₁.m.oldState) hc

/-- The `switch` of `syscall_handler`, on the numbers 1 to 8. -/
theorem syscallSwitch_call (h : AtSwitch cfg e s q S) {n : Nat} (hn : 1 ≤ n ∧ n ≤ 8) (hcall : IsCall e n)
    (hadmitted : Admitted cfg S e) :
    Exec.wp (syscallSwitch cfg) (fun _ s' => Ends cfg (Call cfg e S (s'.m.oldAreas .sysbk)) s') E (NoCall cfg e S) s := by
  obtain ⟨h0, h1, h2, h3⟩ := sysArg_ne_pc T
  have hplain : ∀ {x : KM T Unit},
      Exec.wp x (fun _ s' => Served cfg e S s.m.oldAreas (adjusted e) s') E (NoCall cfg e S) s →
      Exec.wp x (fun _ s' => Ends cfg (Call cfg e S (s'.m.oldAreas .sysbk)) s') E (NoCall cfg e S) s := by
    intro x hx
    refine Exec.wp_conseq hx fun _ s₁ hs₁ => ?_
    rw [hs₁.1, h.state]
    exact hs₁.2
  unfold syscallSwitch
  refine wp_bind_ret (machine_ret s) ?_
  dsimp only
  rw [h.state, adjusted_syscall hcall.1 hcall.2.1, advancePc_of_ne _ h0, advancePc_of_ne _ h1, advancePc_of_ne _ h2,
    advancePc_of_ne _ h3, hcall.2.2]
  obtain ⟨hlo, hhi⟩ := hn
  have hcases : n = 1 ∨ n = 2 ∨ n = 3 ∨ n = 4 ∨ n = 5 ∨ n = 6 ∨ n = 7 ∨ n = 8 := by omega
  rcases hcases with rfl | rfl | rfl | rfl | rfl | rfl | rfl | rfl
  · exact hplain (h.getCpuTime_served hcall)
  · exact setSysReturn_served h (h.createProcess_served hcall)
  · exact setSysReturn_served h (h.terminateProcess_served hcall hadmitted)
  · exact hplain (h.verhogen_served hcall)
  · exact hplain (h.passeren_served hcall)
  · exact hplain (h.waitIo_served hcall)
  · exact setSysReturn_served h (h.specPassUp_served hcall hadmitted)
  · exact hplain (h.getPid_served hcall)

theorem interruptsHandler_completes (h : Shows cfg s q s.m.currentProc.toList S) (hint : e.area = .int)
    (hst : s.m.oldAreas .int = e.st) (hhw : S.hw = e.hw) :
    Exec.wp (interruptsHandler cfg) (fun _ _ => False)
      (fun st s' => Ends cfg (fun S' => ∃ S₁, Completes cfg S (completions e) S₁ ∧
        Leave cfg S₁ (T.intIsPending (e.st T.cause) ilTimer) (adjusted e) st S') s')
      (fun _ => ∀ S₁, ¬ Completes cfg S (completions e) S₁) s := by
  unfold interruptsHandler
  refine wp_bind_time (.schedulerAccountTime cfg false) fun _ s₁ ht => wp_bind_ret (machine_ret s₁) ?_
  have hst₁ : s₁.m.oldAreas .int = e.st := (congrFun ht.same.oldAreas .int).trans hst
  rw [hst₁]
  dsimp only
  refine wp_bind_ret (setOldArea_ret .int (rewindPc e.st) s₁) ?_
  have htimer : TimeOnly (T := T) (Exec.guarded (T.intIsPending (e.st T.cause) ilTimer) (setTimer 0xFFFFFFFF)) :=
    .guarded (.setTimer _)
  refine wp_bind_time htimer fun _ s₂ ht₂ => ?_
  have h₂ : Shows cfg s₂ q s₂.m.currentProc.toList S :=
    ((h.timed ht).areas (Function.update s₁.m.oldAreas .int (rewindPc e.st)) s₁.m.oldState).timed ht₂
  have harea : s₂.m.oldAreas .int = rewindPc e.st :=
    (congrFun ht₂.same.oldAreas .int).trans (Function.update_self OldArea.int _ s₁.m.oldAreas)
  have hlines := lines_reports h₂ (e.st T.cause)
  rw [hhw, ← completions_eq] at hlines
  simp only [← Exec.bind_bind]
  rw [Exec.wp_bind]
  simp only [Exec.bind_bind]
  refine Exec.wp_mono hlines (fun _ s₃ hs₃ => ?_) (fun _ _ h => h.elim) fun _ hf => hf
  obtain ⟨hareas, q₃, S₃, h₃, hc⟩ := hs₃
  have hcur : s₂.m.currentProc = s₃.m.currentProc := by
    rw [← h₂.running, ← completes_running hc, h₃.running]
  rw [hcur] at h₃
  have hleave := schedulerResume_leave (F := fun _ => ∀ S₁, ¬ Completes cfg S (completions e) S₁) h₃
    (T.intIsPending (e.st T.cause) ilTimer) (some .int) (a := .int) fun _ => rfl
  refine Exec.wp_mono hleave (fun _ _ hf => hf) (fun st s' hs' => ?_) fun _ hf => hf
  obtain ⟨q', S', h', hl⟩ := hs'
  rw [hareas, harea, ← adjusted_int hint] at hl
  exact h'.ends ⟨S₃, hc, hl⟩

/-- What a whole kernel entry ends in. -/
abbrev Stepped (cfg : Cfg T) (S : System T) (e : Entry T) (st : CpuState T) (s : KState T) : Prop :=
  Ends cfg (Step cfg S e st) s

/-- There is no such step. -/
abbrev NoStep (cfg : Cfg T) (S : System T) (e : Entry T) (_ : Fault) : Prop := ∀ st S', ¬ Step cfg S e st S'

/-- An exception that the hardware reports in an area of its own. -/
theorem exception_step (type : Fin 3) (h : Shows cfg s q s.m.currentProc.toList (S.entered e))
    (hst : s.m.oldAreas e.area = adjusted e)
    (htrap : trap e = some type) (hno : ∀ n, 1 ≤ n → n ≤ 8 → ¬ IsCall e n) :
    Exec.wp (schedulerHandleException cfg type e.area) (fun _ _ => False) (Stepped cfg S e) (NoStep cfg S e) s := by
  refine Exec.wp_mono (schedulerHandleException_handle h type e.area) (fun _ _ hf => hf) (fun st s' hs' => ?_)
    fun _ hn st S' hstep => ?_
  · obtain ⟨q', S', h', hh⟩ := hs'
    rw [hst] at hh
    exact h'.ends (.exception htrap hh)
  · cases hstep with
    | call hc _ =>
      obtain ⟨n, hlo, hhi, hcall⟩ := isCall_of_call hc
      exact hno n hlo hhi hcall
    | breakpoint harea hcause _ =>
      unfold trap at htrap
      rw [harea] at htrap
      simp [hcause] at htrap
    | exception _ hh =>
      cases hh with
      | passUp hr _ _ _ => exact absurd (hn.symm.trans hr) (by simp)
      | die hr _ _ _ => exact absurd (hn.symm.trans hr) (by simp)
    | interrupt harea _ _ =>
      unfold trap at htrap
      rw [harea] at htrap
      cases htrap

/-- On an exception of the SYS/BK type that is no SYSCALL the kernel just leaves. -/
theorem breakpoint_step (h : Shows cfg s q s.m.currentProc.toList (S.entered e)) (harea : e.area = .sysbk)
    (hst : s.m.oldAreas .sysbk = e.st) (hcause : T.causeExc (e.st T.cause) ≠ T.causeSyscall) :
    Exec.wp (syscallHandler cfg) (fun _ _ => False) (Stepped cfg S e) (NoStep cfg S e) s := by
  let s₁ := s.accounted cfg false
  have ht : Timed s s₁ := accounted_timed cfg s false
  have hst₁ : s₁.m.oldAreas .sysbk = e.st := (congrFun ht.same.oldAreas .sysbk).trans hst
  have hskip : Exec.guarded (decide (T.causeExc (s₁.m.oldAreas .sysbk T.cause) = T.causeSyscall)) (systemCall cfg)
      (s₁.setAreas s₁.m.oldAreas (some .sysbk)) = .ret () (s₁.setAreas s₁.m.oldAreas (some .sysbk)) := by
    rw [hst₁, decide_eq_false hcause]
    rfl
  have h₁ : Shows cfg (s₁.setAreas s₁.m.oldAreas (some .sysbk)) q s₁.m.currentProc.toList (S.entered e) :=
    (h.timed ht).areas _ _
  unfold syscallHandler
  refine wp_bind_ret (schedulerAccountTime_ret cfg false s) ?_
  refine wp_bind_ret (a := ()) (t := s₁.setAreas s₁.m.oldAreas (some .sysbk)) rfl ?_
  refine wp_bind_ret (machine_ret _) (wp_bind_ret hskip ?_)
  have hleave := schedulerResume_leave (F := NoStep cfg S e) h₁ false (some .sysbk) (a := .sysbk) fun _ => rfl
  refine Exec.wp_mono hleave (fun _ _ hf => hf) (fun st s' hs' => ?_) fun _ hf => hf
  obtain ⟨q', S', h', hl⟩ := hs'
  rw [show (s₁.setAreas s₁.m.oldAreas (some .sysbk)).m.oldAreas .sysbk = e.st from hst₁] at hl
  exact h'.ends (.breakpoint harea hcause hl)

/-- A kernel entry does a step, and faults where there is none. -/
theorem kernelStep_step (h : Shows cfg s q s.m.currentProc.toList S) (hadmitted : Admitted cfg S e) :
    Exec.wp (kernelStep cfg e) (fun _ _ => False) (Stepped cfg S e) (NoStep cfg S e) s := by
  have h₁ := h.entered e
  have hfilled : (s.entered e).m.oldAreas e.area = e.st := by
    show Function.update s.m.oldAreas e.area e.st e.area = e.st
    rw [Function.update_self]
  have henter : enter e s = .ret () (s.entered e) := rfl
  have hnot : e.area ≠ .sysbk → ∀ n, 1 ≤ n → n ≤ 8 → ¬ IsCall e n := fun hne n _ _ hcall => hne hcall.1
  cases harea : e.area with
  | int =>
    unfold kernelStep
    refine wp_bind_ret henter ?_
    rw [harea] at hfilled ⊢
    refine Exec.wp_mono (interruptsHandler_completes h₁ harea hfilled rfl) (fun _ _ hf => hf) (fun st s' hs' => ?_)
      fun _ hno st S' hstep => ?_
    · obtain ⟨q', S', h', S₁, hc, hl⟩ := hs'
      exact h'.ends (.interrupt harea hc hl)
    · cases hstep with
      | call hc _ =>
        obtain ⟨n, hlo, hhi, hcall⟩ := isCall_of_call hc
        exact hnot (by rw [harea]; simp) n hlo hhi hcall
      | breakpoint hs _ _ => exact absurd (harea.symm.trans hs) (by simp)
      | exception ht _ =>
        unfold trap at ht
        rw [harea] at ht
        cases ht
      | interrupt _ hc _ => exact hno _ hc
  | tlb =>
    have hstep := exception_step 1 h₁ (hfilled.trans (adjusted_fault (.inl harea)).symm) (by unfold trap; rw [harea])
      (hnot (by rw [harea]; simp))
    unfold kernelStep
    refine wp_bind_ret henter ?_
    rw [harea] at hstep ⊢
    exact hstep
  | pgmtrap =>
    have hstep := exception_step 2 h₁ (hfilled.trans (adjusted_fault (.inr harea)).symm) (by unfold trap; rw [harea])
      (hnot (by rw [harea]; simp))
    unfold kernelStep
    refine wp_bind_ret henter ?_
    rw [harea] at hstep ⊢
    exact hstep
  | sysbk =>
    by_cases hcause : T.causeExc (e.st T.cause) = T.causeSyscall
    · have h₂ : Shows cfg (s.called cfg e) q (s.called cfg e).m.currentProc.toList (S.entered e) :=
        (h₁.timed (accounted_timed cfg (s.entered e) false)).areas _ _
      have hst : (s.called cfg e).m.oldAreas .sysbk = adjusted e :=
        (called_area s e).trans (adjusted_syscall harea hcause).symm
      have hat : AtSwitch cfg e (s.called cfg e) q (S.entered e) := ⟨h₂, hst, rfl⟩
      by_cases hn : CustomNumber e.st
      · have htrap : trap e = some 0 := by
          unfold CustomNumber at hn
          unfold trap
          rw [harea]
          exact if_pos ⟨hcause, by omega⟩
        have hno : ∀ n, 1 ≤ n → n ≤ 8 → ¬ IsCall e n := fun n hlo hhi hcall => hn (hcall.2.2 ▸ ⟨hlo, hhi⟩)
        have hstep := exception_step _ h₂ (by rw [harea]; exact hst) htrap hno
        rw [harea] at hstep
        refine wp_same (t := s.called cfg e) (kernelStep_syscall harea hcause s) ?_
        exact wp_bind_exits (wp_same (called_custom cfg s hn) hstep)
      · obtain ⟨hlo, hhi⟩ := not_not.mp hn
        have hcall : IsCall e (e.st T.sysArg0).toNat := ⟨harea, hcause, rfl⟩
        refine wp_same (t := s.called cfg e) (kernelStep_syscall harea hcause s) ?_
        rw [Exec.wp_bind]
        have hadmitted₁ : Admitted cfg (S.entered e) e := ⟨hadmitted.toInBounds, hadmitted.spares⟩
        refine Exec.wp_mono (syscallSwitch_call hat ⟨hlo, hhi⟩ hcall hadmitted₁) (fun _ s₁ hs₁ => ?_) (fun _ _ he => he)
          fun _ hno st S' hstep => ?_
        · obtain ⟨q₁, S₁, h₃, hc⟩ := hs₁
          refine Exec.wp_mono (schedulerResume_leave (F := NoStep cfg S e) h₃ false _ fun _ => rfl) (fun _ _ hf => hf)
            (fun st s' hs' => ?_) fun _ hf => hf
          obtain ⟨q', S', h', hl⟩ := hs'
          exact h'.ends (.call hc hl)
        · cases hstep with
          | call hc _ => exact hno _ _ hc
          | breakpoint _ hb _ => exact hb hcause
          | exception ht _ =>
            unfold trap at ht
            rw [harea] at ht
            simp only [hcause, true_and] at ht
            split at ht
            next hout => omega
            next => cases ht
          | interrupt hi _ _ => exact absurd (harea.symm.trans hi) (by simp)
    · unfold kernelStep
      refine wp_bind_ret henter ?_
      rw [harea] at hfilled ⊢
      exact breakpoint_step h₁ harea hfilled hcause

end Bikaya.Kernel
