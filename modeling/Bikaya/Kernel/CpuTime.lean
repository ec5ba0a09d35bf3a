import Bikaya.Kernel.Direct

/-!
# GETCPUTIME

The three values that a GETCPUTIME of `p` stores, as functions of the state before the entry and of the clock: the
entry reads the TOD four times before the last of them is stored.
-/

namespace Bikaya.Model
open Bikaya.Lib

variable {T : Target}

namespace KState

/-- The TOD reading number `k` from now on. -/
def todAt (cfg : Cfg T) (s : KState T) (k : Nat) : Word := BitVec.ofNat 32 (cfg.clock (s.m.reads + k))

/-- `getTODLO() - current_proc->start_tm`. -/
def wallTime (cfg : Cfg T) (s : KState T) (p : Pid) : Word :=
  ((s.todAt cfg 2).zeroExtend 64 - (s.m.pool.pcbs p).startTm).truncate 32

/-- `current_proc->user_tm`, charged on entry. -/
def userTime (cfg : Cfg T) (s : KState T) (p : Pid) : Word :=
  ((s.m.pool.pcbs p).userTm + (s.todAt cfg 0 - s.m.switchTick).zeroExtend 64).truncate 32

/-- `current_proc->kernel_tm`, charged for the call itself. -/
def kernelTime (cfg : Cfg T) (s : KState T) (p : Pid) : Word :=
  ((s.m.pool.pcbs p).kernelTm + (s.todAt cfg 3 - s.todAt cfg 1).zeroExtend 64).truncate 32

end KState
end Bikaya.Model

namespace Bikaya.Kernel
open Bikaya.Lib Bikaya.Model Bikaya.Spec Bikaya.Refine Bikaya.Model.KM

variable {T : Target} {cfg : Cfg T}

theorem called_getCpuTime (s : KState T) {e : Entry T} (hnum : (e.st T.sysArg0).toNat = 1) :
    syscallSwitch cfg (s.called cfg e) =
      getCpuTime cfg (e.st T.sysArg1) (e.st T.sysArg2) (e.st T.sysArg3) (s.called cfg e) := by
  have hbranch := called_switch cfg s e
  rw [hnum] at hbranch
  exact hbranch

/-- The clock and the times of `p` at the `switch`. -/
theorem called_times (cfg : Cfg T) {s : KState T} {p : Pid} (hp : s.m.currentProc = some p) (e : Entry T) :
    (s.called cfg e).m.reads = s.m.reads + 2 ∧ (s.called cfg e).m.switchTick = s.todAt cfg 1 ∧
    (s.called cfg e).m.pool.pcbs p = { s.m.pool.pcbs p with
      userTm := (s.m.pool.pcbs p).userTm + (s.todAt cfg 0 - s.m.switchTick).zeroExtend 64 } := by
  rw [called_current hp]
  refine ⟨rfl, rfl, ?_⟩
  show Function.update s.m.pool.pcbs p _ p = _
  rw [Function.update_self]
  rfl

/-- What GETCPUTIME stores. -/
theorem getCpuTime_stores (cfg : Cfg T) {s : KState T} {e : Entry T} {p : Pid} (hp : s.m.currentProc = some p)
    (hcall : IsCall e 1) :
    ∃ st s', kernelStep cfg e s = .exit st s' ∧
      s'.m.mem = Function.update (Function.update (Function.update e.mem (e.st T.sysArg3) (s.wallTime cfg p))
        (e.st T.sysArg1) (s.userTime cfg p)) (e.st T.sysArg2) (s.kernelTime cfg p) := by
  obtain ⟨harea, hcause, hnum⟩ := hcall
  rw [kernelStep_syscall harea hcause]
  have hmem : (s.called cfg e).m.mem = e.mem := by
    rw [called_current hp]
    rfl
  have hcur : (s.called cfg e).m.currentProc = some p := by
    rw [called_current hp]
    exact hp
  obtain ⟨hreads, hswitch, hpcb⟩ := called_times cfg hp e
  let s₁ := s.called cfg e
  let s₂ := s₁.clocked.setMem (Function.update s₁.m.mem (e.st T.sysArg3) (s.wallTime cfg p))
  let s₃ := s₂.setMem (Function.update s₂.m.mem (e.st T.sysArg1) (s.userTime cfg p))
  let s₄ := s₃.accounted cfg true
  let s₅ := s₄.setMem (Function.update s₄.m.mem (e.st T.sysArg2) (s.kernelTime cfg p))
  have hwall : ((s₁.tod cfg).zeroExtend 64 - (s₁.m.pool.pcbs p).startTm).truncate 32 = s.wallTime cfg p := by
    unfold KState.tod
    rw [hreads, hpcb]
    rfl
  have huser : (s₁.m.pool.pcbs p).userTm.truncate 32 = s.userTime cfg p := by
    rw [hpcb]
    rfl
  have hkernel : (s₄.m.pool.pcbs p).kernelTm.truncate 32 = s.kernelTime cfg p := by
    have hcharge : s₄ = (s₃.charged cfg true p).ticked cfg := by
      show s₃.accounted cfg true = _
      unfold KState.accounted
      rw [show s₃.m.currentProc = some p from hcur]
    rw [hcharge]
    show ((Function.update s₁.m.pool.pcbs p _ p).kernelTm).truncate 32 = _
    rw [Function.update_self]
    show ((s₁.m.pool.pcbs p).kernelTm +
      (BitVec.ofNat 32 (cfg.clock (s₁.m.reads + 1)) - s₁.m.switchTick).zeroExtend 64).truncate 32 = _
    rw [hreads, hswitch, hpcb]
    rfl
  have hrun : syscallSwitch cfg s₁ = .ret () s₅ := by
    have hcur₁ : s₁.clocked.m.currentProc = some p := hcur
    have h₂ : store (e.st T.sysArg3) (s.wallTime cfg p) s₁.clocked = .ret () s₂ := rfl
    have h₃ : store (e.st T.sysArg1) (s.userTime cfg p) s₂ = .ret () s₃ := rfl
    rw [called_getCpuTime s hnum]
    unfold getCpuTime
    rw [bind_ret (clocked_ret cfg s₁), bind_ret (current_ret hcur₁), bind_ret (machine_ret _)]
    show (store (e.st T.sysArg3) (((s₁.tod cfg).zeroExtend 64 - (s₁.m.pool.pcbs p).startTm).truncate 32) >>= fun _ =>
      store (e.st T.sysArg1) ((s₁.m.pool.pcbs p).userTm.truncate 32) >>= _) s₁.clocked = _
    rw [hwall, huser, bind_ret h₂, bind_ret h₃, bind_ret (schedulerAccountTime_ret cfg true s₃),
      bind_ret (machine_ret s₄)]
    show store _ ((s₄.m.pool.pcbs p).kernelTm.truncate 32) s₄ = _
    rw [hkernel]
    rfl
  have hcur₅ : s₅.m.currentProc = some p := (accounted_timed cfg s₃ true).same.currentProc.trans hcur
  refine ⟨_, _, (bind_ret hrun).trans (schedulerResume_exit hcur₅ .sysbk), ?_⟩
  show (s₅.accounted cfg true).m.mem = _
  rw [(accounted_timed cfg s₅ true).same.mem]
  show Function.update s₄.m.mem _ _ = _
  rw [(accounted_timed cfg s₃ true).same.mem]
  show Function.update (Function.update (Function.update s₁.m.mem _ _) _ _) _ _ = _
  rw [hmem]

end Bikaya.Kernel
