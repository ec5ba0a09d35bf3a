import Bikaya.Kernel.PassUp
import Bikaya.Results.Ending

/-!
# Exceptions

An exception goes to the handler that the process registered for its type, or ends the process (`Handles`), if and
only if it is no breakpoint and, where the process has requested its type, a new area other than 0 is registered
(`handles_iff`). A breakpoint brings the kernel to `syscall_handler`, which ignores every cause but SYSCALL and goes
back to the process.
-/

namespace Bikaya.Results
open Bikaya.Lib Bikaya.Model Bikaya.Spec Bikaya.Refine Bikaya.Kernel Bikaya.Model.KM

variable {T : Target} {cfg : Cfg T}

/-- The state of `p` at the entry is copied to the old area, and `p` goes on from the new area; nothing changes but the
times of `p`. -/
def PassesUp (cfg : Cfg T) (s : KState T) (e : Entry T) (p : Pid) (new old : Word) : Prop :=
  ∃ st s', kernelStep cfg e s = .exit st s' ∧ s'.m.mem = storeState e.mem old (adjusted e) ∧
    st = stateAt s'.m.mem new ∧ (∃ h, s'.hist = (.passUp p st, s'.m) :: h) ∧
    SameButTime { s.m with oldAreas := s'.m.oldAreas, oldState := s'.m.oldState, mem := s'.m.mem, hw := e.hw } s'.m

/-- An exception of `p` is passed up to the areas it registered for the type, or is fatal. -/
structure Handles (cfg : Cfg T) (s : KState T) (e : Entry T) (p : Pid) (type : Fin 3) : Prop where
  passUp : requested p type s.hist = true →
    PassesUp cfg s e p (registered p type s.hist).1 (registered p type s.hist).2
  fatal : requested p type s.hist = false → Terminates cfg s e p

/-- An exception of the SYS/BK type that is no SYSCALL. -/
def Breakpoint (e : Entry T) : Prop := e.area = .sysbk ∧ T.causeExc (e.st T.cause) ≠ T.causeSyscall

instance (e : Entry T) : Decidable (Breakpoint e) := by
  unfold Breakpoint
  infer_instance

/-- The kernel goes back to the process that ran into a breakpoint. -/
theorem breakpoint_resumes (cfg : Cfg T) {s : KState T} {e : Entry T} {p : Pid} (hp : s.m.currentProc = some p)
    (hb : Breakpoint e) :
    ∃ s', kernelStep cfg e s = .exit e.st s' ∧ ∃ h, s'.hist = (.resume e.st, s'.m) :: h := by
  obtain ⟨harea, hcause⟩ := hb
  let s₁ := (s.entered e).accounted cfg false
  let s₂ : KState T := { s₁ with m := { s₁.m with oldState := some .sysbk } }
  have hsame := (accounted_timed cfg (s.entered e) false).same
  have hfilled : s₂.m.oldAreas .sysbk = e.st := by
    show s₁.m.oldAreas .sysbk = _
    rw [hsame.oldAreas]
    show Function.update s.m.oldAreas e.area e.st .sysbk = _
    rw [harea, Function.update_self]
  have hp₂ : s₂.m.currentProc = some p := hsame.currentProc.trans hp
  have hskip : Exec.guarded (decide (T.causeExc (s₂.m.oldAreas .sysbk T.cause) = T.causeSyscall)) (systemCall cfg) s₂ =
      .ret () s₂ := by
    rw [hfilled, decide_eq_false hcause]
    rfl
  refine ⟨s₂.resumed cfg .sysbk, ?_, ⟨(s₂.accounted cfg true).hist, ?_⟩⟩
  · have henter : enter e s = .ret () (s.entered e) := rfl
    unfold kernelStep
    rw [bind_ret henter, harea]
    show syscallHandler cfg (s.entered e) = _
    unfold syscallHandler
    rw [bind_ret (schedulerAccountTime_ret cfg false _), bind_ret (rfl : KM.upd _ s₁ = .ret () s₂),
      bind_ret (machine_ret s₂), bind_ret hskip, schedulerResume_exit hp₂, hfilled]
  · rw [← hfilled]
    rfl

/-- Every other exception goes to `scheduler_handle_exception` with its type and the area that holds its state. -/
theorem kernelStep_exception (cfg : Cfg T) (s : KState T) {e : Entry T} {type : Fin 3} (hr : Raises e type)
    (hb : ¬ Breakpoint e) : ∃ t a,
      (∀ {st s'}, schedulerHandleException cfg type a t = .exit st s' → kernelStep cfg e s = .exit st s') ∧
      SameButTime { s.m with oldAreas := t.m.oldAreas, oldState := t.m.oldState, mem := e.mem, hw := e.hw } t.m ∧
      t.m.oldAreas a = adjusted e := by
  have hentered : SameButTime
      { s.m with
        oldAreas := (s.entered e).m.oldAreas
        oldState := (s.entered e).m.oldState
        mem := e.mem
        hw := e.hw } (s.entered e).m := .refl _
  have hfilled : (s.entered e).m.oldAreas e.area = e.st := Function.update_self _ _ _
  cases ha : e.area with
  | int =>
    unfold Raises at hr
    rw [ha] at hr
    exact hr.elim
  | tlb =>
    have hval : type.val = 1 := by
      unfold Raises at hr
      rwa [ha] at hr
    obtain rfl : type = 1 := Fin.ext hval
    refine ⟨s.entered e, .tlb, fun hk => ?_, hentered, ?_⟩
    · unfold kernelStep
      rw [bind_ret (enter_ret e s), ha]
      exact hk
    · rw [adjusted_fault (.inl ha), ← hfilled, ha]
  | pgmtrap =>
    have hval : type.val = 2 := by
      unfold Raises at hr
      rwa [ha] at hr
    obtain rfl : type = 2 := Fin.ext hval
    refine ⟨s.entered e, .pgmtrap, fun hk => ?_, hentered, ?_⟩
    · unfold kernelStep
      rw [bind_ret (enter_ret e s), ha]
      exact hk
    · rw [adjusted_fault (.inr ha), ← hfilled, ha]
  | sysbk =>
    have hcause : T.causeExc (e.st T.cause) = T.causeSyscall := not_not.mp fun hc => hb ⟨ha, hc⟩
    have hraise : type.val = 0 ∧ ¬ ∃ n, 1 ≤ n ∧ n ≤ 8 ∧ IsCall e n := by
      unfold Raises at hr
      rwa [ha] at hr
    obtain ⟨hval, hnone⟩ := hraise
    obtain rfl : type = 0 := Fin.ext hval
    have hcustom : CustomNumber e.st := fun hn => hnone ⟨_, hn.1, hn.2, ha, hcause, rfl⟩
    refine ⟨s.called cfg e, .sysbk, fun hk => ?_, called_same cfg s e, ?_⟩
    · rw [kernelStep_syscall ha hcause]
      exact bind_exit ((called_custom cfg s hcustom).trans hk)
    · rw [called_area]
      exact (adjusted_syscall ha hcause).symm

section
variable {s : KState T} {e : Entry T} {p : Pid} {type : Fin 3} (hp : s.m.currentProc = some p) (hr : Raises e type)
  (hb : ¬ Breakpoint e)
include hp hr hb

/-- With a new area the exception is passed up. -/
theorem passesUp_of_area (hnew : (s.m.pool.pcbs p).excNewAreas type ≠ 0) :
    PassesUp cfg s e p ((s.m.pool.pcbs p).excNewAreas type) ((s.m.pool.pcbs p).excOldAreas type) := by
  obtain ⟨t, a, hk, hsame, harea⟩ := kernelStep_exception cfg s hr hb
  have hpt : t.m.currentProc = some p := hsame.currentProc.trans hp
  have hnewt : (t.m.pool.pcbs p).excNewAreas type ≠ 0 := by
    rw [hsame.excNewAreas]
    exact hnew
  let t₁ := t.accounted cfg false
  have h₁ := (accounted_timed cfg t false).same
  let t₂ := t₁.setMem (storeState t₁.m.mem ((t₁.m.pool.pcbs p).excOldAreas type) (t₁.m.oldAreas a))
  have h₂ := (accounted_timed cfg t₂ true).same
  have hmem : (t₁.handed cfg p type a).m.mem = storeState e.mem ((s.m.pool.pcbs p).excOldAreas type) (adjusted e) := by
    rw [show (t₁.handed cfg p type a).m.mem = t₂.m.mem from h₂.mem]
    show storeState t₁.m.mem ((t₁.m.pool.pcbs p).excOldAreas type) (t₁.m.oldAreas a) = _
    rw [h₁.mem, hsame.mem, h₁.excOldAreas, hsame.excOldAreas, h₁.oldAreas, harea]
  have hst : (t₁.handed cfg p type a).newArea p type =
      stateAt (t₁.handed cfg p type a).m.mem ((s.m.pool.pcbs p).excNewAreas type) := by
    unfold KState.newArea
    have hn : ((t₁.handed cfg p type a).m.pool.pcbs p).excNewAreas = (t₂.m.pool.pcbs p).excNewAreas := h₂.excNewAreas p
    rw [hn]
    show stateAt _ ((t₁.m.pool.pcbs p).excNewAreas type) = _
    rw [h₁.excNewAreas, hsame.excNewAreas]
  refine ⟨_, _, hk (handleException_exit hpt hnewt a), hmem, hst, ⟨(t₁.handed cfg p type a).hist, rfl⟩, ?_⟩
  exact ⟨h₂.links.trans (h₁.links.trans hsame.links), h₂.sKey.trans (h₁.sKey.trans hsame.sKey),
    fun r => (h₂.pcbs r).trans ((h₁.pcbs r).trans (hsame.pcbs r)),
    h₂.currentProc.trans (h₁.currentProc.trans hsame.currentProc),
    h₂.idleProcState.trans (h₁.idleProcState.trans hsame.idleProcState), rfl, rfl, rfl,
    h₂.hw.trans (h₁.hw.trans hsame.hw)⟩

/-- Without one it is fatal. -/
theorem terminates_of_none {q : Queues} (hs : Sound s.m.pool q [p]) (hnew : (s.m.pool.pcbs p).excNewAreas type = 0) :
    Terminates cfg s e p := by
  obtain ⟨t, a, hk, hsame, -⟩ := kernelStep_exception cfg s hr hb
  let t₁ := t.accounted cfg false
  have h₁ := (accounted_timed cfg t false).same
  have hp₁ : t₁.m.currentProc = some p := h₁.currentProc.trans (hsame.currentProc.trans hp)
  have hnone : ¬ (t₁.m.pool.pcbs p).excNewAreas type ≠ 0 := by
    rw [h₁.excNewAreas, hsame.excNewAreas]
    exact fun h => h hnew
  have hsame₁ :
      SameButTime { s.m with oldAreas := t₁.m.oldAreas, oldState := t₁.m.oldState, mem := e.mem, hw := e.hw } t₁.m :=
    ⟨h₁.links.trans hsame.links, h₁.sKey.trans hsame.sKey, fun r => (h₁.pcbs r).trans (hsame.pcbs r),
      h₁.currentProc.trans hsame.currentProc, h₁.idleProcState.trans hsame.idleProcState, rfl, rfl,
      h₁.mem.trans hsame.mem, h₁.hw.trans hsame.hw⟩
  have hs₁ : Sound t₁.m.pool q [p] := h₁.sound (hsame.sound (m := { s.m with
    oldAreas := t.m.oldAreas, oldState := t.m.oldState, mem := e.mem, hw := e.hw }) hs)
  refine Terminates.of_kill (Pure.pure ()) none hs₁ hp₁ hsame₁ (fun t => ⟨t.m.oldAreas, rfl⟩) fun hx => hk ?_
  unfold schedulerHandleException
  rw [bind_ret (schedulerAccountTime_ret cfg false t), bind_ret (current_ret hp₁), bind_ret (machine_ret t₁), if_neg hnone]
  exact hx

end

/-- What is fatal is not passed up. -/
theorem Terminates.not_passesUp {s : KState T} {e : Entry T} {p : Pid} (h : Terminates cfg s e p) (new old : Word) :
    ¬ PassesUp cfg s e p new old := by
  obtain ⟨st, s', hk, hswitch⟩ := h.switched
  intro hup
  obtain ⟨st₁, s₁, hk₁, -, -, ⟨rest, hhist⟩, -⟩ := hup
  rw [hk] at hk₁
  cases hk₁
  rcases hswitch.last hhist with ⟨_, h⟩ | ⟨_, _, h⟩ <;> cases h

/-- A breakpoint is not handled. -/
theorem breakpoint_not_handles {s : KState T} {e : Entry T} {p : Pid} (hp : s.m.currentProc = some p)
    (hb : Breakpoint e) (type : Fin 3) : ¬ Handles cfg s e p type := by
  obtain ⟨s', hk, rest, hhist⟩ := breakpoint_resumes cfg hp hb
  intro h
  cases hreq : requested p type s.hist with
  | true =>
    obtain ⟨st₁, s₁, hk₁, -, -, ⟨rest₁, hhist₁⟩, -⟩ := h.passUp hreq
    rw [hk] at hk₁
    cases hk₁
    exact absurd (congrArg Prod.fst (List.cons.inj (hhist.symm.trans hhist₁)).1) (by simp)
  | false =>
    obtain ⟨st₁, s₁, hk₁, hswitch⟩ := (h.fatal hreq).switched
    rw [hk] at hk₁
    cases hk₁
    rcases hswitch.last hhist with ⟨_, h⟩ | ⟨_, _, h⟩ <;> cases h

/-- An exception is handled if and only if it is no breakpoint and, if the process has requested its type, a new area
other than 0 is registered. -/
theorem handles_iff {s : KState T} {e : Entry T} {p : Pid} {type : Fin 3} (h : Run cfg (Lawful cfg) s)
    (hp : s.m.currentProc = some p) (hr : Raises e type) :
    Handles cfg s e p type ↔
      ¬ Breakpoint e ∧ (requested p type s.hist = true → (registered p type s.hist).1 ≠ 0) := by
  have hrec := run_recorded (fun hok => hok.toInBounds) h p type
  have hnew : (s.m.pool.pcbs p).excNewAreas type = (registered p type s.hist).1 := congrArg Prod.fst hrec
  have hold : (s.m.pool.pcbs p).excOldAreas type = (registered p type s.hist).2 := congrArg Prod.snd hrec
  obtain ⟨q, hbetween⟩ := run_between id h
  have hs := hbetween.sound
  rw [hp] at hs
  constructor
  · intro hh
    have hb : ¬ Breakpoint e := fun hb => breakpoint_not_handles hp hb type hh
    refine ⟨hb, fun hreq hzero => ?_⟩
    exact (terminates_of_none hp hr hb hs (hnew.trans hzero)).not_passesUp _ _ (hh.passUp hreq)
  · intro hcond
    obtain ⟨hb, hcond⟩ := hcond
    constructor
    · intro hreq
      rw [← hnew, ← hold]
      exact passesUp_of_area hp hr hb (by rw [hnew]; exact hcond hreq)
    · intro hreq
      have hzero : (registered p type s.hist).1 = 0 := by rw [registered_none hreq]
      exact terminates_of_none hp hr hb hs (hnew.trans hzero)

/-- System call 9 of the process that has registered a handler for SYS/BK exceptions. -/
theorem handles_sysbkRegistered : Handles demo sysbkRegistered (syscall sysbkRegistered 9 0 0 0) 19 0 ↔
    ¬ Breakpoint (syscall sysbkRegistered 9 0 0 0) ∧
      (requested 19 0 sysbkRegistered.hist = true → (registered 19 0 sysbkRegistered.hist).1 ≠ 0) := by
  have hraise : Raises (syscall sysbkRegistered 9 0 0 0) 0 := by
    refine ⟨rfl, fun h => ?_⟩
    obtain ⟨n, -, hle, -, -, hn⟩ := h
    have hnine : 9 = n := hn
    omega
  exact handles_iff run_sysbkRegistered (by decide +kernel) hraise

/-! ## A breakpoint -/

/-- The first process, which has registered no handler, runs into a breakpoint. -/
def brokenIn : Entry .umps :=
  ⟨.sysbk, fun i => if i = Target.umps.cause then 0x24 else 0, (booted demo).m.mem, (booted demo).m.hw⟩

/-- The breakpoint is neither passed up nor fatal. -/
theorem handles_fails : ¬ ∀ (s : KState .umps) (e : Entry .umps) (p : Pid) (type : Fin 3),
    Run demo (Lawful demo) s → s.m.currentProc = some p → Raises e type → Handles demo s e p type := by
  intro h
  have hb : Breakpoint brokenIn := ⟨rfl, by decide⟩
  have hp : (booted demo).m.currentProc = some 19 := by decide +kernel
  have hraise : Raises brokenIn 0 := ⟨rfl, fun hcall => by
    obtain ⟨n, -, -, -, hcause, -⟩ := hcall
    exact hb.2 hcause⟩
  exact breakpoint_not_handles hp hb 0 (h (booted demo) brokenIn 19 0 (run_booted demo _) hp hraise)

end Bikaya.Results
