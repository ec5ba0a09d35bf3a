import Bikaya.Kernel.Direct
import Bikaya.Kernel.Replay
import Bikaya.Spec.Charges

/-!
# User time and kernel time

An entry charges the interrupted process user time up to the first TOD reading of the entry, and everything after
that as kernel time (`ByMode`), if the kernel stays within its tables, unless it is a SYSCALL whose number is none of
1 to 8 (`by_mode_iff`): `syscall_handler` then goes through `scheduler_handle_exception`, which charges user time once
more.
-/

namespace Bikaya.Results
open Bikaya.Lib Bikaya.Model Bikaya.Spec Bikaya.Refine Bikaya.Kernel Bikaya.Model.KM

variable {T : Target} {cfg : Cfg T}

/-- User time is charged. -/
def isUserCharge : Obs T → Bool
  | .charge _ kernel _ _ => !kernel
  | _ => false

/-- The PCB comes to life. -/
def creates (p : Pid) : Obs T → Bool
  | .create r _ => decide (r = p)
  | _ => false

/-- On the entry `e` the process `p` was charged user time from `switch_tick` to the first reading of the TOD, and
after that there was no more user time for anybody. -/
def ByMode (cfg : Cfg T) (e : Entry T) (p : Pid) (s s' : KState T) : Prop :=
  let amount := s.tod cfg - s.m.switchTick
  ∃ new m m₀, s'.hist = new ++ (.charge p false s.m.reads amount, m) :: (.entry e, m₀) :: s.hist ∧
    (∀ n ∈ new, isUserCharge n.1 = false) ∧
    ((∀ n ∈ new, creates p n.1 = false) →
      (s'.m.pool.pcbs p).userTm = (s.m.pool.pcbs p).userTm + amount.zeroExtend 64)

/-! ## Without user time -/

def KernelOnly : Deed → Prop
  | .account kernel => kernel = true
  | .register => True
  | .enter => True
  | .semaphore => True

/-- A stretch of the kernel in which no user time is charged. -/
def NoUser (s s' : KState T) : Prop :=
  ∃ new, s'.hist = new ++ s.hist ∧ (∀ n ∈ new, isUserCharge n.1 = false) ∧
    ∀ p, (∀ n ∈ new, creates p n.1 = false) → (s'.m.pool.pcbs p).userTm = (s.m.pool.pcbs p).userTm

namespace NoUser
variable {s s₁ s₂ : KState T}

theorem of_pcbs (hhist : s₁.hist = s.hist) (h : ∀ p, (s₁.m.pool.pcbs p).userTm = (s.m.pool.pcbs p).userTm) : NoUser s s₁ :=
  ⟨[], hhist, fun _ hn => absurd hn List.not_mem_nil, fun p _ => h p⟩

theorem same (h : SameRecords s s₁) : NoUser s s₁ := of_pcbs h.hist fun p => congrArg Record.user (h.record p)

theorem push {o : Obs T} (ho : isUserCharge o = false) : NoUser s (s.push o) := by
  refine ⟨[(o, s.m)], rfl, fun n hn => ?_, fun _ _ => rfl⟩
  obtain rfl : n = _ := List.mem_singleton.mp hn
  exact ho

theorem trans (h : NoUser s s₁) (h' : NoUser s₁ s₂) : NoUser s s₂ := by
  obtain ⟨new, hnew, huser, hsame⟩ := h
  obtain ⟨new', hnew', huser', hsame'⟩ := h'
  refine ⟨new' ++ new, by rw [hnew', hnew, List.append_assoc], fun n hn => ?_, fun p hp => ?_⟩
  · rcases List.mem_append.mp hn with hn | hn
    · exact huser' n hn
    · exact huser n hn
  · refine (hsame' p fun n hn => ?_).trans (hsame p fun n hn => ?_)
    · exact hp n (List.mem_append_left _ hn)
    · exact hp n (List.mem_append_right _ hn)

/-- A PCB changed, but not its user time. -/
theorem setPcb (p : Pid) {f : Pcb T → Pcb T} (hf : ∀ x, (f x).userTm = x.userTm) : NoUser s (s.setPcb p f) :=
  of_pcbs rfl fun r => setPcb_field Pcb.userTm s p f hf r

theorem ticked (s : KState T) : NoUser s (s.ticked cfg) :=
  (of_pcbs rfl fun _ => rfl : NoUser s { s with m := { s.m with reads := s.m.reads + 1, switchTick := s.tod cfg } }).trans
    (push rfl)

theorem accounted (s : KState T) : NoUser s (s.accounted cfg true) := by
  unfold KState.accounted
  cases s.m.currentProc with
  | none => exact ticked s
  | some p =>
    have hclock : NoUser s s.clocked := of_pcbs rfl fun _ => rfl
    let d := (s.tod cfg - s.m.switchTick).zeroExtend 64
    have hadd : NoUser s.clocked (s.clocked.setPcb p fun x => { x with kernelTm := x.kernelTm + d }) :=
      setPcb p fun _ => rfl
    have hcharge : NoUser s.clocked (s.charged cfg true p) := hadd.trans (push rfl)
    exact (hclock.trans hcharge).trans (ticked _)

theorem started (s : KState T) (p : Pid) : NoUser s (s.started cfg p) := by
  unfold KState.started
  split
  · have hclock : NoUser s s.clocked := of_pcbs rfl fun _ => rfl
    exact hclock.trans (setPcb p fun _ => rfl)
  · exact of_pcbs rfl fun _ => rfl

/-- A fresh PCB has no user time, but it is created. -/
theorem create {p : Pid} (st : CpuState T) (h : SameRecords (s.setPcb p fun _ => Pcb.zero) s₁) :
    NoUser s (s₁.push (.create p st)) := by
  have hold : s₁.hist = s.hist := h.hist
  refine ⟨[(.create p st, s₁.m)], by rw [← hold]; rfl, fun n hn => ?_, fun r hr => ?_⟩
  · obtain rfl : n = _ := List.mem_singleton.mp hn
    rfl
  · have hne : p ≠ r := of_decide_eq_false (hr _ List.mem_cons_self)
    refine (congrArg Record.user (h.record r)).trans ?_
    show (Function.update s.m.pool.pcbs p Pcb.zero r).userTm = _
    rw [Function.update_of_ne fun he => hne he.symm]

/-- What the acts do when only kernel time may be charged. -/
theorem act (h : TimeAct cfg KernelOnly s s₁) : NoUser s s₁ := by
  cases h with
  | frame hs => exact same hs
  | note o ho _ => exact push (by cases o <;> first | rfl | exact ho.elim)
  | account kernel hk =>
    obtain rfl : kernel = true := hk
    exact accounted s
  | read => exact of_pcbs rfl fun _ => rfl
  | quit => exact of_pcbs rfl fun _ => rfl
  | enter e _ => exact push rfl
  | register p new old _ => exact setPcb p fun _ => rfl
  | @run t t' p st h₁ h₂ =>
    have hrun : NoUser s t := (push rfl).trans (same h₁)
    have hcur : NoUser t (t.setCurrent (some p)) := of_pcbs rfl fun _ => rfl
    have htick : NoUser t t' := ((hcur.trans (started _ p)).trans (ticked _)).trans (same h₂)
    exact (hrun.trans htick).trans (push rfl)
  | create p st h₁ => exact create st h₁

theorem acts (h : TimeActs cfg KernelOnly s s₁) : NoUser s s₁ :=
  h.keeps (I := NoUser s) (fun ha hs => hs.trans (act ha)) (of_pcbs rfl fun _ => rfl)

end NoUser

/-! ## The first reading -/

/-- The user time that an entry charges first. -/
theorem entered_byMode {e : Entry T} {p : Pid} {s s' : KState T} (hp : s.m.currentProc = some p)
    (h : NoUser ((s.entered e).accounted cfg false) s') : ByMode cfg e p s s' := by
  have hcur : (s.entered e).m.currentProc = some p := hp
  have hacc : (s.entered e).accounted cfg false = ((s.entered e).charged cfg false p).ticked cfg := by
    unfold KState.accounted
    rw [hcur]
  rw [hacc] at h
  obtain ⟨new, hnew, huser, hsame⟩ := h
  let s₁ := (s.entered e).charged cfg false p
  refine ⟨new ++ [(.tick (s.m.reads + 1), (s₁.ticked cfg).m)], s₁.m, (s.entered e).m, ?_, fun n hn => ?_, fun hc => ?_⟩
  · rw [hnew, List.append_assoc]
    rfl
  · rcases List.mem_append.mp hn with hn | hn
    · exact huser n hn
    · obtain rfl : n = _ := List.mem_singleton.mp hn
      rfl
  · refine (hsame p fun n hn => hc n (List.mem_append_left _ hn)).trans ?_
    show (Function.update s.m.pool.pcbs p _ p).userTm = _
    rw [Function.update_self]
    rfl

/-! ## Custom system calls -/

/-- After such an entry user time has been charged twice. -/
theorem custom_not_byMode {e : Entry T} {p : Pid} {s s' : KState T} {st : CpuState T} (hp : s.m.currentProc = some p)
    (hk : kernelStep cfg e s = .exit st s') (hc : CustomCall e) : ¬ ByMode cfg e p s s' := by
  obtain ⟨harea, hcause, hnum⟩ := hc
  let s₁ := s.called cfg e
  have hopens : Opens cfg false (fun _ => True) (schedulerHandleException cfg 0 .sysbk) :=
    Traced.handleException trivial 0 .sysbk
  have hresume : Traced cfg (fun _ => True) (schedulerResume cfg false (some .sysbk)) := Traced.schedulerResume trivial _ _
  have hcharge : ∀ s', TimeActs cfg (fun _ => True) (s₁.accounted cfg false) s' →
      ∃ j amount m, (.charge p false j amount, m) :: ((s.entered e).accounted cfg false).hist <:+ s'.hist := by
    intro s' h
    have hacc : s₁.accounted cfg false = (s₁.charged cfg false p).ticked cfg := by
      unfold KState.accounted
      rw [show s₁.m.currentProc = some p from (called_same cfg s e).currentProc.trans hp]
    rw [hacc] at h
    exact ⟨_, _, (s₁.charged cfg false p).m, (List.suffix_cons _ _).trans h.grows⟩
  have hwp : Exec.wp (kernelStep cfg e) (fun _ _ => True)
      (fun _ s' => ∃ j amount m, (.charge p false j amount, m) :: ((s.entered e).accounted cfg false).hist <:+ s'.hist)
      (fun _ => True) s := by
    refine wp_same (kernelStep_syscall harea hcause s) ?_
    rw [Exec.wp_bind]
    refine wp_same (called_custom cfg s hnum) ?_
    refine Exec.wp_mono (hopens s₁) (fun _ s₂ h₂ => ?_) (fun _ s' h => hcharge s' h) fun _ h => h
    exact Exec.wp_mono (hresume s₂) (fun _ _ _ => trivial) (fun _ s' h => hcharge s' (h₂.trans h)) fun _ h => h
  unfold Exec.wp at hwp
  rw [hk] at hwp
  obtain ⟨j, amount, m, later, hlater⟩ := hwp
  have hacc : (s.entered e).accounted cfg false = ((s.entered e).charged cfg false p).ticked cfg := by
    unfold KState.accounted
    rw [show (s.entered e).m.currentProc = some p from hp]
  rw [hacc] at hlater
  intro hmode
  obtain ⟨new, m₁, m₀, hnew, huser, -⟩ := hmode
  let s₁ := (s.entered e).charged cfg false p
  have hsplit : (later ++ [(.charge p false j amount, m), (.tick s₁.m.reads, (s₁.ticked cfg).m)]) ++ s₁.hist = s'.hist := by
    rw [← hlater, List.append_assoc]
    rfl
  have heq := List.append_inj_left' (hsplit.trans hnew) rfl
  have hmem : ((.charge p false j amount, m) : Obs T × Machine T) ∈ new := by
    rw [← heq]
    exact List.mem_append_right _ List.mem_cons_self
  exact Bool.noConfusion (huser _ hmem)

/-- The mode of the time charged on an entry is right if and only if the entry is no custom SYSCALL. -/
theorem by_mode_iff {s s' : KState T} {e : Entry T} {p : Pid} {st : CpuState T} (hp : s.m.currentProc = some p)
    (hbounds : InBounds cfg e) (hk : kernelStep cfg e s = .exit st s') : ByMode cfg e p s s' ↔ ¬ CustomCall e := by
  constructor
  · exact fun hmode hc => custom_not_byMode hp hk hc hmode
  · intro hc
    have hok : Permits KernelOnly e := ⟨rfl, fun h => absurd h hc, fun _ => trivial, fun _ => trivial⟩
    exact entered_byMode hp (NoUser.acts (step_times hbounds hok hk))

/-- The first process creates a child. -/
theorem by_mode_forked : ByMode demo (syscall (booted demo) 2 0 1 0) 19 (booted demo) forked ↔
    ¬ CustomCall (syscall (booted demo) 2 0 1 0) := by
  have hx : exits demo (booted demo) (syscall (booted demo) 2 0 1 0) = true := by decide +kernel
  obtain ⟨st, hk⟩ := kernelStep_after hx
  exact by_mode_iff (by decide +kernel) (by decide +kernel) hk

/-! ## A custom system call passed up -/

/-- System call 9 is passed up to the process that executed it, which is charged user time twice. -/
theorem by_mode_fails : ¬ ∀ (s s' : KState .umps) (e : Entry .umps) (p : Pid) (st : CpuState .umps),
    Run demo (fun _ _ => True) s → s.m.currentProc = some p → kernelStep demo e s = .exit st s' →
    s'.m.currentProc = some p → ByMode demo e p s s' := by
  intro h
  have hrun : Run demo (fun _ _ => True) sysbkRegistered := run_after (run_booted demo _) trivial (by decide +kernel)
  have hx : exits demo sysbkRegistered (syscall sysbkRegistered 9 0 0 0) = true := by decide +kernel
  obtain ⟨st, hk⟩ := kernelStep_after hx
  have hcur : sysbkRegistered.m.currentProc = some 19 := by decide +kernel
  refine custom_not_byMode hcur hk ⟨rfl, by decide +kernel, ?_⟩ (h _ _ _ 19 st hrun hcur hk (by decide +kernel))
  show ¬ (1 ≤ 9 ∧ 9 ≤ 8)
  omega

end Bikaya.Results
