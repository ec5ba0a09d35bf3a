import Bikaya.Kernel.ClockRun
import Bikaya.Kernel.CpuTime
import Bikaya.Kernel.Replay
import Bikaya.Spec.Charges

/-!
# The start time

`start_tm` is the first reading other than 0 of those with which the process was dispatched (`startValue`), in every
run in which the kernel stays within its tables. So it is the first reading, recorded once, unless that is 0 and a
later one is not (`start_once_iff`).
-/

namespace Bikaya.Results
open Bikaya.Lib Bikaya.Model Bikaya.Spec Bikaya.Kernel

variable {T : Target} {cfg : Cfg T}

/-- The reading with which `p` was first dispatched is its start time, and GETCPUTIME returns the time since then. -/
structure StartsOnce (cfg : Cfg T) (s : KState T) (p : Pid) (i : Nat) : Prop where
  startTm : (s.m.pool.pcbs p).startTm = (todLow cfg i).zeroExtend 64
  wallClock : ∀ (e : Entry T) (st : CpuState T) (s' : KState T), s.m.currentProc = some p → IsCall e 1 →
    kernelStep cfg e s = .exit st s' → ∃ user kernel,
      s'.m.mem = Function.update (Function.update (Function.update e.mem (e.st T.sysArg3)
        (todLow cfg (s.m.reads + 2) - todLow cfg i)) (e.st T.sysArg1) user) (e.st T.sysArg2) kernel

/-! ## The first reading other than 0 -/

/-- What `scheduler_run` leaves in `start_tm` after dispatches with these readings, the last first. -/
def startValue (cfg : Cfg T) : List Nat → Word
  | [] => 0
  | i :: earlier => if startValue cfg earlier = 0 then todLow cfg i else startValue cfg earlier

theorem startValue_first {i : Nat} (hi : todLow cfg i ≠ 0) (l : List Nat) : startValue cfg (l ++ [i]) = todLow cfg i := by
  induction l with
  | nil => rfl
  | cons j l ih =>
    show (if startValue cfg (l ++ [i]) = 0 then _ else startValue cfg (l ++ [i])) = _
    rw [ih, if_neg hi]

theorem startValue_zero {l : List Nat} : startValue cfg l = 0 ↔ ∀ j ∈ l, todLow cfg j = 0 := by
  induction l with
  | nil => exact ⟨fun _ j hj => absurd hj List.not_mem_nil, fun _ => rfl⟩
  | cons j l ih =>
    rw [List.forall_mem_cons, ← ih]
    show (if startValue cfg l = 0 then todLow cfg j else startValue cfg l) = 0 ↔ _
    by_cases h : startValue cfg l = 0
    · rw [if_pos h]
      exact ⟨fun hj => ⟨hj, h⟩, fun hj => hj.1⟩
    · rw [if_neg h]
      exact ⟨fun hl => absurd hl h, fun hj => hj.2⟩

/-- The start time is the first reading. -/
theorem startValue_iff {i : Nat} {l : List Nat} (hl : l.getLast? = some i) :
    startValue cfg l = todLow cfg i ↔ todLow cfg i ≠ 0 ∨ ∀ j ∈ l, todLow cfg j = 0 := by
  obtain ⟨l, rfl⟩ := List.getLast?_eq_some_iff.mp hl
  by_cases hi : todLow cfg i = 0
  · rw [hi, startValue_zero]
    exact ⟨.inr, fun h => h.resolve_left fun hne => hne rfl⟩
  · exact ⟨fun _ => .inl hi, fun _ => startValue_first hi l⟩

/-! ## Every run -/

/-- The start times are what the dispatches left. -/
def Started (cfg : Cfg T) (s : KState T) : Prop :=
  ∀ p, (s.m.pool.pcbs p).startTm = (startValue cfg (dispatchReads p s.hist)).zeroExtend 64

theorem zeroExtend_eq_zero {w : Word} : w.zeroExtend 64 = 0 ↔ w = 0 := by
  constructor
  · intro h
    have := congrArg (fun x : BitVec 64 => x.truncate 32) h
    simpa using this
  · intro h
    subst h
    rfl

namespace Started
variable {s s' : KState T} (h : Started cfg s)
include h

/-- What has nothing to do with dispatches. -/
theorem same (hs : SameRecords s s') : Started cfg s' := by
  intro p
  rw [hs.hist]
  exact (congrArg Record.start (hs.record p)).trans (h p)

theorem note {o : Obs T} (ho : Untimed o) : Started cfg (s.push o) := by
  intro p
  have hreads : dispatchReads p ((o, s.m) :: s.hist) = dispatchReads p s.hist := by
    cases o <;> first | rfl | exact ho.elim
  show _ = (startValue cfg (dispatchReads p ((o, s.m) :: s.hist))).zeroExtend 64
  rw [hreads]
  exact h p

theorem account (kernel : Bool) : Started cfg (s.accounted cfg kernel) := by
  unfold KState.accounted
  cases s.m.currentProc with
  | none => exact h
  | some p =>
    intro r
    refine Eq.trans ?_ (h r)
    show (Function.update s.m.pool.pcbs p _ r).startTm = _
    by_cases hr : r = p
    · subst hr
      rw [Function.update_self]
      cases kernel <;> rfl
    · rw [Function.update_of_ne hr]

/-- A new PCB has never been dispatched. -/
theorem create {p : Pid} (st : CpuState T) (hs : SameRecords (s.setPcb p fun _ => Pcb.zero) s') :
    Started cfg (s'.push (.create p st)) := by
  intro r
  have hold : s'.hist = s.hist := hs.hist
  refine (congrArg Record.start (hs.record r)).trans ?_
  show (Function.update s.m.pool.pcbs p Pcb.zero r).startTm =
    (startValue cfg (if p = r then [] else dispatchReads r s'.hist)).zeroExtend 64
  rw [hold]
  by_cases hr : r = p
  · subst hr
    rw [Function.update_self, if_pos rfl]
    rfl
  · rw [Function.update_of_ne hr, if_neg fun he => hr he.symm]
    exact h r

/-- A dispatch adds its reading. -/
theorem run {s₁ s₂ : KState T} {p : Pid} (st : CpuState T) (h₁ : SameRecords (s.push .run) s₁)
    (h₂ : SameRecords (((s₁.setCurrent (some p)).started cfg p).ticked cfg) s₂) :
    Started cfg (s₂.push (.dispatch p st)) := by
  intro r
  let t := (s₁.setCurrent (some p)).started cfg p
  have hhist : s₂.hist = (.tick t.m.reads, (t.ticked cfg).m) :: (.run, s.m) :: s.hist := by
    have hrun : s₁.hist = (.run, s.m) :: s.hist := h₁.hist
    refine h₂.hist.trans ?_
    exact congrArg (fun h => (Obs.tick t.m.reads, (t.ticked cfg).m) :: h) ((started_hist _ p).trans hrun)
  have hreads : s₁.m.reads = s.m.reads := h₁.reads
  have hold : (s₁.m.pool.pcbs r).startTm = (startValue cfg (dispatchReads r s.hist)).zeroExtend 64 :=
    (congrArg Record.start (h₁.record r)).trans (h r)
  have hnew : (t.m.pool.pcbs r).startTm =
      if p = r ∧ (s₁.m.pool.pcbs r).startTm = 0 then (todLow cfg s.m.reads).zeroExtend 64
      else (s₁.m.pool.pcbs r).startTm := by
    show (((s₁.setCurrent (some p)).started cfg p).m.pool.pcbs r).startTm = _
    unfold KState.started
    split
    next hz =>
      show (Function.update s₁.m.pool.pcbs p _ r).startTm = _
      by_cases hr : p = r
      · subst hr
        rw [Function.update_self, if_pos ⟨rfl, hz⟩, ← hreads]
        rfl
      · rw [Function.update_of_ne fun he => hr he.symm, if_neg fun hc => hr hc.1]
    next hz =>
      refine (if_neg fun hc => hz ?_).symm
      obtain ⟨rfl, hz⟩ := hc
      exact hz
  refine ((congrArg Record.start (h₂.record r)).trans hnew).trans ?_
  show _ = (startValue cfg
    (if p = r then runRead s₂.hist :: dispatchReads r s₂.hist else dispatchReads r s₂.hist)).zeroExtend 64
  rw [hhist, hold]
  show _ = (startValue cfg
    (if p = r then s.m.reads :: dispatchReads r s.hist else dispatchReads r s.hist)).zeroExtend 64
  by_cases hr : p = r
  · rw [if_pos hr]
    show _ = BitVec.zeroExtend 64 (if startValue cfg (dispatchReads r s.hist) = 0 then todLow cfg s.m.reads else _)
    by_cases hz : startValue cfg (dispatchReads r s.hist) = 0
    · rw [if_pos ⟨hr, zeroExtend_eq_zero.mpr hz⟩, if_pos hz]
    · rw [if_neg fun h => hz (zeroExtend_eq_zero.mp h.2), if_neg hz]
  · rw [if_neg hr, if_neg fun h => hr h.1]

end Started

theorem started_act {ok : Deed → Prop} {s s' : KState T} (ha : TimeAct cfg ok s s') (h : Started cfg s) :
    Started cfg s' := by
  cases ha with
  | frame hs => exact h.same hs
  | note o ho _ => exact h.note ho
  | account kernel _ => exact h.account kernel
  | read => exact h
  | quit => exact h
  | enter => exact h
  | register p new old _ =>
    intro r
    rw [setPcb_field Pcb.startTm s p (fun x => { x with excNewAreas := new, excOldAreas := old }) (fun _ => rfl) r]
    exact h r
  | run p st h₁ h₂ => exact h.run st h₁ h₂
  | create p st h₁ => exact h.create st h₁

theorem run_started {s : KState T} (h : Run cfg (fun _ => InBounds cfg) s) : Started cfg s :=
  run_times (I := Started cfg) id (fun _ => rfl) started_act h

/-- The wall clock of GETCPUTIME. -/
theorem wallTime_eq {s : KState T} {p : Pid} {w : Word} (hw : (s.m.pool.pcbs p).startTm = w.zeroExtend 64) :
    s.wallTime cfg p = todLow cfg (s.m.reads + 2) - w := by
  unfold KState.wallTime
  rw [hw]
  show BitVec.truncate 32 (BitVec.zeroExtend 64 (todLow cfg (s.m.reads + 2)) - w.zeroExtend 64) = _
  generalize todLow cfg (s.m.reads + 2) = v
  bv_omega

/-- A process that has been dispatched starts once if and only if the first reading is not 0, or all are. -/
theorem start_once_iff {s : KState T} (h : Run cfg (fun _ => InBounds cfg) s) {p : Pid} {i : Nat}
    (hi : firstDispatch p s.hist = some i) :
    StartsOnce cfg s p i ↔ todLow cfg i ≠ 0 ∨ ∀ j ∈ dispatchReads p s.hist, todLow cfg j = 0 := by
  have hst : (s.m.pool.pcbs p).startTm = (startValue cfg (dispatchReads p s.hist)).zeroExtend 64 := run_started h p
  rw [← startValue_iff hi]
  constructor
  · intro hs
    have hz := hst.symm.trans hs.startTm
    have := congrArg (fun x : BitVec 64 => x.truncate 32) hz
    simpa using this
  · intro hv
    rw [hv] at hst
    refine ⟨hst, fun e st s' hp hcall hk => ?_⟩
    obtain ⟨st', s'', hk', hmem⟩ := getCpuTime_stores cfg hp hcall
    rw [hk] at hk'
    cases hk'
    rw [wallTime_eq hst] at hmem
    exact ⟨_, _, hmem⟩

/-- The child of the first process, which runs. -/
theorem start_once_childRuns : StartsOnce demo childRuns 18 10 ↔
    todLow demo 10 ≠ 0 ∨ ∀ j ∈ dispatchReads 18 childRuns.hist, todLow demo j = 0 :=
  start_once_iff (run_mono (fun hok => hok.2.toInBounds) run_childRuns) (by decide +kernel)

/-! ## A clock at 0 -/

/-- The TOD clock reads 0 when the first process is dispatched. -/
def zeroClock : Cfg .umps := { demo with clock := fun n => 100 * n }

/-- Its time slice has ended, and it has been dispatched again. -/
def redispatched : KState .umps := after zeroClock (booted zeroClock) (timer (booted zeroClock))

/-- The start time of the first process is not the reading with which it was first dispatched. -/
theorem start_once_fails : ¬ ∀ (cfg : Cfg .umps) (s : KState .umps) (p : Pid) (i : Nat), Run cfg (fun _ _ => True) s →
    firstDispatch p s.hist = some i → StartsOnce cfg s p i := by
  intro h
  have hrun : Run zeroClock (fun _ _ => True) redispatched := run_after (run_booted zeroClock _) trivial (by decide +kernel)
  have hstart := (h zeroClock redispatched 19 0 hrun (by decide +kernel)).startTm
  exact absurd hstart (by decide +kernel)

end Bikaya.Results
