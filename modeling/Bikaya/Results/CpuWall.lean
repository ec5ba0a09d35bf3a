import Bikaya.Kernel.Meter
import Bikaya.Results.StartTime

/-!
# CPU time and wall-clock time

GETCPUTIME reads the wall clock before it closes the kernel time of the call. The sum of the CPU times is then at
most the wall-clock time if and only if the ticks between these two readings are no more than those that were not
charged to the process since its first dispatch (`cpuTime_le_wall_iff`).
-/

namespace Bikaya.Results
open Bikaya.Lib Bikaya.Model Bikaya.Spec Bikaya.Kernel

variable {T : Target} {cfg : Cfg T}

/-! ## The life of a process -/

/-- The process is charged from its first dispatch on, one interval after the other up to the last tick. -/
structure Lived (s : KState T) (p : Pid) : Prop where
  before : firstDispatch p s.hist = none → s.m.currentProc ≠ some p ∧ chargesOf p s.hist = []
  since : ∀ i, firstDispatch p s.hist = some i → ∃ t, lastTick s.hist = some t ∧
    Chained Charge.start Charge.stop i (chargesOf p s.hist) ∧ lastStop Charge.stop i (chargesOf p s.hist) ≤ t

/-- Two histories tell the same about `p`. -/
structure SameLife (p : Pid) (h h' : History T) : Prop where
  reads : dispatchReads p h' = dispatchReads p h
  created : createdRunning p h' = createdRunning p h
  charges : chargesOf p h' = chargesOf p h

theorem SameLife.refl (p : Pid) (h : History T) : SameLife p h h := ⟨rfl, rfl, rfl⟩

theorem sameLife_note {o : Obs T} (ho : Untimed o) (p : Pid) (m : Machine T) (h : History T) :
    SameLife p h ((o, m) :: h) := by
  cases o <;> first | exact ⟨rfl, rfl, rfl⟩ | exact ho.elim

theorem Lived.same {s s' : KState T} {p : Pid} (h : Lived s p) (hl : SameLife p s.hist s'.hist)
    (hcur : s'.m.currentProc = some p → s.m.currentProc = some p)
    (htick : ∀ t, lastTick s.hist = some t → ∃ t', lastTick s'.hist = some t' ∧ t ≤ t') : Lived s' p := by
  have hfirst : firstDispatch p s'.hist = firstDispatch p s.hist := congrArg List.getLast? hl.reads
  constructor
  · intro hnone
    obtain ⟨hne, hcharges⟩ := h.before (hfirst ▸ hnone)
    exact ⟨fun hc => hne (hcur hc), hl.charges.trans hcharges⟩
  · intro i hi
    obtain ⟨t, ht, hchain, hle⟩ := h.since i (hfirst ▸ hi)
    obtain ⟨t', ht', htt⟩ := htick t ht
    rw [hl.charges]
    exact ⟨t', ht', hchain, hle.trans htt⟩

/-- The processes that were not running when they were created. -/
def Lives (s : KState T) : Prop := ∀ p, createdRunning p s.hist = false → Lived s p

namespace Lives
variable {s s' : KState T} (h : Lives s)
include h

theorem same (hl : ∀ p, SameLife p s.hist s'.hist)
    (hcur : ∀ p, s'.m.currentProc = some p → s.m.currentProc = some p)
    (htick : ∀ t, lastTick s.hist = some t → ∃ t', lastTick s'.hist = some t' ∧ t ≤ t') : Lives s' := fun p hp =>
  (h p ((hl p).created ▸ hp)).same (hl p) (hcur p) htick

theorem frame (hs : SameRecords s s') : Lives s' := by
  have hhist : s'.hist = s.hist := hs.hist
  refine h.same (fun p => ?_) (fun p hp => hs.currentProc ▸ hp) fun t ht => ⟨t, hhist ▸ ht, le_rfl⟩
  rw [hhist]
  exact .refl p _

theorem note {o : Obs T} (ho : Untimed o) : Lives (s.push o) := by
  refine h.same (fun p => sameLife_note ho p s.m s.hist) (fun p hp => hp) fun t ht => ⟨t, ?_, le_rfl⟩
  show lastTick ((o, s.m) :: s.hist) = some t
  rw [lastTick_other ho.unmetered]
  exact ht

/-- `switch_tick` set, with nobody charged. -/
theorem ticked (hm : Metered cfg s) : Lives (s.ticked cfg) :=
  h.same (fun _ => ⟨rfl, rfl, rfl⟩) (fun _ hp => hp) fun t ht => ⟨s.m.reads, rfl, (hm.tick t ht).1.le⟩

/-- The current process is charged. -/
theorem accounted (hm : Metered cfg s) (kernel : Bool) : Lives (s.accounted cfg kernel) := by
  unfold KState.accounted
  cases hcur : s.m.currentProc with
  | none => exact h.ticked hm
  | some r =>
    intro p hp
    have hlife : Lived s p := h p hp
    by_cases hr : r = p
    · subst hr
      cases hfirst : firstDispatch r s.hist with
      | none => exact absurd hcur (hlife.before hfirst).1
      | some i =>
        obtain ⟨t, ht, hchain, hle⟩ := hlife.since i hfirst
        have hlt := (hm.tick t ht).1
        have hcharges : chargesOf r ((s.charged cfg kernel r).ticked cfg).hist =
            ⟨r, kernel, t, s.m.reads, s.tod cfg - s.m.switchTick⟩ :: chargesOf r s.hist := by
          show (if r = r then (⟨r, kernel, (lastTick s.hist).getD 0, s.m.reads, s.tod cfg - s.m.switchTick⟩ : Charge) ::
            chargesOf r s.hist else chargesOf r s.hist) = _
          rw [if_pos rfl, ht]
          rfl
        constructor
        · intro hnone
          exact absurd (hfirst.symm.trans hnone) (by simp)
        · intro j hj
          obtain rfl : i = j := Option.some.inj (hfirst.symm.trans hj)
          rw [hcharges]
          exact ⟨s.m.reads + 1, rfl, ⟨hle, hlt.le, hchain⟩, Nat.le_succ _⟩
    · have hcharges : chargesOf p ((s.charged cfg kernel r).ticked cfg).hist = chargesOf p s.hist := if_neg hr
      refine hlife.same ⟨rfl, rfl, hcharges⟩ (fun hc => hc) fun t ht => ⟨s.m.reads + 1, rfl, ?_⟩
      exact ((hm.tick t ht).1.trans (Nat.lt_succ_self _)).le

/-- A process is dispatched. -/
theorem run {s₁ s₂ : KState T} {r : Pid} (hm : Metered cfg s) (st : CpuState T) (h₁ : SameRecords (s.push .run) s₁)
    (h₂ : SameRecords (((s₁.setCurrent (some r)).started cfg r).ticked cfg) s₂) : Lives (s₂.push (.dispatch r st)) := by
  let t₁ := (s₁.setCurrent (some r)).started cfg r
  have hrun : s₁.hist = (.run, s.m) :: s.hist := h₁.hist
  have hhist : s₂.hist = (.tick t₁.m.reads, (t₁.ticked cfg).m) :: (.run, s.m) :: s.hist := by
    refine h₂.hist.trans ?_
    exact congrArg (fun h => (Obs.tick t₁.m.reads, (t₁.ticked cfg).m) :: h) ((started_hist _ r).trans hrun)
  have hlast : lastTick (s₂.push (.dispatch r st)).hist = some t₁.m.reads := by
    show lastTick s₂.hist = _
    rw [hhist]
    rfl
  have hreads : s.m.reads ≤ t₁.m.reads := by
    have hold : s₁.m.reads = s.m.reads := h₁.reads
    show _ ≤ ((s₁.setCurrent (some r)).started cfg r).m.reads
    unfold KState.started
    split
    · exact hold ▸ Nat.le_succ _
    · exact hold.ge
  intro p hp
  have hp : createdRunning p s₂.hist = false := hp
  rw [hhist] at hp
  have hlife : Lived s p := h p hp
  have hnew : dispatchReads p (s₂.push (.dispatch r st)).hist =
      if r = p then s.m.reads :: dispatchReads p s.hist else dispatchReads p s.hist := by
    show (if r = p then runRead s₂.hist :: dispatchReads p s₂.hist else dispatchReads p s₂.hist) = _
    rw [hhist]
    rfl
  have hcharges : chargesOf p (s₂.push (.dispatch r st)).hist = chargesOf p s.hist := by
    show chargesOf p s₂.hist = _
    rw [hhist]
    rfl
  have hfirst : ∀ i, (dispatchReads p (s₂.push (.dispatch r st)).hist).getLast? = some i →
      firstDispatch p s.hist = some i ∨ (firstDispatch p s.hist = none ∧ r = p ∧ i = s.m.reads) := by
    intro i hi
    rw [hnew] at hi
    unfold firstDispatch
    split at hi
    next hr =>
      cases hold : dispatchReads p s.hist with
      | nil =>
        rw [hold] at hi
        exact .inr ⟨rfl, hr, (Option.some.inj hi).symm⟩
      | cons j l =>
        rw [hold] at hi
        exact .inl hi
    next => exact .inl hi
  constructor
  · intro hnone
    have hnone : (dispatchReads p (s₂.push (.dispatch r st)).hist).getLast? = none := hnone
    rw [hnew] at hnone
    split at hnone
    next => exact absurd hnone (by simp)
    next hr =>
      have hcur : s₂.m.currentProc = some r := h₂.currentProc.trans (started_current _ r)
      exact ⟨fun hc => hr (Option.some.inj (hcur.symm.trans hc)), hcharges.trans (hlife.before hnone).2⟩
  · intro i hi
    rw [hcharges]
    rcases hfirst i hi with hold | ⟨hnone, -, rfl⟩
    · obtain ⟨t, ht, hchain, hle⟩ := hlife.since i hold
      exact ⟨_, hlast, hchain, hle.trans ((hm.tick t ht).1.le.trans hreads)⟩
    · rw [(hlife.before hnone).2]
      exact ⟨_, hlast, trivial, hreads⟩

theorem create {r : Pid} (st : CpuState T) (hs : SameRecords (s.setPcb r fun _ => Pcb.zero) s') :
    Lives (s'.push (.create r st)) := by
  have hhist : s'.hist = s.hist := hs.hist
  have hcur : s'.m.currentProc = s.m.currentProc := hs.currentProc
  intro p hp
  by_cases hr : r = p
  · subst hr
    have hp : (if r = r then decide (s'.m.currentProc = some r) else createdRunning r s'.hist) = false := hp
    rw [if_pos rfl] at hp
    constructor
    · exact fun _ => ⟨of_decide_eq_false hp, if_pos rfl⟩
    · intro i hi
      have hi : (if r = r then [] else dispatchReads r s'.hist).getLast? = some i := hi
      rw [if_pos rfl] at hi
      cases hi
  · have hl : SameLife p s.hist (s'.push (.create r st)).hist := by
      rw [← hhist]
      exact ⟨if_neg hr, if_neg hr, if_neg hr⟩
    refine (h p (hl.created ▸ hp)).same hl (fun hc => hcur ▸ hc) fun t ht => ⟨t, ?_, le_rfl⟩
    show lastTick s'.hist = _
    rw [hhist]
    exact ht

end Lives

theorem lives_act {ok : Deed → Prop} {s s' : KState T} (ha : TimeAct cfg ok s s') (hm : Metered cfg s) (h : Lives s) :
    Lives s' := by
  cases ha with
  | frame hs => exact h.frame hs
  | note o ho _ => exact h.note ho
  | account kernel _ => exact h.accounted hm kernel
  | read => exact h.same (fun p => .refl p _) (fun _ hp => hp) fun t ht => ⟨t, ht, le_rfl⟩
  | quit => exact h.same (fun p => .refl p _) (fun p hp => by cases hp) fun t ht => ⟨t, ht, le_rfl⟩
  | enter => exact h.same (fun _ => ⟨rfl, rfl, rfl⟩) (fun _ hp => hp) fun t ht => ⟨t, ht, le_rfl⟩
  | register => exact h.same (fun p => .refl p _) (fun _ hp => hp) fun t ht => ⟨t, ht, le_rfl⟩
  | run p st h₁ h₂ => exact h.run hm st h₁ h₂
  | create p st h₁ => exact h.create st h₁

theorem run_lives (hclock : Monotone cfg.clock) {s : KState T} (h : Run cfg (fun _ => InBounds cfg) s) : Lives s := by
  let I (s : KState T) : Prop := (Metered cfg s ∧ Attended s) ∧ Lives s
  have hinit : I ⟨Machine.static cfg, []⟩ := by
    refine ⟨metered_static, fun p _ => ⟨fun _ => ⟨fun hc => ?_, rfl⟩, fun i hi => ?_⟩⟩
    · cases hc
    · cases hi
  have hI : I s := run_times id hinit (fun ha hs => ⟨metered_act hclock ha hs.1, lives_act ha hs.1.1 hs.2⟩) h
  exact hI.2

/-! ## What the process was charged -/

/-- Every charge is the time between its two readings. -/
theorem charges_priced {h : History T} (hc : Always (ChargesRunning cfg) h) (p : Pid) : ∀ c ∈ chargesOf p h,
    c.amount.toNat = (cfg.clock c.stop - cfg.clock c.start) % 2 ^ 32 := by
  induction h with
  | nil => exact fun c hc => absurd hc List.not_mem_nil
  | cons n h ih =>
    obtain ⟨hn, hrest⟩ := hc
    have ih := ih hrest
    obtain ⟨o, m⟩ := n
    cases o
    case charge r kernel j amount =>
      obtain ⟨i, hi, -, hamount, -⟩ := hn
      intro c hc
      have hc : c ∈ if r = p then ⟨r, kernel, (lastTick h).getD 0, j, amount⟩ :: chargesOf p h else chargesOf p h := hc
      split at hc
      · rcases List.mem_cons.mp hc with rfl | hc
        · show amount.toNat = (cfg.clock j - cfg.clock ((lastTick h).getD 0)) % 2 ^ 32
          rw [hi]
          exact hamount
        · exact ih c hc
      · exact ih c hc
    case create r st =>
      intro c hc
      have hc : c ∈ if r = p then [] else chargesOf p h := hc
      split at hc
      · exact absurd hc List.not_mem_nil
      · exact ih c hc
    all_goals exact ih

/-- The sum of the amounts charged in one mode. -/
def amounts (kernel : Bool) : List Charge → Nat
  | [] => 0
  | c :: cs => (if c.kernel = kernel then c.amount.toNat else 0) + amounts kernel cs

theorem chargedTo_toNat (p : Pid) (kernel : Bool) (h : History T) :
    (chargedTo p kernel h).toNat = amounts kernel (chargesOf p h) % 2 ^ 64 := by
  induction h with
  | nil => rfl
  | cons n h ih =>
    obtain ⟨o, m⟩ := n
    cases o
    case charge r k j amount =>
      show (if r = p ∧ k = kernel then chargedTo p kernel h + amount.zeroExtend 64 else chargedTo p kernel h).toNat =
        amounts kernel (if r = p then ⟨r, k, (lastTick h).getD 0, j, amount⟩ :: chargesOf p h else chargesOf p h) % 2 ^ 64
      have hlt := amount.isLt
      by_cases hr : r = p
      · rw [if_pos hr]
        show _ = ((if k = kernel then amount.toNat else 0) + amounts kernel (chargesOf p h)) % 2 ^ 64
        by_cases hk : k = kernel
        · rw [if_pos ⟨hr, hk⟩, if_pos hk, BitVec.toNat_add, ih, BitVec.toNat_setWidth]
          omega
        · rw [if_neg fun hc => hk hc.2, if_neg hk, ih, Nat.zero_add]
      · rw [if_neg fun hc => hr hc.1, if_neg hr, ih]
    case create r st =>
      show (if r = p then 0 else chargedTo p kernel h).toNat =
        amounts kernel (if r = p then [] else chargesOf p h) % 2 ^ 64
      split
      · rfl
      · exact ih
    all_goals exact ih

/-- Where no interval is as long as the TOD's low word, the amounts are what the intervals cover. -/
theorem amounts_covered {clock : Nat → Nat} {cs : List Charge}
    (hprice : ∀ c ∈ cs, c.amount.toNat = (clock c.stop - clock c.start) % 2 ^ 32)
    (hshort : covered Charge.start Charge.stop clock cs < 2 ^ 32) :
    amounts false cs + amounts true cs = covered Charge.start Charge.stop clock cs := by
  induction cs with
  | nil => rfl
  | cons c cs ih =>
    have hsum : covered Charge.start Charge.stop clock (c :: cs) =
        clock c.stop - clock c.start + covered Charge.start Charge.stop clock cs := rfl
    rw [hsum] at hshort ⊢
    have hrest := ih (fun d hd => hprice d (List.mem_cons_of_mem _ hd)) (by omega)
    have hc := hprice c List.mem_cons_self
    rw [Nat.mod_eq_of_lt (by omega)] at hc
    show (if c.kernel = false then c.amount.toNat else 0) + amounts false cs +
      ((if c.kernel = true then c.amount.toNat else 0) + amounts true cs) = _
    cases c.kernel <;> simp only [if_true, if_false, Bool.true_eq_false, Bool.false_eq_true] <;> omega

/-! ## GETCPUTIME -/

/-- A 64-bit time increased, where it stays below 2^32. -/
theorem addTime_toNat {x : BitVec 64} {d : Word} {n k : Nat} (hx : x.toNat = n) (hd : d.toNat = k) (hlt : n + k < 2 ^ 32) :
    ((x + d.zeroExtend 64).truncate 32).toNat = n + k := by
  rw [BitVec.truncate_eq_setWidth, BitVec.toNat_setWidth, BitVec.toNat_add, BitVec.toNat_setWidth, hx, hd]
  omega

/-- The difference of two readings less than 2^32 apart. -/
theorem elapsed_short {a b : Nat} (hab : a ≤ b) (hlt : b < a + 2 ^ 32) :
    (BitVec.ofNat 32 b - BitVec.ofNat 32 a).toNat = b - a := by
  rw [elapsed_toNat hab]
  exact Nat.mod_eq_of_lt (by omega)

/-- On a GETCPUTIME within 2^32 ticks of the first dispatch the CPU time is at most the wall-clock time if and only if
the time between the last two of its readings is no more than the time not charged to the process before them. -/
theorem cpuTime_le_wall_iff (hclock : Monotone cfg.clock) {s : KState T} (h : Run cfg (fun _ => InBounds cfg) s)
    {e : Entry T} {p : Pid} {i : Nat} (hp : s.m.currentProc = some p) (hcall : IsCall e 1)
    (hi : FirstRan p i s.hist) (hzero : todLow cfg i ≠ 0)
    (hsoon : cfg.clock (s.m.reads + 3) < cfg.clock i + 2 ^ 32) :
    (∃ st s', kernelStep cfg e s = .exit st s' ∧
      s'.m.mem = Function.update (Function.update (Function.update e.mem (e.st T.sysArg3) (s.wallTime cfg p))
        (e.st T.sysArg1) (s.userTime cfg p)) (e.st T.sysArg2) (s.kernelTime cfg p)) ∧
    ((s.userTime cfg p).toNat + (s.kernelTime cfg p).toNat ≤ (s.wallTime cfg p).toNat ↔
      cfg.clock (s.m.reads + 3) - cfg.clock (s.m.reads + 2) ≤
        uncharged cfg p i s.hist + (cfg.clock (s.m.reads + 1) - cfg.clock s.m.reads)) := by
  refine ⟨getCpuTime_stores cfg hp hcall, ?_⟩
  obtain ⟨hnew, hi⟩ := hi
  obtain ⟨hm, -⟩ := run_metered hclock id h
  obtain ⟨t, ht, hchain, hle⟩ := (run_lives hclock h p hnew).since i hi
  obtain ⟨htr, hswitch⟩ := hm.tick t ht
  have hstart : (s.m.pool.pcbs p).startTm = (todLow cfg i).zeroExtend 64 := by
    have hv : startValue cfg (dispatchReads p s.hist) = todLow cfg i := (startValue_iff hi).mpr (.inl hzero)
    rw [run_started h p, hv]
  generalize hcs : chargesOf p s.hist = cs at hchain hle
  have hsum : covered Charge.start Charge.stop cfg.clock cs + gaps Charge.start Charge.stop cfg.clock i cs + cfg.clock i =
      cfg.clock (lastStop Charge.stop i cs) := covered_gaps hclock hchain
  have hlast : cfg.clock (lastStop Charge.stop i cs) ≤ cfg.clock t := hclock hle
  have hentry : cfg.clock t ≤ cfg.clock s.m.reads := hclock htr.le
  have h1 : cfg.clock s.m.reads ≤ cfg.clock (s.m.reads + 1) := hclock (Nat.le_succ _)
  have h2 : cfg.clock (s.m.reads + 1) ≤ cfg.clock (s.m.reads + 2) := hclock (Nat.le_succ _)
  have h3 : cfg.clock (s.m.reads + 2) ≤ cfg.clock (s.m.reads + 3) := hclock (Nat.le_succ _)
  have hamounts : amounts false cs + amounts true cs = covered Charge.start Charge.stop cfg.clock cs :=
    amounts_covered (hcs ▸ charges_priced hm.charging p) (by omega)
  have hidle : uncharged cfg p i s.hist = gaps Charge.start Charge.stop cfg.clock i cs +
      (cfg.clock t - cfg.clock (lastStop Charge.stop i cs)) := by
    unfold uncharged
    rw [ht, hcs]
    rfl
  have huser : (s.userTime cfg p).toNat = amounts false cs + (cfg.clock s.m.reads - cfg.clock t) := by
    refine addTime_toNat ?_ ?_ (by omega)
    · rw [hm.user p, chargedTo_toNat, hcs]
      exact Nat.mod_eq_of_lt (by omega)
    · have hnear : cfg.clock s.m.reads < cfg.clock t + 2 ^ 32 := by omega
      rw [hswitch]
      exact elapsed_short hentry hnear
  have hkernel : (s.kernelTime cfg p).toNat =
      amounts true cs + (cfg.clock (s.m.reads + 3) - cfg.clock (s.m.reads + 1)) := by
    refine addTime_toNat ?_ (elapsed_short (h2.trans h3) (by omega)) (by omega)
    rw [hm.kernel p, chargedTo_toNat, hcs]
    exact Nat.mod_eq_of_lt (by omega)
  have hwall : (s.wallTime cfg p).toNat = cfg.clock (s.m.reads + 2) - cfg.clock i := by
    have hpast : cfg.clock i ≤ cfg.clock (s.m.reads + 2) := by omega
    have hnear : cfg.clock (s.m.reads + 2) < cfg.clock i + 2 ^ 32 := by omega
    rw [wallTime_eq hstart]
    exact elapsed_short hpast hnear
  rw [huser, hkernel, hwall, hidle]
  omega

/-- A GETCPUTIME of the child of the first process. -/
theorem cpuTime_le_wall_childRuns :
    (∃ st s', kernelStep demo (syscall childRuns 1 0x20010000 0x20010004 0x20010008) childRuns = .exit st s' ∧
      s'.m.mem = Function.update (Function.update (Function.update childRuns.m.mem 0x20010008 (childRuns.wallTime demo 18))
        0x20010000 (childRuns.userTime demo 18)) 0x20010004 (childRuns.kernelTime demo 18)) ∧
    ((childRuns.userTime demo 18).toNat + (childRuns.kernelTime demo 18).toNat ≤ (childRuns.wallTime demo 18).toNat ↔
      demo.clock (childRuns.m.reads + 3) - demo.clock (childRuns.m.reads + 2) ≤
        uncharged demo 18 10 childRuns.hist + (demo.clock (childRuns.m.reads + 1) - demo.clock childRuns.m.reads)) := by
  have h : Run demo (fun _ => InBounds demo) childRuns := run_mono (fun hok => hok.2.toInBounds) run_childRuns
  have hcall : IsCall (syscall childRuns 1 0x20010000 0x20010004 0x20010008) 1 := ⟨rfl, by decide, by decide⟩
  exact cpuTime_le_wall_iff demo_monotone h (by decide +kernel) hcall (by decide +kernel) (by decide +kernel)
    (by decide +kernel)

/-! ## A pause between two readings -/

/-- The clock jumps between the fifth reading and the sixth. -/
def jumpClock : Cfg .umps := { demo with clock := fun n => if n ≤ 4 then n + 1 else n + 1000 }

/-- The first process asks for its times at once: 1002 ticks of CPU time in 4 of wall-clock time. -/
theorem cpuTime_le_wall_fails : ¬ ∀ (cfg : Cfg .umps) (s s' : KState .umps) (p : Pid) (i : Nat) (st : CpuState .umps)
    (u k w : Word), Monotone cfg.clock → Run cfg (fun _ _ => True) s → s.m.currentProc = some p → FirstRan p i s.hist →
    todLow cfg i ≠ 0 → cfg.clock (s.m.reads + 3) < cfg.clock i + 2 ^ 32 → u ≠ k → u ≠ w → k ≠ w →
    kernelStep cfg (syscall s 1 u k w) s = .exit st s' →
    (s'.m.mem u).toNat + (s'.m.mem k).toNat ≤ (s'.m.mem w).toNat := by
  intro h
  have hmono : Monotone jumpClock.clock := by
    intro i j hij
    show (if i ≤ 4 then i + 1 else i + 1000) ≤ if j ≤ 4 then j + 1 else j + 1000
    split <;> split <;> omega
  let s := booted jumpClock
  have hx : exits jumpClock s (syscall s 1 0x20010000 0x20010004 0x20010008) = true := by decide +kernel
  obtain ⟨st, hk⟩ := kernelStep_after hx
  have hle := h jumpClock s _ 19 0 st 0x20010000 0x20010004 0x20010008 hmono (run_booted jumpClock _)
    (by decide +kernel) (by decide +kernel) (by decide) (by decide +kernel) (by decide) (by decide) (by decide) hk
  exact absurd hle (by decide +kernel)

end Bikaya.Results
