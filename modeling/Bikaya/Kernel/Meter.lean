import Bikaya.Kernel.ClockRun
import Bikaya.Spec.Charges

/-!
# The meter

`Metered cfg s` : `switch_tick` is the last reading accounting made, the times of the PCBs are what the history says
was charged, the intervals charged are one after the other, and their sum is no more than the time that has passed.
With a clock that never goes back every act of the clock keeps it (`metered_act`), and so it holds in all runs.
-/

namespace Bikaya.Kernel
open Bikaya.Lib Bikaya.Model Bikaya.Spec Bikaya.Refine

variable {T : Target} {cfg : Cfg T}

/-! ## 32-bit differences -/

/-- The difference of two readings modulo 2^32. -/
theorem elapsed_toNat {a b : Nat} (hab : a ≤ b) :
    (BitVec.ofNat 32 b - BitVec.ofNat 32 a).toNat = (b - a) % 2 ^ 32 := by
  rw [BitVec.toNat_sub, BitVec.toNat_ofNat, BitVec.toNat_ofNat]
  omega

/-! ## Readings of the history -/

/-- The observation is neither one of accounting nor that a process is created. -/
def Unmetered : Obs T → Prop
  | .charge _ _ _ _ => False
  | .tick _ => False
  | .create _ _ => False
  | _ => True

theorem Untimed.unmetered {o : Obs T} (h : Untimed o) : Unmetered o := by
  cases o <;> trivial

section
variable {n : Obs T × Machine T} (hn : Unmetered n.1) (h : History T)
include hn

theorem lastTick_other : lastTick (n :: h) = lastTick h := by
  obtain ⟨o, m⟩ := n
  cases o <;> first | rfl | exact hn.elim

theorem firstTick_other : firstTick (n :: h) = firstTick h := by
  obtain ⟨o, m⟩ := n
  cases o <;> first | rfl | exact hn.elim

theorem lastRead_other : lastRead (n :: h) = lastRead h := by
  obtain ⟨o, m⟩ := n
  cases o <;> first | rfl | exact hn.elim

theorem charges_other : charges (n :: h) = charges h := by
  obtain ⟨o, m⟩ := n
  cases o <;> first | rfl | exact hn.elim

theorem chargedTo_other (p : Pid) (kernel : Bool) : chargedTo p kernel (n :: h) = chargedTo p kernel h := by
  obtain ⟨o, m⟩ := n
  cases o <;> first | rfl | exact hn.elim

end

theorem total_charge (p : Pid) (kernel : Bool) (j : Nat) (amount : Word) (m : Machine T) (h : History T) :
    total ((.charge p kernel j amount, m) :: h) = amount.toNat + total h := by
  unfold total
  rw [charges, List.map_cons, List.sum_cons]

theorem total_other {n : Obs T × Machine T} (hn : Unmetered n.1) (h : History T) : total (n :: h) = total h := by
  unfold total
  rw [charges_other hn]

/-! ## The invariant -/

structure Metered (cfg : Cfg T) (s : KState T) : Prop where
  tick : ∀ i, lastTick s.hist = some i → i < s.m.reads ∧ s.m.switchTick = BitVec.ofNat 32 (cfg.clock i)
  user : ∀ p, (s.m.pool.pcbs p).userTm = chargedTo p false s.hist
  kernel : ∀ p, (s.m.pool.pcbs p).kernelTm = chargedTo p true s.hist
  /-- No charged interval goes beyond the last tick. -/
  ordered : ∀ c ∈ charges s.hist, ∃ i, lastTick s.hist = some i ∧ c.stop < i
  disjoint : (charges s.hist).Pairwise fun later earlier => earlier.stop < later.start
  sum : ∀ i, lastTick s.hist = some i → ∃ f, firstTick s.hist = some f ∧ f ≤ i ∧ total s.hist + cfg.clock f ≤ cfg.clock i
  bounded : Always (fun n earlier => Bounded cfg (n :: earlier)) s.hist
  charging : Always (ChargesRunning cfg) s.hist

/-- The current process has been the current one since the last tick. -/
def Attended (s : KState T) : Prop :=
  ∀ p, s.m.currentProc = some p → (lastTick s.hist).isSome ∧ ∀ n ∈ sinceTick s.hist, n.2.currentProc = some p

/-! ## What keeps it -/

namespace Metered
variable {s s' : KState T} (h : Metered cfg s)
include h

theorem boundedNow : Bounded cfg s.hist := by
  have hb := h.bounded
  revert hb
  cases s.hist with
  | nil => exact fun _ => .inl rfl
  | cons n earlier => exact fun hb => hb.1

theorem same (hs : SameRecords s s') : Metered cfg s' := by
  have htm : ∀ p, (s'.m.pool.pcbs p).userTm = (s.m.pool.pcbs p).userTm ∧
      (s'.m.pool.pcbs p).kernelTm = (s.m.pool.pcbs p).kernelTm := fun p =>
    ⟨congrArg Record.user (hs.record p), congrArg Record.kernel (hs.record p)⟩
  refine ⟨?_, fun p => ?_, fun p => ?_, ?_, ?_, ?_, ?_, ?_⟩
  · rw [hs.hist, hs.reads, hs.switchTick]
    exact h.tick
  · rw [hs.hist, (htm p).1]
    exact h.user p
  · rw [hs.hist, (htm p).2]
    exact h.kernel p
  all_goals rw [hs.hist]
  exacts [h.ordered, h.disjoint, h.sum, h.bounded, h.charging]

theorem push {o : Obs T} (ho : Unmetered o) : Metered cfg (s.push o) := by
  have hn : Unmetered ((o, s.m) : Obs T × Machine T).1 := ho
  have hb : Bounded cfg ((o, s.m) :: s.hist) := by
    unfold Bounded
    rw [total_other hn, firstTick_other hn, lastRead_other hn]
    exact h.boundedNow
  refine ⟨?_, fun p => ?_, fun p => ?_, ?_, ?_, ?_, ⟨hb, h.bounded⟩, ⟨?_, h.charging⟩⟩
  · show ∀ i, lastTick ((o, s.m) :: s.hist) = some i → _
    rw [lastTick_other hn]
    exact h.tick
  · exact (h.user p).trans (chargedTo_other hn _ p _).symm
  · exact (h.kernel p).trans (chargedTo_other hn _ p _).symm
  · show ∀ c ∈ charges ((o, s.m) :: s.hist), ∃ i, lastTick ((o, s.m) :: s.hist) = some i ∧ c.stop < i
    rw [charges_other hn, lastTick_other hn]
    exact h.ordered
  · show (charges ((o, s.m) :: s.hist)).Pairwise _
    rw [charges_other hn]
    exact h.disjoint
  · show ∀ i, lastTick ((o, s.m) :: s.hist) = some i → ∃ f, firstTick ((o, s.m) :: s.hist) = some f ∧ _ ∧
      total ((o, s.m) :: s.hist) + _ ≤ _
    rw [lastTick_other hn, firstTick_other hn, total_other hn]
    exact h.sum
  · cases o <;> trivial

theorem clocked : Metered cfg s.clocked :=
  ⟨fun i hi => ⟨Nat.lt_succ_of_lt (h.tick i hi).1, (h.tick i hi).2⟩, h.user, h.kernel, h.ordered, h.disjoint, h.sum,
    h.bounded, h.charging⟩

theorem setCurrent (p : Option Pid) : Metered cfg (s.setCurrent p) :=
  ⟨h.tick, h.user, h.kernel, h.ordered, h.disjoint, h.sum, h.bounded, h.charging⟩

/-- A PCB is changed, but not the times charged to it. -/
theorem setPcb (p : Pid) {f : Pcb T → Pcb T} (huser : ∀ x, (f x).userTm = x.userTm)
    (hkernel : ∀ x, (f x).kernelTm = x.kernelTm) : Metered cfg (s.setPcb p f) := by
  refine ⟨h.tick, fun r => ?_, fun r => ?_, h.ordered, h.disjoint, h.sum, h.bounded, h.charging⟩
  · rw [setPcb_field Pcb.userTm s p f huser r]
    exact h.user r
  · rw [setPcb_field Pcb.kernelTm s p f hkernel r]
    exact h.kernel r

theorem started (p : Pid) : Metered cfg (s.started cfg p) := by
  unfold KState.started
  split
  · exact h.clocked.setPcb p (fun _ => rfl) fun _ => rfl
  · exact h

theorem create {p : Pid} (st : CpuState T) (hs : SameRecords (s.setPcb p fun _ => Pcb.zero) s') :
    Metered cfg (s'.push (.create p st)) := by
  have htime : ∀ (get : Record → BitVec 64) (kernel : Bool), get (Pcb.zero : Pcb T).record = 0 →
      (∀ r, get (s.m.pool.pcbs r).record = chargedTo r kernel s.hist) → ∀ r,
      get (s'.m.pool.pcbs r).record = chargedTo r kernel ((.create p st, s'.m) :: s'.hist) := by
    intro get kernel hz hr r
    rw [hs.record r, hs.hist]
    show get (Function.update s.m.pool.pcbs p Pcb.zero r).record = if p = r then 0 else chargedTo r kernel s.hist
    by_cases hp : r = p
    · subst hp
      rw [Function.update_self, if_pos rfl, hz]
    · rw [Function.update_of_ne hp, if_neg fun he => hp he.symm]
      exact hr r
  have htick : ∀ i, lastTick s'.hist = some i → i < s'.m.reads ∧ s'.m.switchTick = BitVec.ofNat 32 (cfg.clock i) := by
    rw [hs.hist, hs.reads, hs.switchTick]
    exact h.tick
  have hold : s'.hist = s.hist := hs.hist
  have hnew : (s'.push (.create p st)).hist = (.create p st, s'.m) :: s.hist := by
    rw [← hold]
    rfl
  refine ⟨htick, htime Record.user false rfl h.user, htime Record.kernel true rfl h.kernel, ?_, ?_, ?_, ?_, ?_⟩
  all_goals rw [hnew]
  exacts [h.ordered, h.disjoint, h.sum, ⟨h.boundedNow, h.bounded⟩, ⟨trivial, h.charging⟩]

end Metered

/-! ## Accounting -/

theorem firstTick_none {h : History T} (hl : lastTick h = none) : firstTick h = none := by
  induction h with
  | nil => rfl
  | cons n h ih =>
    obtain ⟨o, m⟩ := n
    cases o <;> first | exact ih hl | cases hl

/-- What is left of the invariant between the two readings of `scheduler_account_time`. -/
structure Due (cfg : Cfg T) (s : KState T) : Prop where
  user : ∀ p, (s.m.pool.pcbs p).userTm = chargedTo p false s.hist
  kernel : ∀ p, (s.m.pool.pcbs p).kernelTm = chargedTo p true s.hist
  ordered : ∀ c ∈ charges s.hist, c.stop < s.m.reads
  disjoint : (charges s.hist).Pairwise fun later earlier => earlier.stop < later.start
  sum : (firstTick s.hist = none ∧ total s.hist = 0) ∨
    ∃ f, firstTick s.hist = some f ∧ f ≤ s.m.reads ∧ total s.hist + cfg.clock f ≤ cfg.clock s.m.reads
  bounded : Always (fun n earlier => Bounded cfg (n :: earlier)) s.hist
  charging : Always (ChargesRunning cfg) s.hist

/-- `switch_tick` is set, and everything is accounted for. -/
theorem Due.ticked {s : KState T} (h : Due cfg s) : Metered cfg (s.ticked cfg) := by
  have hsum : ∃ f, firstTick (s.ticked cfg).hist = some f ∧ f ≤ s.m.reads ∧
      total s.hist + cfg.clock f ≤ cfg.clock s.m.reads := by
    show ∃ f, (firstTick s.hist).or (some s.m.reads) = some f ∧ _
    rcases h.sum with ⟨hf, ht⟩ | ⟨f, hf, hle, hs⟩
    · exact ⟨s.m.reads, by rw [hf]; rfl, le_rfl, by omega⟩
    · exact ⟨f, by rw [hf]; rfl, hle, hs⟩
  refine ⟨fun i hi => ?_, h.user, h.kernel, fun c hc => ⟨_, rfl, h.ordered c hc⟩, h.disjoint, fun i hi => ?_,
    ⟨?_, h.bounded⟩, ⟨trivial, h.charging⟩⟩
  · obtain rfl : s.m.reads = i := Option.some.inj hi
    exact ⟨Nat.lt_succ_self _, rfl⟩
  · obtain rfl : s.m.reads = i := Option.some.inj hi
    exact hsum
  · obtain ⟨f, hf, -, hs⟩ := hsum
    exact .inr ⟨f, _, hf, rfl, hs⟩

theorem attended_ticked (s : KState T) : Attended (s.ticked cfg) := by
  refine fun p hp => ⟨rfl, fun n hn => ?_⟩
  obtain rfl : n = _ := List.mem_singleton.mp hn
  exact hp

section
variable {s : KState T} (hclock : Monotone cfg.clock) (h : Metered cfg s)
include hclock h

theorem Metered.due : Due cfg s := by
  have hlast : ∀ c ∈ charges s.hist, c.stop < s.m.reads := by
    intro c hc
    obtain ⟨i, hi, hci⟩ := h.ordered c hc
    exact hci.trans (h.tick i hi).1
  refine ⟨h.user, h.kernel, hlast, h.disjoint, ?_, h.bounded, h.charging⟩
  cases hl : lastTick s.hist with
  | none =>
    have hnone : charges s.hist = [] := by
      apply List.eq_nil_iff_forall_not_mem.mpr
      intro c hc
      obtain ⟨i, hi, -⟩ := h.ordered c hc
      rw [hl] at hi
      cases hi
    refine .inl ⟨firstTick_none hl, ?_⟩
    unfold total
    rw [hnone]
    rfl
  | some i =>
    obtain ⟨f, hf, hfi, hs⟩ := h.sum i hl
    have hi := (h.tick i hl).1
    exact .inr ⟨f, hf, by omega, hs.trans (hclock hi.le)⟩

omit hclock in
/-- The times after a charge. -/
theorem Metered.charged_times (p : Pid) (kernel : Bool) (r : Pid) :
    ((s.charged cfg kernel p).m.pool.pcbs r).userTm = chargedTo r false (s.charged cfg kernel p).hist ∧
    ((s.charged cfg kernel p).m.pool.pcbs r).kernelTm = chargedTo r true (s.charged cfg kernel p).hist := by
  have huser := h.user r
  have hkernel := h.kernel r
  let d := s.tod cfg - s.m.switchTick
  show (Function.update s.m.pool.pcbs p _ r).userTm =
      (if p = r ∧ kernel = false then chargedTo r false s.hist + d.zeroExtend 64 else chargedTo r false s.hist) ∧
    (Function.update s.m.pool.pcbs p _ r).kernelTm =
      (if p = r ∧ kernel = true then chargedTo r true s.hist + d.zeroExtend 64 else chargedTo r true s.hist)
  by_cases hr : r = p
  · subst hr
    rw [Function.update_self, ← huser, ← hkernel]
    cases kernel <;> simp [d, KState.clocked]
  · rw [Function.update_of_ne hr, if_neg fun he => hr he.1.symm, if_neg fun he => hr he.1.symm]
    exact ⟨huser, hkernel⟩

/-- The current process is charged the time since the last tick. -/
theorem Metered.charged (hat : Attended s) {p : Pid} (hp : s.m.currentProc = some p) (kernel : Bool) :
    Due cfg (s.charged cfg kernel p) := by
  obtain ⟨hsome, hsince⟩ := hat p hp
  obtain ⟨i, hl⟩ := Option.isSome_iff_exists.mp hsome
  obtain ⟨hi, hswitch⟩ := h.tick i hl
  obtain ⟨f, hf, hfi, hs⟩ := h.sum i hl
  have hle : cfg.clock i ≤ cfg.clock s.m.reads := hclock hi.le
  have hamount : (s.tod cfg - s.m.switchTick).toNat = (cfg.clock s.m.reads - cfg.clock i) % 2 ^ 32 := by
    rw [hswitch]
    exact elapsed_toNat hle
  have hbound : total (s.charged cfg kernel p).hist + cfg.clock f ≤ cfg.clock s.m.reads := by
    have hmod := Nat.mod_le (cfg.clock s.m.reads - cfg.clock i) (2 ^ 32)
    show total ((.charge p kernel s.m.reads (s.tod cfg - s.m.switchTick), _) :: s.hist) + _ ≤ _
    rw [total_charge, hamount]
    omega
  have hnext : cfg.clock s.m.reads ≤ cfg.clock (s.m.reads + 1) := hclock (Nat.le_succ _)
  refine ⟨fun r => (h.charged_times p kernel r).1, fun r => (h.charged_times p kernel r).2, fun c hc => ?_,
    List.Pairwise.cons (fun c hc => ?_) h.disjoint, .inr ⟨f, hf, ?_, hbound.trans hnext⟩,
    ⟨.inr ⟨f, _, hf, rfl, hbound⟩, h.bounded⟩, ⟨⟨i, hl, hi, hamount, hp, hsince⟩, h.charging⟩⟩
  · rcases List.mem_cons.mp hc with rfl | hc
    · exact Nat.lt_succ_self _
    · obtain ⟨k, hk, hck⟩ := h.ordered c hc
      exact (hck.trans (h.tick k hk).1).trans (Nat.lt_succ_self _)
  · obtain ⟨k, hk, hck⟩ := h.ordered c hc
    show c.stop < (lastTick s.hist).getD 0
    rw [hk]
    exact hck
  · show f ≤ s.m.reads + 1
    omega

theorem Metered.accounted (hat : Attended s) (kernel : Bool) : Metered cfg (s.accounted cfg kernel) := by
  unfold KState.accounted
  cases hp : s.m.currentProc with
  | none => exact (h.due hclock).ticked
  | some p => exact (h.charged hclock hat hp kernel).ticked

end

theorem attended_accounted (s : KState T) (kernel : Bool) : Attended (s.accounted cfg kernel) := by
  unfold KState.accounted
  cases s.m.currentProc <;> exact attended_ticked _

/-! ## The acts -/

theorem Attended.push {s : KState T} (h : Attended s) {o : Obs T} (ho : ¬ ∃ j, o = .tick j) : Attended (s.push o) := by
  intro p hp
  obtain ⟨hl, hs⟩ := h p hp
  have hsince : sinceTick ((o, s.m) :: s.hist) = (o, s.m) :: sinceTick s.hist := by
    cases o <;> first | rfl | exact absurd ⟨_, rfl⟩ ho
  have hlast : lastTick ((o, s.m) :: s.hist) = lastTick s.hist := by
    cases o <;> first | rfl | exact absurd ⟨_, rfl⟩ ho
  refine ⟨?_, fun n hn => ?_⟩
  · show (lastTick ((o, s.m) :: s.hist)).isSome
    rw [hlast]
    exact hl
  · have hn : n ∈ (o, s.m) :: sinceTick s.hist := hsince ▸ hn
    rcases List.mem_cons.mp hn with rfl | hn
    · exact hp
    · exact hs n hn

theorem Attended.same {s s' : KState T} (h : Attended s) (hs : SameRecords s s') : Attended s' := by
  unfold Attended
  rw [hs.hist, hs.currentProc]
  exact h

theorem metered_act (hclock : Monotone cfg.clock) {ok : Deed → Prop} {s s' : KState T} (ha : TimeAct cfg ok s s')
    (h : Metered cfg s ∧ Attended s) : Metered cfg s' ∧ Attended s' := by
  obtain ⟨h, hat⟩ := h
  cases ha with
  | frame hs => exact ⟨h.same hs, hat.same hs⟩
  | note o ho _ => exact ⟨h.push ho.unmetered, hat.push fun ⟨j, hj⟩ => by subst hj; exact ho⟩
  | account kernel _ => exact ⟨h.accounted hclock hat kernel, attended_accounted s kernel⟩
  | read => exact ⟨h.clocked, hat⟩
  | quit => exact ⟨h.setCurrent none, fun p hp => by cases hp⟩
  | enter e _ => exact ⟨h.push trivial, hat.push fun ⟨j, hj⟩ => by cases hj⟩
  | register p new old _ => exact ⟨h.setPcb p (fun _ => rfl) fun _ => rfl, hat⟩
  | @run s₁ s₂ p st h₁ h₂ =>
    have hrun : Metered cfg s₁ := (h.push (o := .run) trivial).same h₁
    have hmet := (((hrun.setCurrent (some p)).started p).due hclock).ticked
    have hatt : Attended s₂ := (attended_ticked _).same h₂
    exact ⟨(hmet.same h₂).push (o := .dispatch p st) trivial, hatt.push fun ⟨j, hj⟩ => by cases hj⟩
  | @create s₁ p st h₁ =>
    refine ⟨h.create st h₁, ?_⟩
    have hatt : Attended s₁ := Attended.same (s := s.setPcb p fun _ => Pcb.zero) hat h₁
    exact hatt.push fun ⟨j, hj⟩ => by cases hj

/-- The meter at the beginning. -/
theorem metered_static : Metered cfg ⟨Machine.static cfg, []⟩ ∧ Attended (⟨Machine.static cfg, []⟩ : KState T) := by
  refine ⟨⟨fun i hi => ?_, fun _ => rfl, fun _ => rfl, fun c hc => ?_, List.Pairwise.nil, fun i hi => ?_, trivial,
    trivial⟩, fun p hp => ?_⟩
  · cases hi
  · cases hc
  · cases hi
  · cases hp

/-- The meter in every run. -/
theorem run_metered (hclock : Monotone cfg.clock) {ok : KState T → Entry T → Prop}
    (hbounds : ∀ {s e}, ok s e → InBounds cfg e) {s : KState T} (h : Run cfg ok s) : Metered cfg s ∧ Attended s := by
  let I (s : KState T) : Prop := Metered cfg s ∧ Attended s
  have hI : I s := run_times hbounds metered_static (metered_act hclock) h
  exact hI

end Bikaya.Kernel
