import Bikaya.Spec.Laws

/-!
# What a step does to the places

`Alike` : two systems with the same places, priorities and parents. Up to that a system call does one of four things
(`Call.effect`): it creates a process, kills one, wakes one or blocks the running one; or nothing. `Leave` moves
processes only between the ready queue and the processor (`Leave.active`), `Completes` only wakes.
-/

namespace Bikaya.Spec
open Bikaya.Lib Bikaya.Model Bikaya.Model.KM

variable {T : Target} {cfg : Cfg T} {S S' S₁ : System T} {e : Entry T} {p : Pid} {key : Key}

/-! ## Which entry it is -/

theorem trap_of_isCall {n : Nat} (h : IsCall e n) (hlo : 1 ≤ n) (hhi : n ≤ 8) : trap e = none := by
  obtain ⟨harea, hexc, hn⟩ := h
  unfold trap
  rw [harea]
  simp only [hexc, hn, true_and, ite_eq_right_iff, reduceCtorEq, imp_false]
  omega

/-- A step with a system call. -/
theorem Step.of_isCall {st : CpuState T} {n : Nat} (hs : Step cfg S e st S') (h : IsCall e n) (hlo : 1 ≤ n)
    (hhi : n ≤ 8) : ∃ c S₁, Call cfg e (S.entered e) c S₁ ∧ Leave cfg S₁ false c st S' := by
  cases hs with
  | call hc hl => exact ⟨_, _, hc, hl⟩
  | breakpoint _ hexc _ => exact absurd h.2.1 hexc
  | exception htrap _ => exact absurd (htrap.symm.trans (trap_of_isCall h hlo hhi)) (by simp)
  | interrupt harea _ _ => exact absurd (harea.symm.trans h.1) (by simp)

/-! ## Systems alike -/

/-- What of a process decides on its place in a queue and in the tree. -/
def Process.rank (x : Process T) : Int × Int × Option Pid := (x.priority, x.original, x.parent)

structure Alike (S S' : System T) : Prop where
  running : S'.running = S.running
  ready : S'.ready = S.ready
  waiting : S'.waiting = S.waiting
  process : ∀ p, (S'.process p).map Process.rank = (S.process p).map Process.rank

namespace Alike

theorem refl (S : System T) : Alike S S := ⟨rfl, rfl, rfl, fun _ => rfl⟩

theorem trans (h : Alike S S₁) (h' : Alike S₁ S') : Alike S S' :=
  ⟨h'.running.trans h.running, h'.ready.trans h.ready, h'.waiting.trans h.waiting,
    fun p => (h'.process p).trans (h.process p)⟩

/-- Of the processes only `rank` matters. -/
theorem of_process (hrunning : S'.running = S.running) (hready : S'.ready = S.ready) (hwaiting : S'.waiting = S.waiting)
    (hprocess : S'.process = S.process) : Alike S S' :=
  ⟨hrunning, hready, hwaiting, fun p => by rw [hprocess]⟩

theorem store (S : System T) (a w : Word) : Alike S (S.store a w) := of_process rfl rfl rfl rfl

theorem storeAt (S : System T) (a w : Word) : Alike S (S.storeAt a w) := by
  unfold System.storeAt
  split
  · exact store S a w
  · exact refl S

theorem command (S : System T) (a cmd : Word) : Alike S (S.command a cmd) := by
  unfold System.command
  split
  · exact of_process rfl rfl rfl rfl
  · exact store S a cmd

theorem entered (S : System T) (e : Entry T) : Alike S (S.entered e) := of_process rfl rfl rfl rfl

theorem alter (S : System T) (p : Pid) {f : Process T → Process T} (hf : ∀ x, (f x).rank = x.rank) :
    Alike S (S.alter p f) := by
  refine ⟨rfl, rfl, rfl, fun r => ?_⟩
  by_cases hr : r = p
  · subst hr
    cases hx : S.process r <;> simp [System.alter, hx, hf]
  · simp [System.alter, hr]

section
variable (h : Alike S S')
include h

theorem lives (p : Pid) : S'.process p ≠ none ↔ S.process p ≠ none := by
  have hp := h.process p
  cases hx : S.process p <;> cases hx' : S'.process p <;> simp_all

theorem prio (p : Pid) : S'.prio p = S.prio p := by
  have hp := h.process p
  unfold System.prio
  cases hx : S.process p <;> cases hx' : S'.process p <;> simp_all [Process.rank]

theorem parent (p : Pid) : S'.parent p = S.parent p := by
  have hp := h.process p
  unfold System.parent
  cases hx : S.process p <;> cases hx' : S'.process p <;> simp_all [Process.rank]

end

end Alike

/-! ## System calls -/

/-- The entry makes the caller wait for `key`: a PASSEREN that finds 0 there, or a WAITIO. -/
def Waits (cfg : Cfg T) (e : Entry T) (key : Key) : Prop :=
  IsCall e 5 ∧ key = e.st T.sysArg1 ∧ e.mem key = 0 ∨
    IsCall e 6 ∧ key = interruptsGetDevKey cfg (e.st T.sysArg2) ((e.st T.sysArg3).toNat % 256)

instance (cfg : Cfg T) (e : Entry T) (key : Key) : Decidable (Waits cfg e key) := by
  unfold Waits
  infer_instance

/-- The entry blocks `p` on `key`. -/
def Blocks (cfg : Cfg T) (S : System T) (e : Entry T) (key : Key) (p : Pid) : Prop := S.running = some p ∧ Waits cfg e key

/-- The entry sentences `p` to death, and with it what descends from it: a TERMINATEPROCESS, a registration for a
second time, or an exception that nobody handles. -/
def Sentences (cfg : Cfg T) (S : System T) (e : Entry T) (p : Pid) : Prop :=
  IsCall e 3 ∧ S.target cfg (e.st T.sysArg1) = some p ∨
  S.running = some p ∧ ∃ x type, S.process p = some x ∧
    (IsCall e 7 ∧ type.val = (e.st T.sysArg1).toNat ∧ x.newArea type ≠ 0 ∨ trap e = some type ∧ x.newArea type = 0)

/-- What a system call does, up to `Alike`. -/
theorem Call.effect {c : CpuState T} (h : Call cfg e (S.entered e) c S') :
    Alike S S' ∨
    (IsCall e 2 ∧ ∃ p parent st prio, p < maxProc ∧ S.process p = none ∧ S.running = some parent ∧
      Alike ((S.entered e).spawn p st prio (some parent)) S') ∨
    (∃ p, Sentences cfg S e p ∧ S' = (S.entered e).kill p) ∨
    (IsCall e 4 ∧ ∃ p rest, S.waiting (e.st T.sysArg1) = p :: rest ∧
      S' = ((S.entered e).setWaiting (e.st T.sysArg1) rest).wake p) ∨
    ∃ p key S₁, Blocks cfg S e key p ∧ Alike S S₁ ∧ S' = S₁.block p key (adjusted e) := by
  have hent := Alike.entered S e
  cases h with
  | getCpuTime user kernel wallclock _ _ =>
    exact Or.inl (((hent.trans (.store _ _ _)).trans (.store _ _ _)).trans (.store _ _ _))
  | createFull _ _ => exact Or.inl hent
  | create hcall hp hdead hrun =>
    exact Or.inr (Or.inl ⟨hcall, _, _, _, _, hp, hdead, hrun, .storeAt _ _ _⟩)
  | terminateDead _ _ _ => exact Or.inl hent
  | terminate hcall htarget _ => exact Or.inr (Or.inr (Or.inl ⟨_, Or.inl ⟨hcall, htarget⟩, rfl⟩))
  | handOver hcall hw => exact Or.inr (Or.inr (Or.inr (Or.inl ⟨hcall, _, _, hw, rfl⟩)))
  | raise _ _ => exact Or.inl (hent.trans (.store _ _ _))
  | pass _ _ => exact Or.inl (hent.trans (.store _ _ _))
  | wait hcall hzero hrun =>
    exact Or.inr (Or.inr (Or.inr (Or.inr ⟨_, _, _, ⟨hrun, Or.inl ⟨hcall, rfl, hzero⟩⟩, hent, rfl⟩)))
  | waitIo hcall hsub hrun =>
    refine Or.inr (Or.inr (Or.inr (Or.inr ⟨_, _, _, ⟨hrun, Or.inr ⟨hcall, ?_⟩⟩, hent.trans (.command _ _ _), rfl⟩)))
    rw [hsub]
  | register _ _ _ _ _ => exact Or.inl (hent.trans (.alter _ _ fun _ => rfl))
  | registerTwice hcall htype hrun hx hset =>
    exact Or.inr (Or.inr (Or.inl ⟨_, Or.inr ⟨hrun, _, _, hx, Or.inl ⟨hcall, htype, hset⟩⟩, rfl⟩))
  | getPid _ _ => exact Or.inl ((hent.trans (.storeAt _ _ _)).trans (.storeAt _ _ _))

/-! ## Going on -/

/-- Running or ready. -/
def Active (S : System T) (p : Pid) : Prop := S.running = some p ∨ p ∈ S.ready

theorem Alike.active (h : Alike S S') (p : Pid) : Active S' p ↔ Active S p := by
  unfold Active
  rw [h.running, h.ready]

/-- Waiting lists and parents are the same, and who lives. -/
structure Rescheduled (S S' : System T) : Prop where
  waiting : S'.waiting = S.waiting
  lives : ∀ p, S'.process p ≠ none ↔ S.process p ≠ none
  parent : ∀ p, S'.parent p = S.parent p
  mem : S'.mem = S.mem
  hw : S'.hw = S.hw

theorem Dispatch.rescheduled {st : CpuState T} (h : Dispatch cfg S st S') : Rescheduled S S' := by
  cases h <;> exact ⟨rfl, fun _ => Iff.rfl, fun _ => rfl, rfl, rfl⟩

theorem Dispatch.active {st : CpuState T} (h : Dispatch cfg S st S') (hn : S.running = none) (p : Pid) :
    Active S' p ↔ Active S p := by
  cases h with
  | idle _ => rfl
  | load hr _ => simp [Active, hr, hn, eq_comm]

theorem rescheduled_preempt (arith : PrioArith) (S : System T) (p : Pid) (st : CpuState T) :
    Rescheduled S (S.preempt arith p st) := by
  refine ⟨rfl, fun r => ?_, fun r => ?_, rfl, rfl⟩
  · unfold System.preempt System.wake System.save
    refine (process_alter_ne_none _ _ _ r).trans ((process_alter_ne_none _ _ _ r).trans ?_)
    by_cases hr : r ∈ S.ready <;> simp [System.age, hr]
  · by_cases hp : r = p <;> by_cases hr : r ∈ S.ready <;> cases hx : S.process r <;>
      simp_all [System.parent, System.preempt, System.wake, System.save, System.alter, System.age]

theorem active_preempt (arith : PrioArith) (S : System T) (hp : S.running = some p) (st : CpuState T) (r : Pid) :
    Active (S.preempt arith p st) r ↔ Active S r := by
  simp [Active, System.preempt, System.wake, System.save, System.alter, System.age, hp, eq_comm]

namespace Rescheduled

theorem trans (h : Rescheduled S S₁) (h' : Rescheduled S₁ S') : Rescheduled S S' :=
  ⟨h'.waiting.trans h.waiting, fun p => (h'.lives p).trans (h.lives p), fun p => (h'.parent p).trans (h.parent p),
    h'.mem.trans h.mem, h'.hw.trans h.hw⟩

theorem refl (S : System T) : Rescheduled S S := ⟨rfl, fun _ => Iff.rfl, fun _ => rfl, rfl, rfl⟩

end Rescheduled

section
variable {ended : Bool} {c st : CpuState T}

theorem Leave.rescheduled (h : Leave cfg S ended c st S') : Rescheduled S S' := by
  cases h with
  | resume _ _ => exact .refl S
  | preempt _ _ hd => exact (rescheduled_preempt _ S _ c).trans hd.rescheduled
  | dispatch _ hd => exact hd.rescheduled

/-- Nobody joins or leaves the processor and its queue. -/
theorem Leave.active (h : Leave cfg S ended c st S') (p : Pid) : Active S' p ↔ Active S p := by
  cases h with
  | resume _ _ => rfl
  | preempt hp _ hd => exact (hd.active rfl p).trans (active_preempt _ S hp c p)
  | dispatch hn hd => exact hd.active hn p

/-- Only the end of its time slice stops the running process. -/
theorem Leave.running (h : Leave cfg S ended c st S') (hp : S.running = some p) (hended : ended = false) :
    S'.running = some p := by
  cases h with
  | resume _ _ => exact hp
  | preempt _ he _ => exact absurd (he.symm.trans hended) (by simp)
  | dispatch hn _ => exact absurd (hp.symm.trans hn) (by simp)

end

/-! ## Waking -/

theorem active_wake (S : System T) (p r : Pid) : Active (S.wake p) r ↔ Active S r ∨ r = p := by
  simp only [Active, System.wake, System.alter, mem_insertPrio]
  tauto

theorem lives_wake (S : System T) (p r : Pid) : (S.wake p).process r ≠ none ↔ S.process r ≠ none :=
  process_alter_ne_none S p _ r

theorem parent_alter (S : System T) {f : Process T → Process T} (hf : ∀ x, (f x).parent = x.parent) (r : Pid) :
    (S.alter p f).parent r = S.parent r := by
  by_cases hr : r = p
  · subst hr
    cases hx : S.process r <;> simp [System.parent, System.alter, hx, hf]
  · simp [System.parent, System.alter, hr]

theorem prio_alter (S : System T) {f : Process T → Process T} (hf : ∀ x, (f x).priority = x.priority) (r : Pid) :
    (S.alter p f).prio r = S.prio r := by
  by_cases hr : r = p
  · subst hr
    cases hx : S.process r <;> simp [System.prio, System.alter, hx, hf]
  · simp [System.prio, System.alter, hr]

theorem active_complete (S : System T) (f : DevFn) (p : Pid) (rest : List Pid) (r : Pid) :
    Active (S.complete cfg f p rest) r ↔ Active S r ∨ r = p := active_wake (S.setWaiting (devKey cfg f) rest) p r

theorem prio_save (S : System T) (p : Pid) (st : CpuState T) : (S.save p st).prio = S.prio :=
  funext (prio_alter S (f := fun x => { x with context := st }) fun _ => rfl)

namespace Completes
variable {fs : List DevFn}

theorem running (h : Completes cfg S fs S') : S'.running = S.running := by
  induction h with
  | nil => rfl
  | cons _ _ ih => exact ih

theorem lives (h : Completes cfg S fs S') (p : Pid) : S'.process p ≠ none ↔ S.process p ≠ none := by
  induction h with
  | nil => rfl
  | cons _ _ ih => exact ih.trans ((process_alter_ne_none _ _ _ p).trans (lives_wake _ _ p))

theorem mem (h : Completes cfg S fs S') : S'.mem = S.mem := by
  induction h with
  | nil => rfl
  | cons _ _ ih => exact ih

theorem active (h : Completes cfg S fs S') (hp : Active S p) : Active S' p := by
  induction h with
  | nil => exact hp
  | cons _ _ ih => exact ih ((active_complete _ _ _ _ p).mpr (Or.inl hp))

/-- Nobody joins a waiting list, and nobody in it is overtaken. -/
theorem sublist (h : Completes cfg S fs S') (key : Key) : (S'.waiting key).Sublist (S.waiting key) := by
  induction h with
  | nil => exact List.Sublist.refl _
  | @cons S _ f _ p rest hw _ ih =>
    refine ih.trans ?_
    show (Function.update S.waiting (devKey cfg f) rest key).Sublist _
    by_cases hk : key = devKey cfg f
    · subst hk
      rw [Function.update_self, hw]
      exact List.sublist_cons_self p rest
    · rw [Function.update_of_ne hk]

/-- Who is no longer waiting was woken. -/
theorem woken (h : Completes cfg S fs S') (hp : p ∈ S.waiting key) :
    p ∈ S'.waiting key ∨ Active S' p ∧ ∃ f ∈ fs, devKey cfg f = key := by
  induction h with
  | nil => exact Or.inl hp
  | @cons S _ f fs r rest hw h ih =>
    by_cases hk : key = devKey cfg f
    · subst hk
      rw [hw] at hp
      rcases List.mem_cons.mp hp with rfl | hp
      · exact Or.inr ⟨h.active ((active_complete _ _ _ _ p).mpr (Or.inr rfl)), f, List.mem_cons_self, rfl⟩
      · have hp' : p ∈ (S.complete cfg f r rest).waiting (devKey cfg f) := by
          show p ∈ Function.update S.waiting (devKey cfg f) rest (devKey cfg f)
          rwa [Function.update_self]
        exact (ih hp').imp_right fun hr => ⟨hr.1, hr.2.imp fun _ hg => ⟨List.mem_cons_of_mem _ hg.1, hg.2⟩⟩
    · have hp' : p ∈ (S.complete cfg f r rest).waiting key := by
        show p ∈ Function.update S.waiting (devKey cfg f) rest key
        rwa [Function.update_of_ne hk]
      exact (ih hp').imp_right fun hr => ⟨hr.1, hr.2.imp fun _ hg => ⟨List.mem_cons_of_mem _ hg.1, hg.2⟩⟩

end Completes

end Bikaya.Spec
