import Bikaya.Kernel.Accounting

/-!
# The acts of the clock

`TimeAct cfg ok s s'` : one of the things the kernel does to the clock, to the times and exception areas of the PCBs
and to `current_proc`, whatever it does to the lists. As long as it stays within its tables, every program of the
kernel is a sequence of such acts from every state (`Traced`), so what they keep holds in all such runs, those included
that corrupt the lists. `ok` says in which modes `scheduler_account_time` may be called, and whether exception areas
are registered and semaphores used.
-/

namespace Bikaya.Model
open Bikaya.Lib

variable {T : Target}

/-- The times and the exception areas of a PCB. -/
structure Record where
  start : BitVec 64
  user : BitVec 64
  kernel : BitVec 64
  newAreas : Fin 3 → Word
  oldAreas : Fin 3 → Word

def Pcb.record (x : Pcb T) : Record := ⟨x.startTm, x.userTm, x.kernelTm, x.excNewAreas, x.excOldAreas⟩

namespace KState

/-- What the next reading of the TOD clock gives. -/
def tod (cfg : Cfg T) (s : KState T) : Word := BitVec.ofNat 32 (cfg.clock s.m.reads)

/-- The clock has been read once more. -/
def clocked (s : KState T) : KState T := { s with m := { s.m with reads := s.m.reads + 1 } }

/-- The time since `switch_tick` charged to `p`. -/
def charged (cfg : Cfg T) (s : KState T) (kernel : Bool) (p : Pid) : KState T :=
  let d := s.tod cfg - s.m.switchTick
  (s.clocked.setPcb p fun x =>
    if kernel then { x with kernelTm := x.kernelTm + d.zeroExtend 64 }
    else { x with userTm := x.userTm + d.zeroExtend 64 }).push (.charge p kernel s.m.reads d)

/-- `switch_tick` is set. -/
def ticked (cfg : Cfg T) (s : KState T) : KState T :=
  ({ s with m := { s.m with reads := s.m.reads + 1, switchTick := s.tod cfg } } : KState T).push (.tick s.m.reads)

/-- `scheduler_account_time`. -/
def accounted (cfg : Cfg T) (s : KState T) (kernel : Bool) : KState T :=
  match s.m.currentProc with
  | some p => (s.charged cfg kernel p).ticked cfg
  | none => s.ticked cfg

/-- `start_tm` of `p` set, if it is not. -/
def started (cfg : Cfg T) (s : KState T) (p : Pid) : KState T :=
  if (s.m.pool.pcbs p).startTm = 0 then s.clocked.setPcb p fun x => { x with startTm := (s.tod cfg).zeroExtend 64 }
  else s

end KState
end Bikaya.Model

namespace Bikaya.Kernel
open Bikaya.Lib Bikaya.Model Bikaya.Spec Bikaya.Refine Bikaya.Model.KM

variable {T : Target} {cfg : Cfg T}

/-! ## The functions -/

theorem clocked_ret (cfg : Cfg T) (s : KState T) : KM.getTODLO cfg s = .ret (s.tod cfg) s.clocked := rfl

theorem resetSwitchTick_ret (cfg : Cfg T) (s : KState T) : KM.resetSwitchTick cfg s = .ret () (s.ticked cfg) := rfl

theorem schedulerAccountTime_ret (cfg : Cfg T) (kernel : Bool) (s : KState T) :
    schedulerAccountTime cfg kernel s = .ret () (s.accounted cfg kernel) := by
  have hwhen : whenCurrent (chargeCurrent cfg kernel) s = .ret () (match s.m.currentProc with
      | some p => s.charged cfg kernel p
      | none => s) := by
    unfold whenCurrent
    rw [bind_ret (rfl : KM.machine s = .ret s.m s)]
    cases s.m.currentProc <;> rfl
  unfold schedulerAccountTime KState.accounted
  rw [bind_ret hwhen, resetSwitchTick_ret]
  cases s.m.currentProc <;> rfl

theorem markStart_ret (cfg : Cfg T) (p : Pid) (s : KState T) : markStart cfg p s = .ret () (s.started cfg p) := by
  unfold markStart KState.started
  rw [bind_ret (rfl : KM.machine s = .ret s.m s)]
  by_cases h : (s.m.pool.pcbs p).startTm = 0
  · rw [decide_eq_true h, if_pos h]
    rfl
  · rw [decide_eq_false h, if_neg h]
    rfl

/-! ## The acts -/

/-- The clock, the times and the exception areas do not change. -/
structure SameRecords (s s' : KState T) : Prop where
  record : ∀ p, (s'.m.pool.pcbs p).record = (s.m.pool.pcbs p).record
  currentProc : s'.m.currentProc = s.m.currentProc
  switchTick : s'.m.switchTick = s.m.switchTick
  reads : s'.m.reads = s.m.reads
  hist : s'.hist = s.hist

/-- The observation is not one of accounting, nor that the kernel is entered or a process created or dispatched. -/
def Untimed : Obs T → Prop
  | .charge _ _ _ _ => False
  | .tick _ => False
  | .create _ _ => False
  | .run => False
  | .dispatch _ _ => False
  | .entry _ => False
  | _ => True

/-- A semaphore is used. -/
def IsSemOp : Obs T → Prop
  | .verhogen _ _ => True
  | .passeren _ _ => True
  | _ => False

/-- What the kernel does only on some entries. -/
inductive Deed where
  | account (kernel : Bool)
  | register
  | enter
  | semaphore

inductive TimeAct (cfg : Cfg T) (ok : Deed → Prop) : KState T → KState T → Prop where
  | frame {s s' : KState T} : SameRecords s s' → TimeAct cfg ok s s'
  | note {s : KState T} (o : Obs T) : Untimed o → (IsSemOp o → ok .semaphore) → TimeAct cfg ok s (s.push o)
  | account {s : KState T} (kernel : Bool) : ok (.account kernel) → TimeAct cfg ok s (s.accounted cfg kernel)
  /-- A reading of the clock that no accounting uses. -/
  | read {s : KState T} : TimeAct cfg ok s s.clocked
  | quit {s : KState T} : TimeAct cfg ok s (s.setCurrent none)
  | enter {s : KState T} (e : Entry T) : ok .enter → TimeAct cfg ok s (s.push (.entry e))
  | register {s : KState T} (p : Pid) (new old : Fin 3 → Word) : ok .register →
      TimeAct cfg ok s (s.setPcb p fun x => { x with excNewAreas := new, excOldAreas := old })
  /-- `scheduler_run` dispatches `p`. -/
  | run {s s₁ s₂ : KState T} (p : Pid) (st : CpuState T) : SameRecords (s.push .run) s₁ →
      SameRecords (((s₁.setCurrent (some p)).started cfg p).ticked cfg) s₂ → TimeAct cfg ok s (s₂.push (.dispatch p st))
  /-- A PCB comes to life. -/
  | create {s s₁ : KState T} (p : Pid) (st : CpuState T) : SameRecords (s.setPcb p fun _ => Pcb.zero) s₁ →
      TimeAct cfg ok s (s₁.push (.create p st))

/-- Any number of acts. -/
inductive TimeActs (cfg : Cfg T) (ok : Deed → Prop) (s : KState T) : KState T → Prop where
  | refl : TimeActs cfg ok s s
  | act {s₁ s₂ : KState T} : TimeActs cfg ok s s₁ → TimeAct cfg ok s₁ s₂ → TimeActs cfg ok s s₂

theorem TimeActs.trans {ok : Deed → Prop} {s₁ s₂ s₃ : KState T} (h : TimeActs cfg ok s₁ s₂)
    (h' : TimeActs cfg ok s₂ s₃) : TimeActs cfg ok s₁ s₃ := by
  induction h' with
  | refl => exact h
  | act _ ha ih => exact ih.act ha

/-- What every act keeps, any number of acts keeps. -/
theorem TimeActs.keeps {ok : Deed → Prop} {I : KState T → Prop} {s s' : KState T} (h : TimeActs cfg ok s s')
    (hact : ∀ {s s'}, TimeAct cfg ok s s' → I s → I s') (h₀ : I s) : I s' := by
  induction h with
  | refl => exact h₀
  | act _ ha ih => exact hact ha ih

theorem started_hist (s : KState T) (p : Pid) : (s.started cfg p).hist = s.hist := by
  unfold KState.started
  split <;> rfl

theorem started_current (s : KState T) (p : Pid) : (s.started cfg p).m.currentProc = s.m.currentProc := by
  unfold KState.started
  split <;> rfl

/-- Acts only add to the history. -/
theorem TimeAct.grows {ok : Deed → Prop} {s s' : KState T} (h : TimeAct cfg ok s s') : s.hist <:+ s'.hist := by
  cases h with
  | frame hs => exact hs.hist ▸ List.suffix_refl _
  | note o _ => exact List.suffix_cons _ _
  | account kernel _ =>
    unfold KState.accounted
    cases s.m.currentProc with
    | none => exact List.suffix_cons _ _
    | some p => exact (List.suffix_cons _ _).trans (List.suffix_cons _ _)
  | read => exact List.suffix_refl _
  | quit => exact List.suffix_refl _
  | enter => exact List.suffix_cons _ _
  | register => exact List.suffix_refl _
  | @run s₁ s₂ p st h₁ h₂ =>
    have hstart : s₁.hist <:+ ((s₁.setCurrent (some p)).started cfg p).hist := by
      rw [started_hist]
      exact List.suffix_refl _
    have hold : s.hist <:+ s₁.hist := h₁.hist ▸ List.suffix_cons _ _
    have hnew : ((s₁.setCurrent (some p)).started cfg p).hist <:+ s₂.hist := h₂.hist ▸ List.suffix_cons _ _
    exact ((hold.trans hstart).trans hnew).trans (List.suffix_cons _ _)
  | @create s₁ p st h₁ =>
    have hold : s.hist <:+ s₁.hist := h₁.hist ▸ List.suffix_refl _
    exact hold.trans (List.suffix_cons _ _)

theorem TimeActs.grows {ok : Deed → Prop} {s s' : KState T} (h : TimeActs cfg ok s s') : s.hist <:+ s'.hist :=
  h.keeps (I := fun s' => s.hist <:+ s'.hist) (fun ha hs => hs.trans ha.grows) (List.suffix_refl _)

namespace SameRecords

theorem trans {s₁ s₂ s₃ : KState T} (h : SameRecords s₁ s₂) (h' : SameRecords s₂ s₃) : SameRecords s₁ s₃ :=
  ⟨fun p => (h'.record p).trans (h.record p), h'.currentProc.trans h.currentProc, h'.switchTick.trans h.switchTick,
    h'.reads.trans h.reads, h'.hist.trans h.hist⟩

theorem setPcb (s : KState T) (p : Pid) {f : Pcb T → Pcb T} (hf : ∀ x, (f x).record = x.record) :
    SameRecords s (s.setPcb p f) := by
  refine ⟨fun r => ?_, rfl, rfl, rfl, rfl⟩
  show (Function.update s.m.pool.pcbs p (f (s.m.pool.pcbs p)) r).record = _
  by_cases hr : r = p
  · subst hr
    rw [Function.update_self, hf]
  · rw [Function.update_of_ne hr]

end SameRecords

/-! ## Programs on the lists -/

/-- The program leaves the times and the exception areas of the PCBs alone. -/
def KeepsRecords {α : Type} (x : PM T α) : Prop :=
  ∀ pool, Exec.wp x (fun _ pool' => ∀ p, (pool'.pcbs p).record = (pool.pcbs p).record)
    (fun _ _ => True) (fun _ => True) pool

namespace KeepsRecords
variable {α β : Type}

theorem pure (a : α) : KeepsRecords (Pure.pure a : PM T α) := fun _ => (Exec.wp_pure a).mpr fun _ => rfl

theorem fault (f : Fault) : KeepsRecords (Exec.fault f : PM T α) := fun _ => (Exec.wp_fault f).mpr trivial

theorem read : KeepsRecords (Exec.read : PM T (Pool T)) := fun _ => (Exec.wp_read _).mpr fun _ => rfl

theorem bind {x : PM T α} {f : α → PM T β} (hx : KeepsRecords x) (hf : ∀ a, KeepsRecords (f a)) :
    KeepsRecords (x >>= f) := by
  intro pool
  rw [Exec.wp_bind]
  refine Exec.wp_conseq (hx pool) fun a pool₁ h₁ => ?_
  exact Exec.wp_conseq (hf a pool₁) fun _ pool₂ h₂ p => (h₂ p).trans (h₁ p)

theorem orFault (f : Fault) (x : Option α) : KeepsRecords (Exec.orFault f x : PM T α) := by
  cases x with
  | none => exact fault f
  | some a => exact pure a

theorem guarded {c : Bool} {x : PM T Unit} (hx : KeepsRecords x) : KeepsRecords (Exec.guarded c x) := by
  unfold Exec.guarded
  cases c
  · exact pure ()
  · exact hx

theorem onLinks (f : Links Node → Option (Links Node)) : KeepsRecords (PM.onLinks (T := T) f) := by
  intro pool
  unfold Exec.wp PM.onLinks
  cases f pool.links with
  | none => exact trivial
  | some l => exact fun _ => rfl

theorem modifyPcb (p : Pid) {f : Pcb T → Pcb T} (hf : ∀ x, (f x).record = x.record) : KeepsRecords (PM.modifyPcb p f) := by
  intro pool
  unfold PM.modifyPcb
  apply (Exec.wp_modify _ _).mpr
  intro r
  show (Function.update pool.pcbs p (f (pool.pcbs p)) r).record = _
  by_cases hr : r = p
  · subst hr
    rw [Function.update_self, hf]
  · rw [Function.update_of_ne hr]

theorem modify {f : Pool T → Pool T} (hf : ∀ pool, (f pool).pcbs = pool.pcbs) :
    KeepsRecords (Exec.modify f : PM T Unit) := by
  intro pool
  apply (Exec.wp_modify _ _).mpr
  intro p
  rw [hf]

theorem listSearch (head : Node) (test : Pool T → Node → Option Bool) : KeepsRecords (Model.listSearch head test) := by
  intro pool
  unfold Exec.wp Model.listSearch
  cases searchFrom pool.links head (test pool) walkFuel (pool.links.next head) with
  | error f => exact trivial
  | ok r => exact fun _ => rfl

theorem forEach (xs : List β) {f : β → PM T Unit} (hf : ∀ x, KeepsRecords (f x)) : KeepsRecords (Exec.forEach xs f) := by
  induction xs with
  | nil => exact pure ()
  | cons x xs ih => exact (hf x).bind fun _ => ih

/-! ### `pcb.c` -/

theorem pcbInit : KeepsRecords (pcbInit (T := T)) := forEach _ fun _ => onLinks _

theorem pcbFree (p : Pid) : KeepsRecords (pcbFree (T := T) p) := onLinks _

theorem pcbInsertInQueue (head : Node) (p : Pid) : KeepsRecords (pcbInsertInQueue (T := T) head p) := by
  apply read.bind
  intro pool
  split
  · exact onLinks _
  · apply (listSearch _ _).bind
    intro r
    cases r <;> exact onLinks _

theorem pcbQueueHead (head : Node) : KeepsRecords (pcbQueueHead (T := T) head) := by
  apply read.bind
  intro pool
  split
  · exact pure none
  · exact (orFault _ _).bind fun p => pure (some p)

theorem pcbRemoveFromQueue (head : Node) : KeepsRecords (pcbRemoveFromQueue (T := T) head) := by
  apply (pcbQueueHead head).bind
  intro r
  cases r with
  | none => exact pure none
  | some p => exact (onLinks _).bind fun _ => pure (some p)

theorem pcbIsFree (p : Pid) : KeepsRecords (pcbIsFree (T := T) p) := by
  apply (listSearch _ _).bind
  intro r
  cases r
  · exact pure false
  · exact pure true

theorem pcbFindAndRemove (head : Node) (p : Pid) : KeepsRecords (pcbFindAndRemove (T := T) head p) := by
  apply (listSearch _ _).bind
  intro r
  cases r
  · exact pure none
  · exact (onLinks _).bind fun _ => pure (some p)

theorem pcbInsertChild (parent p : Pid) : KeepsRecords (pcbInsertChild (T := T) parent p) :=
  (onLinks _).bind fun _ => modifyPcb p (f := fun q => { q with pParent := some parent }) fun _ => rfl

theorem pcbFindAndRemoveChild (p : Pid) : KeepsRecords (pcbFindAndRemoveChild (T := T) p) := by
  apply read.bind
  intro pool
  split
  · exact pure none
  · apply (onLinks _).bind
    intro _
    exact (modifyPcb p (f := fun q => { q with pParent := none }) fun _ => rfl).bind fun _ => pure (some p)

/-! ### `asl.c` -/

theorem setKey (d : Nat) (key : Key) : KeepsRecords (setKey (T := T) d key) := modify fun _ => rfl

theorem aslInit : KeepsRecords (aslInit (T := T)) :=
  forEach _ fun i => (setKey i 0).bind fun _ => (onLinks _).bind fun _ => onLinks _

theorem aslSemd (key : Key) : KeepsRecords (aslSemd (T := T) key) := by
  apply (listSearch _ _).bind
  intro r
  cases r
  · exact pure none
  · exact (orFault _ _).bind fun d => pure (some d)

theorem aslNewSemd : KeepsRecords (aslNewSemd (T := T)) := by
  apply read.bind
  intro pool
  split
  · exact pure none
  · exact (orFault _ _).bind fun _ => (orFault _ _).bind fun d => (onLinks _).bind fun _ => (onLinks _).bind fun _ =>
      pure (some d)

theorem aslSemdOrNew (key : Key) : KeepsRecords (aslSemdOrNew (T := T) key) := by
  apply (aslSemd key).bind
  intro r
  cases r with
  | none => exact aslNewSemd
  | some d => exact pure (some d)

theorem aslInsertBlocked (key : Key) (p : Pid) : KeepsRecords (aslInsertBlocked (T := T) key p) := by
  apply (aslSemdOrNew key).bind
  intro r
  cases r with
  | none => exact pure true
  | some d =>
    apply (pcbInsertInQueue _ p).bind
    intro _
    apply (setKey d key).bind
    intro _
    exact (modifyPcb p (f := fun q => { q with pSemkey := key }) fun _ => rfl).bind fun _ => pure false

theorem aslReleaseIfEmpty (d : Nat) : KeepsRecords (aslReleaseIfEmpty (T := T) d) :=
  read.bind fun _ => guarded ((onLinks _).bind fun _ => onLinks _)

theorem aslRemoveBlocked (key : Key) : KeepsRecords (aslRemoveBlocked (T := T) key) := by
  apply (aslSemd key).bind
  intro r
  cases r with
  | none => exact pure none
  | some d =>
    apply read.bind
    intro _
    apply (orFault _ _).bind
    intro elem
    apply (orFault _ _).bind
    intro p
    apply (onLinks _).bind
    intro _
    apply (aslReleaseIfEmpty d).bind
    intro _
    exact (modifyPcb p (f := fun q => { q with pSemkey := 0 }) fun _ => rfl).bind fun _ => pure (some p)

theorem aslFindAndRemoveBlocked (p : Pid) : KeepsRecords (aslFindAndRemoveBlocked (T := T) p) := by
  apply read.bind
  intro pool
  apply (aslSemd _).bind
  intro r
  cases r with
  | none => exact pure none
  | some d =>
    apply (listSearch _ _).bind
    intro r
    cases r with
    | none => exact pure none
    | some it => exact (onLinks _).bind fun _ => (aslReleaseIfEmpty d).bind fun _ => pure (some p)

theorem agingFrom (cfg : Cfg T) : ∀ (n : Nat) (pos : Option Node), KeepsRecords (agingFrom cfg n pos) := by
  intro n
  induction n with
  | zero => exact fun _ => fault .hang
  | succ n ih =>
    intro pos
    cases pos with
    | none => exact fault .nullDeref
    | some pos =>
      unfold Model.agingFrom
      split
      · exact pure ()
      · apply (orFault _ _).bind
        intro it
        apply (modifyPcb it (f := fun p => { p with priority := cfg.prio.succ p.priority }) fun _ => rfl).bind
        intro _
        exact read.bind fun pool => ih (pool.links.next pos)

theorem aging (cfg : Cfg T) : KeepsRecords (aging cfg) := read.bind fun _ => agingFrom cfg _ _

end KeepsRecords

/-- A first part that leaves the records alone. -/
theorem KeepsRecords.wp_bind {α β : Type} {x : PM T α} {f : α → PM T β} {Q : β → Pool T → Prop} {pool : Pool T}
    (hx : KeepsRecords x) (hf : ∀ a pool', (∀ p, (pool'.pcbs p).record = (pool.pcbs p).record) →
      Exec.wp (f a) Q (fun _ _ => True) (fun _ => True) pool') :
    Exec.wp (x >>= f) Q (fun _ _ => True) (fun _ => True) pool := by
  rw [Exec.wp_bind]
  exact Exec.wp_conseq (hx pool) hf

/-- `pcb_alloc` clears the record of the PCB it returns. -/
theorem pcbAlloc_record (pool : Pool T) : Exec.wp pcbAlloc (fun r pool' =>
    ∀ p, (pool'.pcbs p).record = if r = some p then (Pcb.zero : Pcb T).record else (pool.pcbs p).record)
    (fun _ _ => True) (fun _ => True) pool := by
  unfold pcbAlloc
  apply KeepsRecords.read.wp_bind
  intro pool₀ pool₁ h₁
  split
  · exact (Exec.wp_pure _).mpr fun p => h₁ p
  · apply (KeepsRecords.onLinks _).wp_bind
    intro _ pool₂ h₂
    apply (KeepsRecords.orFault _ _).wp_bind
    intro p pool₃ h₃
    have hold : ∀ r, (pool₃.pcbs r).record = (pool.pcbs r).record := fun r =>
      (h₃ r).trans ((h₂ r).trans (h₁ r))
    rw [Exec.wp_bind]
    apply (Exec.wp_modify _ _).mpr
    apply (KeepsRecords.onLinks _).wp_bind
    intro _ pool₄ h₄
    apply (KeepsRecords.onLinks _).wp_bind
    intro _ pool₅ h₅
    apply (KeepsRecords.onLinks _).wp_bind
    intro _ pool₆ h₆
    apply (KeepsRecords.onLinks _).wp_bind
    intro _ pool₇ h₇
    apply (Exec.wp_pure _).mpr
    intro r
    rw [h₇, h₆, h₅, h₄]
    show (Function.update pool₃.pcbs p Pcb.zero r).record = _
    by_cases hr : r = p
    · subst hr
      rw [Function.update_self, if_pos rfl]
    · rw [Function.update_of_ne hr, if_neg fun he => hr (Option.some.inj he).symm]
      exact hold r

end Bikaya.Kernel
