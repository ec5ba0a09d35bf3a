import Bikaya.Kernel.Clock
import Bikaya.Kernel.Syscalls
import Bikaya.Model.Main

/-!
# The kernel, as acts of the clock

`Traced cfg ok x` : from every state `x` does nothing to time but the acts of `TimeAct`. One lemma for each
function, up to `step_times`; `run_times` : what the acts keep holds in every run, whatever the entries are.
-/

namespace Bikaya.Kernel
open Bikaya.Lib Bikaya.Model Bikaya.Spec Bikaya.Refine Bikaya.Model.KM

variable {T : Target}

def Traced {α : Type} (cfg : Cfg T) (ok : Deed → Prop) (x : KM T α) : Prop :=
  ∀ s, Exec.wp x (fun _ s' => TimeActs cfg ok s s') (fun _ s' => TimeActs cfg ok s s') (fun _ => True) s

/-- `x` begins with `scheduler_account_time`, and then does only what `ok` allows. -/
def Opens {α : Type} (cfg : Cfg T) (kernel : Bool) (ok : Deed → Prop) (x : KM T α) : Prop :=
  ∀ s, Exec.wp x (fun _ s' => TimeActs cfg ok (s.accounted cfg kernel) s')
    (fun _ s' => TimeActs cfg ok (s.accounted cfg kernel) s') (fun _ => True) s

variable {cfg : Cfg T} {ok : Deed → Prop}

theorem TimeAct.once {s s' : KState T} (h : TimeAct cfg ok s s') : TimeActs cfg ok s s' := TimeActs.refl.act h

namespace Traced
variable {α β : Type}

/-! ## Rules -/

/-- A program that returns after one act. -/
theorem of_ret {x : KM T α} (h : ∀ s, ∃ a s', x s = .ret a s' ∧ TimeActs cfg ok s s') : Traced cfg ok x := by
  intro s
  obtain ⟨a, s', hx, ht⟩ := h s
  exact wp_ret hx ht

theorem pure (a : α) : Traced cfg ok (Pure.pure a : KM T α) := of_ret fun s => ⟨a, s, rfl, .refl⟩

theorem fault (f : Fault) : Traced cfg ok (Exec.fault f : KM T α) := fun _ => (Exec.wp_fault f).mpr trivial

theorem exit (st : CpuState T) : Traced cfg ok (Exec.exit st : KM T α) := fun _ => (Exec.wp_exit st).mpr .refl

theorem bind {x : KM T α} {f : α → KM T β} (hx : Traced cfg ok x) (hf : ∀ a, Traced cfg ok (f a)) :
    Traced cfg ok (x >>= f) := by
  intro s
  rw [Exec.wp_bind]
  refine Exec.wp_conseq (hx s) fun a s₁ h₁ => ?_
  exact Exec.wp_mono (hf a s₁) (fun _ _ h₂ => h₁.trans h₂) (fun _ _ h₂ => h₁.trans h₂) fun _ h => h

theorem orFault (f : Fault) (x : Option α) : Traced cfg ok (Exec.orFault f x : KM T α) := by
  cases x with
  | none => exact fault f
  | some a => exact pure a

theorem guarded {c : Bool} {x : KM T Unit} (hx : Traced cfg ok x) : Traced cfg ok (Exec.guarded c x) := by
  unfold Exec.guarded
  cases c
  · exact pure ()
  · exact hx

theorem machine : Traced cfg ok (KM.machine : KM T (Machine T)) := of_ret fun s => ⟨s.m, s, rfl, .refl⟩

theorem pool {x : PM T α} (hx : KeepsRecords x) : Traced cfg ok (KM.pool x) := by
  intro s
  unfold KM.pool
  apply (Exec.wp_zoom _ _ _).mpr
  refine Exec.wp_mono (hx s.m.pool) (fun a pool' h => ?_) (fun e _ _ => e.elim) fun _ h => h
  have hsame : SameRecords s (s.setPool pool') := ⟨h, rfl, rfl, rfl, rfl⟩
  exact TimeAct.once (.frame hsame)

theorem modifyPcb (p : Pid) {f : Pcb T → Pcb T} (hf : ∀ x, (f x).record = x.record) :
    Traced cfg ok (KM.modifyPcb p f) := pool (KeepsRecords.modifyPcb p hf)

/-- A change of the machine that has nothing to do with time or exception areas. -/
theorem upd {f : Machine T → Machine T} (hf : ∀ s : KState T, SameRecords s { s with m := f s.m }) :
    Traced cfg ok (KM.upd f) := of_ret fun s => ⟨(), _, rfl, TimeAct.once (.frame (hf s))⟩

theorem store (addr w : Word) : Traced cfg ok (KM.store (T := T) addr w) :=
  upd fun _ => ⟨fun _ => rfl, rfl, rfl, rfl, rfl⟩

theorem setOldArea (a : OldArea) (st : CpuState T) : Traced cfg ok (KM.setOldArea a st) :=
  upd fun _ => ⟨fun _ => rfl, rfl, rfl, rfl, rfl⟩

theorem setTimer (w : Word) : Traced cfg ok (KM.setTimer (T := T) w) :=
  upd fun _ => ⟨fun _ => rfl, rfl, rfl, rfl, rfl⟩

theorem semNote {o : Obs T} (ho : Untimed o) (hsem : IsSemOp o → ok .semaphore) : Traced cfg ok (KM.note o) :=
  of_ret fun s => ⟨(), s.push o, rfl, TimeAct.once (.note o ho hsem)⟩

theorem note {o : Obs T} (ho : Untimed o) (hno : ¬ IsSemOp o) : Traced cfg ok (KM.note o) :=
  semNote ho fun hs => absurd hs hno

theorem ldst {o : Obs T} (ho : Untimed o) (hno : ¬ IsSemOp o) (st : CpuState T) : Traced cfg ok (KM.ldst o st) :=
  (note ho hno).bind fun _ => exit st

theorem current : Traced cfg ok (KM.current : KM T Pid) := machine.bind fun _ => orFault _ _

theorem whenCurrent {f : Pid → KM T Unit} (hf : ∀ p, Traced cfg ok (f p)) : Traced cfg ok (KM.whenCurrent f) := by
  apply machine.bind
  intro m
  cases m.currentProc with
  | none => exact pure ()
  | some p => exact hf p

theorem getTODLO : Traced cfg ok (KM.getTODLO cfg) :=
  of_ret fun s => ⟨_, s.clocked, clocked_ret cfg s, TimeAct.once .read⟩

theorem quit : Traced cfg ok (KM.setCurrent (T := T) none) :=
  of_ret fun s => ⟨(), s.setCurrent none, rfl, TimeAct.once .quit⟩

theorem schedulerAccountTime (kernel : Bool) (hk : ok (.account kernel)) :
    Traced cfg ok (Model.schedulerAccountTime cfg kernel) :=
  of_ret fun s => ⟨(), s.accounted cfg kernel, schedulerAccountTime_ret cfg kernel s, TimeAct.once (.account kernel hk)⟩

/-! ## `scheduler.c` -/

theorem schedulerEnqueueProcess (p : Option Pid) : Traced cfg ok (Model.schedulerEnqueueProcess (T := T) p) := by
  apply (orFault _ p).bind
  intro p
  apply (modifyPcb p (f := fun q => { q with priority := q.originalPriority }) fun _ => rfl).bind
  intro _
  exact (pool (KeepsRecords.pcbInsertInQueue _ p)).bind fun _ => note trivial id

theorem schedulerRun : Traced cfg ok (Model.schedulerRun cfg) := by
  intro s
  unfold Model.schedulerRun
  refine wp_bind_ret (note_ret .run s) ?_
  rw [Exec.wp_bind]
  unfold KM.pool
  apply (Exec.wp_zoom _ _ _).mpr
  refine Exec.wp_mono (KeepsRecords.pcbRemoveFromQueue _ _) (fun next pool₁ h => ?_) (fun e _ _ => e.elim) fun _ h => h
  have h₁ : SameRecords (s.push .run) ((s.push .run).setPool pool₁) := ⟨h, rfl, rfl, rfl, rfl⟩
  refine wp_bind_ret (setCurrent_ret next _) ?_
  apply wp_bind_current
  · exact fun _ => trivial
  intro p hp
  obtain rfl : next = some p := hp
  refine wp_bind_ret (markStart_ret cfg p _) ?_
  refine wp_bind_ret (resetSwitchTick_ret cfg _) ?_
  refine wp_bind_ret (rfl : KM.setTimer cfg.timeSlice _ = .ret () _) ?_
  refine wp_bind_ret (machine_ret _) ?_
  apply wp_ldst
  exact TimeAct.once (.run p _ h₁ ⟨fun _ => rfl, rfl, rfl, rfl, rfl⟩)

theorem oldStateOf (old : Option OldArea) : Traced cfg ok (Model.oldStateOf (T := T) old) :=
  machine.bind fun _ => (orFault _ old).bind fun _ => pure _

variable (htrue : ok (.account true))
include htrue

theorem resumeCurrent (ended : Bool) (old : Option OldArea) (cur : Pid) :
    Traced cfg ok (Model.resumeCurrent cfg ended old cur) := by
  apply (schedulerAccountTime true htrue).bind
  intro _
  apply (guarded ((oldStateOf old).bind fun st => ldst (o := .resume st) trivial id st)).bind
  intro _
  apply machine.bind
  intro m
  apply (guarded (pool (KeepsRecords.aging cfg))).bind
  intro _
  apply (note (o := .expire) trivial id).bind
  intro _
  apply (oldStateOf old).bind
  intro st
  exact (modifyPcb cur (f := fun q => { q with pS := st }) fun _ => rfl).bind fun _ => schedulerEnqueueProcess _

theorem schedulerResume (ended : Bool) (old : Option OldArea) : Traced cfg ok (Model.schedulerResume cfg ended old) := by
  apply (whenCurrent (resumeCurrent htrue ended old)).bind
  intro _
  apply machine.bind
  intro m
  exact (guarded (ldst (o := .idle m.idleProcState) trivial id _)).bind fun _ => schedulerRun

theorem schedulerBlockCurrent (key : Key) (old : Option OldArea) :
    Traced cfg ok (Model.schedulerBlockCurrent cfg key old) := by
  apply current.bind
  intro cur
  apply (oldStateOf old).bind
  intro st
  apply (modifyPcb cur (f := fun q => { q with pS := st }) fun _ => rfl).bind
  intro _
  apply (schedulerAccountTime true htrue).bind
  intro _
  apply (pool (KeepsRecords.aslInsertBlocked key cur)).bind
  intro full
  exact quit.bind fun _ => note trivial id

omit htrue

theorem killChildren {kill : Pid → KM T Unit} (hkill : ∀ p, Traced cfg ok (kill p)) (head : Node) :
    ∀ (n : Nat) (pos : Option Node), Traced cfg ok (Model.killChildren kill head n pos) := by
  intro n
  induction n with
  | zero => exact fun _ => fault .hang
  | succ n ih =>
    intro pos
    cases pos with
    | none => exact fault .nullDeref
    | some pos =>
      unfold Model.killChildren
      split
      · exact pure ()
      · apply (orFault _ _).bind
        intro it
        apply (hkill it).bind
        intro _
        exact machine.bind fun m => ih (m.pool.links.next pos)

theorem bury (p : Pid) : Traced cfg ok (Model.bury (T := T) p) := by
  apply (pool (KeepsRecords.pcbFindAndRemoveChild p)).bind
  intro _
  apply (pool (KeepsRecords.aslFindAndRemoveBlocked p)).bind
  intro _
  apply (pool (KeepsRecords.pcbFindAndRemove _ p)).bind
  intro _
  exact (pool (KeepsRecords.pcbFree p)).bind fun _ => note trivial id

theorem killTree : ∀ (n : Nat) (p : Pid), Traced cfg ok (Model.killTree (T := T) n p) := by
  intro n
  induction n with
  | zero => exact fun _ => fault .hang
  | succ n ih =>
    intro p
    apply machine.bind
    intro m
    exact (killChildren ih _ _ _).bind fun _ => bury p

theorem schedulerKillProcess (p : Pid) : Traced cfg ok (Model.schedulerKillProcess (T := T) p) :=
  machine.bind fun _ => (guarded quit).bind fun _ => killTree _ p

end Traced

/-! ## Creation -/

/-- `pcb_alloc`, followed by a program that starts the PCB. -/
theorem wp_bind_alloc {α : Type} {f : Option Pid → KM T α} {s : KState T}
    (hnone : ∀ s₁, SameRecords s s₁ → Exec.wp (f none) (fun _ s' => TimeActs cfg ok s s')
      (fun _ s' => TimeActs cfg ok s s') (fun _ => True) s₁)
    (hsome : ∀ p s₁, SameRecords (s.setPcb p fun _ => Pcb.zero) s₁ → Exec.wp (f (some p))
      (fun _ s' => TimeActs cfg ok s s') (fun _ s' => TimeActs cfg ok s s') (fun _ => True) s₁) :
    Exec.wp (KM.pool pcbAlloc >>= f) (fun _ s' => TimeActs cfg ok s s') (fun _ s' => TimeActs cfg ok s s')
      (fun _ => True) s := by
  rw [Exec.wp_bind]
  unfold KM.pool
  apply (Exec.wp_zoom _ _ _).mpr
  refine Exec.wp_mono (pcbAlloc_record _) (fun r pool' h => ?_) (fun e _ _ => e.elim) fun _ h => h
  cases r with
  | none =>
    refine hnone (s.setPool pool') ⟨fun p => ?_, rfl, rfl, rfl, rfl⟩
    exact (h p).trans (if_neg (by simp))
  | some p =>
    refine hsome p (s.setPool pool') ⟨fun r => ?_, rfl, rfl, rfl, rfl⟩
    refine (h r).trans ?_
    show _ = (Function.update s.m.pool.pcbs p Pcb.zero r).record
    by_cases hr : r = p
    · subst hr
      rw [if_pos rfl, Function.update_self]
    · rw [if_neg fun he => hr (Option.some.inj he).symm, Function.update_of_ne hr]

/-- A PCB fresh from `pcb_alloc` gets its first state and priority. -/
theorem start_times {rest : KM T Unit} (hrest : Traced cfg ok rest) {s s₁ : KState T} {p : Pid}
    (h : SameRecords (s.setPcb p fun _ => Pcb.zero) s₁) (st : CpuState T) (prio : Int) :
    Exec.wp (do
      KM.modifyPcb p fun q => { q with pS := st }
      KM.modifyPcb p fun q => { q with originalPriority := prio }
      KM.note (.create p st)
      rest) (fun _ s' => TimeActs cfg ok s s') (fun _ s' => TimeActs cfg ok s s') (fun _ => True) s₁ := by
  refine wp_bind_ret (modifyPcb_ret p _ s₁) ?_
  refine wp_bind_ret (modifyPcb_ret p _ _) ?_
  refine wp_bind_ret (note_ret (.create p st) _) ?_
  have h₁ := h.trans (SameRecords.setPcb s₁ p (f := fun x => { x with pS := st }) fun _ => rfl)
  have h₂ := h₁.trans (SameRecords.setPcb _ p (f := fun x => { x with originalPriority := prio }) fun _ => rfl)
  have hcreate : TimeActs cfg ok s _ := TimeAct.once (.create p st h₂)
  exact Exec.wp_mono (hrest _) (fun _ _ ht => hcreate.trans ht) (fun _ _ ht => hcreate.trans ht) fun _ h => h

/-! ## Handlers -/

/-- A program that begins with `scheduler_account_time`. -/
theorem Opens.bind {α : Type} {kernel : Bool} {f : Unit → KM T α} (hf : ∀ a, Traced cfg ok (f a)) :
    Opens cfg kernel ok (schedulerAccountTime cfg kernel >>= f) :=
  fun s => wp_bind_ret (schedulerAccountTime_ret cfg kernel s) (hf () (s.accounted cfg kernel))

theorem Opens.traced {α : Type} {kernel : Bool} {x : KM T α} (h : Opens cfg kernel ok x) (hk : ok (.account kernel)) :
    Traced cfg ok x := by
  intro s
  have hfirst : TimeActs cfg ok s (s.accounted cfg kernel) := TimeAct.once (.account kernel hk)
  exact Exec.wp_mono (h s) (fun _ _ ht => hfirst.trans ht) (fun _ _ ht => hfirst.trans ht) fun _ h => h

namespace Traced
variable (htrue : ok (.account true))
include htrue

theorem handleException (type : Fin 3) (old : OldArea) :
    Opens cfg false ok (Model.schedulerHandleException cfg type old) := by
  apply Opens.bind
  intro _
  apply current.bind
  intro cur
  apply machine.bind
  intro m
  split
  · apply (upd fun _ => ⟨fun _ => rfl, rfl, rfl, rfl, rfl⟩).bind
    intro _
    apply (schedulerAccountTime true htrue).bind
    intro _
    exact machine.bind fun m => ldst (o := .passUp cur _) trivial id _
  · exact (schedulerKillProcess cur).bind fun _ => schedulerResume htrue false none

/-! ### `interrupts.c` -/

omit htrue in
theorem storeCommand (addr cmd : Word) : Traced cfg ok (Model.storeCommand (T := T) addr cmd) := by
  apply upd
  intro s
  cases Hw.fnAt T addr <;> exact ⟨fun _ => rfl, rfl, rfl, rfl, rfl⟩

omit htrue in
theorem devStatus (addr : Word) : Traced cfg ok (Model.devStatus (T := T) addr) :=
  machine.bind fun _ => (orFault _ _).bind fun _ => pure _

omit htrue in
theorem unblockProcess (key : Key) (status : Word) : Traced cfg ok (Model.unblockProcess (T := T) key status) := by
  apply (pool (KeepsRecords.aslRemoveBlocked key)).bind
  intro r
  apply (schedulerEnqueueProcess r).bind
  intro _
  apply (orFault _ r).bind
  intro p
  exact (modifyPcb p (f := fun q => { q with pS := q.pS.setReturn status }) fun _ => rfl).bind fun _ =>
    note (o := .complete key p status) trivial id

omit htrue in
theorem serve (device command : Word) (rcpt : Nat) : Traced cfg ok (Model.serve cfg device command rcpt) := by
  apply (devStatus _).bind
  intro status
  apply (unblockProcess _ status).bind
  intro _
  exact (storeCommand _ _).bind fun _ => note (o := .ack _) trivial id

omit htrue in
theorem handleTermSide (device command : Word) (rcpt : Nat) :
    Traced cfg ok (Model.handleTermSide cfg device command rcpt) :=
  (devStatus _).bind fun _ => guarded (serve device command rcpt)

omit htrue in
theorem handleDevice (line i : Nat) : Traced cfg ok (Model.handleDevice cfg line i) := by
  show Traced cfg ok (if T.isTerminal (T.devRegAddr line i) = true then _ else _)
  split
  · exact (handleTermSide _ 12 0).bind fun _ => handleTermSide _ 4 1
  · exact serve _ 4 0

omit htrue in
theorem handleBits (line : Nat) : ∀ n i bitmap : Nat, Traced cfg ok (Model.handleBits cfg line n i bitmap) := by
  intro n
  induction n with
  | zero => exact fun _ _ => pure ()
  | succ n ih => exact fun i bitmap => (guarded (handleDevice line i)).bind fun _ => ih (i + 1) (bitmap / 2)

omit htrue in
theorem handleLine (cause : Word) (line served : Nat) : Traced cfg ok (Model.handleLine cfg cause line served) :=
  guarded (machine.bind fun m => handleBits served 8 0 (m.hw.bitmap served))

theorem interruptsHandler : Opens cfg false ok (Model.interruptsHandler cfg) := by
  apply Opens.bind
  intro _
  apply machine.bind
  intro m
  apply (setOldArea _ _).bind
  intro _
  apply (guarded (setTimer _)).bind
  intro _
  apply (handleLine _ _ _).bind
  intro _
  apply (handleLine _ _ _).bind
  intro _
  apply (handleLine _ _ _).bind
  intro _
  apply (handleLine _ _ _).bind
  intro _
  exact (handleLine _ _ _).bind fun _ => schedulerResume htrue _ _

/-! ### `syscalls.c` -/

omit htrue in
theorem createProcess (state priority cpid : Word) : Traced cfg ok (Model.createProcess cfg state priority cpid) := by
  intro s
  apply wp_bind_alloc
  · exact fun s₁ h => (Exec.wp_pure _).mpr (TimeAct.once (.frame h))
  intro p s₁ h
  refine wp_bind_ret (machine_ret s₁) ?_
  rw [Exec.wp_bind]
  have hrest : Traced cfg ok (do
      Model.schedulerEnqueueProcess (some p)
      let cur ← KM.current
      KM.pool (pcbInsertChild cur p)
      Exec.guarded (decide (cpid ≠ 0)) (KM.store cpid (cfg.pcbAddr p))) := by
    apply (schedulerEnqueueProcess _).bind
    intro _
    apply current.bind
    intro cur
    exact (pool (KeepsRecords.pcbInsertChild cur p)).bind fun _ => guarded (store _ _)
  exact Exec.wp_conseq (start_times hrest h (stateAt s₁.m.mem state) priority.toInt) fun _ _ ht =>
    (Exec.wp_pure _).mpr ht

omit htrue in
theorem terminateProcess {pid : Word} (hpid : pid ≠ 0 → cfg.pcbAt pid ≠ none) :
    Traced cfg ok (Model.terminateProcess cfg pid) := by
  have hfound : ∀ p, Traced cfg ok (KM.pool (pcbIsFree p) >>= fun free => if free = true then Pure.pure syscallFailure
      else Model.schedulerKillProcess p >>= fun _ => Pure.pure syscallSuccess) := by
    intro p
    apply (pool (KeepsRecords.pcbIsFree p)).bind
    intro free
    split
    · exact pure _
    · exact (schedulerKillProcess p).bind fun _ => pure _
  intro s
  unfold Model.terminateProcess terminated
  by_cases hnull : pid = 0
  · rw [if_pos hnull, Exec.bind_bind]
    exact current.bind hfound s
  · rw [if_neg hnull]
    obtain ⟨p, hp⟩ := Option.ne_none_iff_exists'.mp (hpid hnull)
    rw [hp]
    exact wp_bind_ret (a := some p) rfl (hfound p s)

omit htrue in
theorem verhogen (hsem : ok .semaphore) (key : Key) : Traced cfg ok (Model.verhogen (T := T) key) := by
  apply (pool (KeepsRecords.aslSemd key)).bind
  intro r
  cases r with
  | none => exact machine.bind fun m => (store _ _).bind fun _ => semNote (o := .verhogen key none) trivial fun _ => hsem
  | some d =>
    apply (pool (KeepsRecords.aslRemoveBlocked key)).bind
    intro r
    exact (semNote (o := .verhogen key r) trivial fun _ => hsem).bind fun _ => schedulerEnqueueProcess r

theorem blockOn (key : Key) : Traced cfg ok (Model.blockOn cfg key) :=
  machine.bind fun m => schedulerBlockCurrent htrue key m.oldState

theorem passeren (hsem : ok .semaphore) (key : Key) : Traced cfg ok (Model.passeren cfg key) := by
  apply machine.bind
  intro m
  split
  · exact (store _ _).bind fun _ => semNote (o := .passeren key true) trivial fun _ => hsem
  · exact (semNote (o := .passeren key false) trivial fun _ => hsem).bind fun _ => blockOn htrue key

theorem waitIo (command device : Word) (subdev : Nat) : Traced cfg ok (Model.waitIo cfg command device subdev) := by
  apply current.bind
  intro cur
  apply (note (o := .waitIo cur _ command) trivial id).bind
  intro _
  exact (storeCommand _ _).bind fun _ => blockOn htrue _

omit htrue in
/-- `exc_new_areas` or `exc_old_areas` of a PCB is changed. -/
theorem setArea (hreg : ok .register) (p : Pid) {f : Pcb T → Pcb T} (new old : (Fin 3 → Word) → Fin 3 → Word)
    (hf : ∀ x, f x = { x with excNewAreas := new x.excNewAreas, excOldAreas := old x.excOldAreas }) :
    Traced cfg ok (KM.modifyPcb p f) := by
  apply of_ret
  intro s
  refine ⟨(), s.setPcb p f, modifyPcb_ret p f s, TimeAct.once ?_⟩
  have hset : s.setPcb p f = s.setPcb p fun x =>
      { x with excNewAreas := new (s.m.pool.pcbs p).excNewAreas, excOldAreas := old (s.m.pool.pcbs p).excOldAreas } := by
    unfold KState.setPcb
    rw [hf]
  rw [hset]
  exact .register p _ _ hreg

omit htrue in
theorem specPassUp (hreg : ok .register) {excType : Word} (htype : excType.toNat < 3) (oldArea newArea : Word) :
    Traced cfg ok (Model.specPassUp cfg excType oldArea newArea) := by
  apply current.bind
  intro cur
  split
  · apply machine.bind
    intro m
    split
    · exact (schedulerKillProcess cur).bind fun _ => pure _
    · rename_i h _
      let type : Fin 3 := ⟨excType.toNat, h⟩
      apply (setArea hreg cur (fun new => Function.update new type newArea) id fun _ => rfl).bind
      intro _
      exact (setArea hreg cur id (fun old => Function.update old type oldArea) fun _ => rfl).bind fun _ => pure _
  next hge => exact absurd htype hge

theorem getCpuTime (user kernel wallclock : Word) : Traced cfg ok (Model.getCpuTime cfg user kernel wallclock) := by
  apply getTODLO.bind
  intro t
  apply current.bind
  intro cur
  apply machine.bind
  intro m
  apply (store _ _).bind
  intro _
  apply (store _ _).bind
  intro _
  apply (schedulerAccountTime true htrue).bind
  intro _
  exact machine.bind fun m => store _ _

omit htrue in
theorem getPid (pid ppid : Word) : Traced cfg ok (Model.getPid cfg pid ppid) := by
  apply machine.bind
  intro m
  apply (guarded (store _ _)).bind
  intro _
  exact guarded (current.bind fun cur => store _ _)

omit htrue in
theorem setSysReturn (r : Word) : Traced cfg ok (Model.setSysReturn (T := T) r) :=
  machine.bind fun _ => setOldArea _ _

end Traced

/-- The number of a system call is none of 1 to 8. -/
def CustomNumber (st : CpuState T) : Prop := ¬ (1 ≤ (st T.sysArg0).toNat ∧ (st T.sysArg0).toNat ≤ 8)

/-- The arguments of the system call of an old area keep the kernel within its tables. -/
structure BoundedArgs (cfg : Cfg T) (st : CpuState T) : Prop where
  excType : (st T.sysArg0).toNat = 7 → (st T.sysArg1).toNat < 3
  pid : (st T.sysArg0).toNat = 3 → st T.sysArg1 ≠ 0 → cfg.pcbAt (st T.sysArg1) ≠ none

/-- The `switch` of `syscall_handler`. Only for a custom number is time charged as user time again, only SPECPASSUP
registers exception areas, and only VERHOGEN and PASSEREN use semaphores. -/
theorem syscallSwitch_times (htrue : ok (.account true)) {s : KState T}
    (hargs : BoundedArgs cfg (s.m.oldAreas .sysbk))
    (hfalse : CustomNumber (s.m.oldAreas .sysbk) → ok (.account false))
    (hreg : (s.m.oldAreas .sysbk T.sysArg0).toNat = 7 → ok .register)
    (hsem : (s.m.oldAreas .sysbk T.sysArg0).toNat = 4 ∨ (s.m.oldAreas .sysbk T.sysArg0).toNat = 5 → ok .semaphore) :
    Exec.wp (syscallSwitch cfg) (fun _ s' => TimeActs cfg ok s s') (fun _ s' => TimeActs cfg ok s s')
      (fun _ => True) s := by
  unfold syscallSwitch
  refine wp_bind_ret (machine_ret s) ?_
  dsimp only
  split
  · exact Traced.getCpuTime htrue _ _ _ s
  · exact (Traced.createProcess _ _ _).bind (fun _ => Traced.setSysReturn _) s
  next hnum => exact (Traced.terminateProcess (hargs.pid hnum)).bind (fun _ => Traced.setSysReturn _) s
  next hnum => exact Traced.verhogen (hsem (.inl hnum)) _ s
  next hnum => exact Traced.passeren htrue (hsem (.inr hnum)) _ s
  · exact Traced.waitIo htrue _ _ _ s
  next hnum => exact (Traced.specPassUp (hreg hnum) (hargs.excType hnum) _ _).bind (fun _ => Traced.setSysReturn _) s
  · exact Traced.getPid _ _ s
  next g1 g2 g3 g4 g5 g6 g7 g8 =>
    refine (Traced.handleException htrue 0 .sysbk).traced (hfalse fun hn => ?_) s
    obtain ⟨hlo, hhi⟩ := hn
    rcases Nat.lt_or_ge 4 ((s.m.oldAreas .sysbk) T.sysArg0).toNat with h | h
    · have hcases : ((s.m.oldAreas .sysbk) T.sysArg0).toNat = 5 ∨ ((s.m.oldAreas .sysbk) T.sysArg0).toNat = 6 ∨
          ((s.m.oldAreas .sysbk) T.sysArg0).toNat = 7 ∨ ((s.m.oldAreas .sysbk) T.sysArg0).toNat = 8 := by omega
      rcases hcases with hn | hn | hn | hn
      exacts [g5 hn, g6 hn, g7 hn, g8 hn]
    · have hcases : ((s.m.oldAreas .sysbk) T.sysArg0).toNat = 1 ∨ ((s.m.oldAreas .sysbk) T.sysArg0).toNat = 2 ∨
          ((s.m.oldAreas .sysbk) T.sysArg0).toNat = 3 ∨ ((s.m.oldAreas .sysbk) T.sysArg0).toNat = 4 := by omega
      rcases hcases with hn | hn | hn | hn
      exacts [g1 hn, g2 hn, g3 hn, g4 hn]

/-- The system call of an old area, if it is one, is none of the kernel's. -/
def CustomState (st : CpuState T) : Prop := T.causeExc (st T.cause) = T.causeSyscall ∧ CustomNumber st

theorem accounted_oldAreas (s : KState T) (kernel : Bool) : (s.accounted cfg kernel).m.oldAreas = s.m.oldAreas := by
  unfold KState.accounted
  cases s.m.currentProc <;> rfl

/-- `syscall_handler` charges user time once, except for a custom number. -/
theorem syscallHandler_times (htrue : ok (.account true)) {s : KState T}
    (hargs : T.causeExc (s.m.oldAreas .sysbk T.cause) = T.causeSyscall → BoundedArgs cfg (s.m.oldAreas .sysbk))
    (hfalse : CustomState (s.m.oldAreas .sysbk) → ok (.account false))
    (hreg : T.causeExc (s.m.oldAreas .sysbk T.cause) = T.causeSyscall ∧ (s.m.oldAreas .sysbk T.sysArg0).toNat = 7 →
      ok .register)
    (hsem : T.causeExc (s.m.oldAreas .sysbk T.cause) = T.causeSyscall ∧ ((s.m.oldAreas .sysbk T.sysArg0).toNat = 4 ∨
      (s.m.oldAreas .sysbk T.sysArg0).toNat = 5) → ok .semaphore) :
    Exec.wp (syscallHandler cfg) (fun _ s' => TimeActs cfg ok (s.accounted cfg false) s')
      (fun _ s' => TimeActs cfg ok (s.accounted cfg false) s') (fun _ => True) s := by
  have hresume : Traced cfg ok (schedulerResume cfg false (some .sysbk)) := Traced.schedulerResume htrue _ _
  generalize hs₁ : s.accounted cfg false = s₁
  have harea : s₁.m.oldAreas = s.m.oldAreas := by
    rw [← hs₁]
    exact accounted_oldAreas s false
  let s₂ : KState T := { s₁ with m := { s₁.m with oldState := some .sysbk } }
  have h₂ : TimeActs cfg ok s₁ s₂ := TimeAct.once (.frame ⟨fun _ => rfl, rfl, rfl, rfl, rfl⟩)
  have hcall : Exec.wp (Exec.guarded (decide (T.causeExc (s₂.m.oldAreas .sysbk T.cause) = T.causeSyscall)) (systemCall cfg))
      (fun _ s' => TimeActs cfg ok s₁ s') (fun _ s' => TimeActs cfg ok s₁ s') (fun _ => True) s₂ := by
    rw [Exec.wp_guarded]
    split
    · rename_i hcause
      have hcause : T.causeExc (s₁.m.oldAreas .sysbk T.cause) = T.causeSyscall := of_decide_eq_true hcause
      unfold systemCall
      refine wp_bind_ret (machine_ret s₂) (wp_bind_ret (setOldArea_ret _ _ s₂) ?_)
      let s₃ : KState T := s₂.setAreas (Function.update s₂.m.oldAreas .sysbk (advancePc (s₂.m.oldAreas .sysbk))) s₂.m.oldState
      have h₃ : TimeActs cfg ok s₁ s₃ := h₂.trans (TimeAct.once (.frame ⟨fun _ => rfl, rfl, rfl, rfl, rfl⟩))
      have hcause : T.causeExc (s.m.oldAreas .sysbk T.cause) = T.causeSyscall := harea ▸ hcause
      have hword : ∀ i, i ≠ T.pc → s₃.m.oldAreas .sysbk i = s.m.oldAreas .sysbk i := by
        intro i hi
        show Function.update s₁.m.oldAreas .sysbk (advancePc (s₁.m.oldAreas .sysbk)) .sysbk i = _
        rw [Function.update_self, advancePc_of_ne _ hi, harea]
      have hnum := hword _ (sysArg_ne_pc T).1
      have hargs₃ : BoundedArgs cfg (s₃.m.oldAreas .sysbk) := by
        obtain ⟨htype, hpid⟩ := hargs hcause
        constructor
        · rwa [hnum, hword _ (sysArg_ne_pc T).2.1]
        · rwa [hnum, hword _ (sysArg_ne_pc T).2.1]
      have hcustom : CustomNumber (s₃.m.oldAreas .sysbk) → ok (.account false) := by
        unfold CustomNumber
        rw [hnum]
        exact fun hn => hfalse ⟨hcause, hn⟩
      have hpass : (s₃.m.oldAreas .sysbk T.sysArg0).toNat = 7 → ok .register := by
        rw [hnum]
        exact fun hn => hreg ⟨hcause, hn⟩
      have huse : (s₃.m.oldAreas .sysbk T.sysArg0).toNat = 4 ∨ (s₃.m.oldAreas .sysbk T.sysArg0).toNat = 5 →
          ok .semaphore := by
        rw [hnum]
        exact fun hn => hsem ⟨hcause, hn⟩
      exact Exec.wp_mono (syscallSwitch_times htrue hargs₃ hcustom hpass huse) (fun _ _ ht => h₃.trans ht)
        (fun _ _ ht => h₃.trans ht)
        fun _ h => h
    · exact h₂
  unfold syscallHandler
  refine wp_bind_ret (schedulerAccountTime_ret cfg false s) ?_
  rw [hs₁]
  refine wp_bind_ret (rfl : KM.upd _ s₁ = .ret () s₂) (wp_bind_ret (machine_ret s₂) ?_)
  rw [Exec.wp_bind]
  refine Exec.wp_conseq hcall fun _ s₄ h₄ => ?_
  exact Exec.wp_mono (hresume s₄) (fun _ _ ht => h₄.trans ht) (fun _ _ ht => h₄.trans ht) fun _ h => h

/-! ## Entries, the boot and runs -/

/-- The entry is a SYSCALL whose number is none of 1 to 8. -/
def CustomCall (e : Entry T) : Prop := e.area = .sysbk ∧ CustomState e.st

/-- The acts allowed include those of the entry. -/
structure Permits (ok : Deed → Prop) (e : Entry T) : Prop where
  kernel : ok (.account true)
  user : CustomCall e → ok (.account false)
  register : IsCall e 7 → ok .register
  semaphore : IsCall e 4 ∨ IsCall e 5 → ok .semaphore

/-- Every handler charges user time first, and only then; but for a custom system call. -/
theorem handler_times {e : Entry T} (hbounds : InBounds cfg e) (hok : Permits ok e) {s : KState T}
    (hs : s.m.oldAreas e.area = e.st) :
    Exec.wp (handler cfg e.area) (fun _ s' => TimeActs cfg ok (s.accounted cfg false) s')
      (fun _ s' => TimeActs cfg ok (s.accounted cfg false) s') (fun _ => True) s := by
  obtain ⟨htrue, hfalse, hreg, hsem⟩ := hok
  obtain ⟨htype, hpid⟩ := hbounds
  unfold CustomCall at hfalse
  unfold IsCall at hreg hsem htype hpid
  generalize e.area = a at *
  cases a with
  | int => exact Traced.interruptsHandler htrue s
  | tlb => exact Traced.handleException htrue 1 .tlb s
  | pgmtrap => exact Traced.handleException htrue 2 .pgmtrap s
  | sysbk =>
    rw [← hs] at htype hpid hfalse hreg hsem
    exact syscallHandler_times htrue (fun hc => ⟨fun hn => htype ⟨rfl, hc, hn⟩, fun hn => hpid ⟨rfl, hc, hn⟩⟩)
      (fun hc => hfalse ⟨rfl, hc⟩) (fun hc => hreg ⟨rfl, hc⟩)
      fun hc => hsem (hc.2.imp (fun hn => ⟨rfl, hc.1, hn⟩) fun hn => ⟨rfl, hc.1, hn⟩)

/-- Where an entry leads. -/
theorem step_times {e : Entry T} (hbounds : InBounds cfg e) (hok : Permits ok e) {s s' : KState T} {st : CpuState T}
    (h : kernelStep cfg e s = .exit st s') : TimeActs cfg ok ((s.entered e).accounted cfg false) s' := by
  have hwp : Exec.wp (kernelStep cfg e) (fun _ s' => TimeActs cfg ok ((s.entered e).accounted cfg false) s')
      (fun _ s' => TimeActs cfg ok ((s.entered e).accounted cfg false) s') (fun _ => True) s := by
    unfold kernelStep
    exact wp_bind_ret (a := ()) (t := s.entered e) rfl (handler_times hbounds hok (Function.update_self _ _ _))
  unfold Exec.wp at hwp
  rw [h] at hwp
  exact hwp

theorem schedulerInit_traced : Traced cfg ok (schedulerInit cfg) := by
  unfold schedulerInit
  apply (Traced.upd fun _ => ⟨fun _ => rfl, rfl, rfl, rfl, rfl⟩).bind
  intro _ s
  apply wp_bind_alloc
  · intro s₁ _
    exact (Exec.wp_bind _ _).mpr ((Exec.wp_orFault_none _).mpr trivial)
  · intro p s₁ h
    refine wp_bind_ret (orFault_ret p s₁) ?_
    exact start_times (Traced.schedulerEnqueueProcess (some p)) h _ _

/-- The boot. -/
theorem boot_times {s : KState T} {st : CpuState T} (h : boot cfg = .exit st s) :
    TimeActs cfg ok ⟨Machine.static cfg, []⟩ s := by
  have hmain : Traced cfg ok (main cfg) := by
    apply (Traced.pool KeepsRecords.pcbInit).bind
    intro _
    apply (Traced.pool KeepsRecords.aslInit).bind
    intro _
    exact schedulerInit_traced.bind fun _ => Traced.schedulerRun
  have hwp := hmain ⟨Machine.static cfg, []⟩
  unfold Exec.wp at hwp
  unfold boot at h
  rw [h] at hwp
  exact hwp

/-- An entry is two acts. -/
theorem entered_acts (henter : ok .enter) (s : KState T) (e : Entry T) : TimeActs cfg ok s (s.entered e) := by
  let m := { s.m with oldAreas := Function.update s.m.oldAreas e.area e.st, mem := e.mem, hw := e.hw }
  have hsame : SameRecords s ⟨m, s.hist⟩ := ⟨fun _ => rfl, rfl, rfl, rfl, rfl⟩
  exact (TimeAct.once (.frame hsame)).act (.enter e henter)

/-- What holds at the beginning and is kept by the acts of the clock holds in every run within bounds. -/
theorem run_times {I : KState T → Prop} {okEntry : KState T → Entry T → Prop}
    (hbounds : ∀ {s e}, okEntry s e → InBounds cfg e)
    (hinit : I ⟨Machine.static cfg, []⟩) (hact : ∀ {s s'}, TimeAct cfg (fun _ => True) s s' → I s → I s')
    {s : KState T} (h : Run cfg okEntry s) : I s := by
  induction h with
  | boot hb => exact (boot_times hb).keeps hact hinit
  | @step s s' st e _ he hstep ih =>
    have hentry : TimeActs cfg (fun _ => True) s ((s.entered e).accounted cfg false) :=
      (entered_acts trivial s e).act (.account false trivial)
    have hok : Permits (fun _ => True) e := ⟨trivial, fun _ => trivial, fun _ => trivial, fun _ => trivial⟩
    exact (hentry.trans (step_times (hbounds he) hok hstep)).keeps hact ih

end Bikaya.Kernel
