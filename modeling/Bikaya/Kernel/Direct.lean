import Bikaya.Kernel.ClockRun

/-!
# Entries computed

Where an entry leads, as a state: `called` at the `switch` of `syscall_handler`, `resumed` when the kernel goes back
to the current process, `handed` when an exception goes to the handler that the process registered.
-/

namespace Bikaya.Model
open Bikaya.Lib KM

variable {T : Target}

namespace KState

/-- At the `switch` of `syscall_handler`, on a SYSCALL. -/
def called (cfg : Cfg T) (s : KState T) (e : Entry T) : KState T :=
  let s := (s.entered e).accounted cfg false
  s.setAreas (Function.update s.m.oldAreas .sysbk (advancePc e.st)) (some .sysbk)

/-- `LDST(old_state)`. -/
def resumed (cfg : Cfg T) (s : KState T) (a : OldArea) : KState T :=
  (s.accounted cfg true).push (.resume (s.m.oldAreas a))

/-- The old area copied to where `p` wants it. -/
def handed (cfg : Cfg T) (s : KState T) (p : Pid) (type : Fin 3) (a : OldArea) : KState T :=
  (s.setMem (storeState s.m.mem ((s.m.pool.pcbs p).excOldAreas type) (s.m.oldAreas a))).accounted cfg true

/-- The new area that `p` registered. -/
def newArea (s : KState T) (p : Pid) (type : Fin 3) : CpuState T :=
  stateAt s.m.mem ((s.m.pool.pcbs p).excNewAreas type)

end KState
end Bikaya.Model

namespace Bikaya.Kernel
open Bikaya.Lib Bikaya.Model Bikaya.Spec Bikaya.Refine Bikaya.Model.KM

variable {T : Target} {cfg : Cfg T}

/-- Where a program that only accounts time returns. -/
theorem TimeOnly.timed {α : Type} {x : KM T α} (hx : TimeOnly x) {s s' : KState T} {a : α} (h : x s = .ret a s') :
    Timed s s' := by
  obtain ⟨b, t, hb, ht⟩ := hx s
  rw [h] at hb
  cases hb
  exact ht

theorem accounted_timed (cfg : Cfg T) (s : KState T) (kernel : Bool) : Timed s (s.accounted cfg kernel) :=
  (TimeOnly.schedulerAccountTime cfg kernel).timed (schedulerAccountTime_ret cfg kernel s)

theorem started_timed (cfg : Cfg T) (s : KState T) (p : Pid) : Timed s (s.started cfg p) :=
  (TimeOnly.markStart cfg p).timed (markStart_ret cfg p s)

theorem ticked_timed (cfg : Cfg T) (s : KState T) : Timed s (s.ticked cfg) :=
  (TimeOnly.resetSwitchTick cfg).timed (resetSwitchTick_ret cfg s)

theorem called_current {s : KState T} {p : Pid} (hp : s.m.currentProc = some p) (e : Entry T) :
    s.called cfg e = (((s.entered e).charged cfg false p).ticked cfg).setAreas
      (Function.update (((s.entered e).charged cfg false p).ticked cfg).m.oldAreas .sysbk (advancePc e.st)) (some .sysbk) := by
  unfold KState.called KState.accounted
  rw [show (s.entered e).m.currentProc = some p from hp]

theorem called_area (s : KState T) (e : Entry T) : (s.called cfg e).m.oldAreas .sysbk = advancePc e.st := by
  show Function.update ((s.entered e).accounted cfg false).m.oldAreas .sysbk (advancePc e.st) .sysbk = _
  rw [Function.update_self]

/-- On a SYSCALL the kernel gets to the `switch`. -/
theorem kernelStep_syscall {e : Entry T} (harea : e.area = .sysbk)
    (hcause : T.causeExc (e.st T.cause) = T.causeSyscall) (s : KState T) :
    kernelStep cfg e s = (syscallSwitch cfg >>= fun _ => schedulerResume cfg false (some .sysbk)) (s.called cfg e) := by
  let s₁ := (s.entered e).accounted cfg false
  have hfilled : s₁.m.oldAreas .sysbk = e.st := by
    show ((s.entered e).accounted cfg false).m.oldAreas .sysbk = _
    rw [(accounted_timed cfg _ _).same.oldAreas]
    show Function.update s.m.oldAreas e.area e.st .sysbk = _
    rw [harea, Function.update_self]
  let s₂ : KState T := { s₁ with m := { s₁.m with oldState := some .sysbk } }
  have hcall : Exec.guarded (decide (T.causeExc (s₂.m.oldAreas .sysbk T.cause) = T.causeSyscall)) (systemCall cfg) s₂ =
      syscallSwitch cfg (s.called cfg e) := by
    have hc : T.causeExc (s₂.m.oldAreas .sysbk T.cause) = T.causeSyscall := hfilled ▸ hcause
    rw [decide_eq_true hc]
    show systemCall cfg s₂ = _
    unfold systemCall
    rw [bind_ret (machine_ret s₂), bind_ret (setOldArea_ret _ _ s₂)]
    unfold KState.called
    rw [← hfilled]
    rfl
  have henter : enter e s = .ret () (s.entered e) := rfl
  unfold kernelStep
  rw [bind_ret henter, harea]
  show syscallHandler cfg (s.entered e) = _
  unfold syscallHandler
  rw [bind_ret (schedulerAccountTime_ret cfg false _), bind_ret (rfl : KM.upd _ s₁ = .ret () s₂), bind_ret (machine_ret s₂)]
  exact bind_same hcall _

/-- The `switch` finds the number and the arguments as they are in the saved state of the entry. -/
theorem called_switch (cfg : Cfg T) (s : KState T) (e : Entry T) : syscallSwitch cfg (s.called cfg e) =
    (match (e.st T.sysArg0).toNat with
      | 1 => getCpuTime cfg (e.st T.sysArg1) (e.st T.sysArg2) (e.st T.sysArg3)
      | 2 => createProcess cfg (e.st T.sysArg1) (e.st T.sysArg2) (e.st T.sysArg3) >>= setSysReturn
      | 3 => terminateProcess cfg (e.st T.sysArg1) >>= setSysReturn
      | 4 => verhogen (e.st T.sysArg1)
      | 5 => passeren cfg (e.st T.sysArg1)
      | 6 => waitIo cfg (e.st T.sysArg1) (e.st T.sysArg2) ((e.st T.sysArg3).toNat % 256)
      | 7 => specPassUp cfg (e.st T.sysArg1) (e.st T.sysArg2) (e.st T.sysArg3) >>= setSysReturn
      | 8 => getPid cfg (e.st T.sysArg1) (e.st T.sysArg2)
      | _ => schedulerHandleException cfg 0 .sysbk) (s.called cfg e) := by
  obtain ⟨h0, h1, h2, h3⟩ := sysArg_ne_pc T
  have harg : ∀ {i}, i ≠ T.pc → (s.called cfg e).m.oldAreas .sysbk i = e.st i := fun hi => by
    rw [called_area, advancePc_of_ne _ hi]
  rw [← harg h0, ← harg h1, ← harg h2, ← harg h3]
  exact bind_ret (machine_ret (s.called cfg e))

/-- A number that is none of 1 to 8 is passed on as an exception. -/
theorem called_custom (cfg : Cfg T) (s : KState T) {e : Entry T} (hn : CustomNumber e.st) :
    syscallSwitch cfg (s.called cfg e) = schedulerHandleException cfg 0 .sysbk (s.called cfg e) := by
  unfold CustomNumber at hn
  rw [called_switch]
  generalize (e.st T.sysArg0).toNat = n at *
  rcases Nat.eq_zero_or_pos n with h | h
  · subst h
    rfl
  · obtain ⟨k, rfl⟩ : ∃ k, n = k + 9 := ⟨n - 9, by omega⟩
    rfl

/-- The kernel goes back to the current process. -/
theorem schedulerResume_exit {s : KState T} {p : Pid} (hp : s.m.currentProc = some p) (a : OldArea) :
    schedulerResume cfg false (some a) s = .exit (s.m.oldAreas a) (s.resumed cfg a) := by
  let s₁ := s.accounted cfg true
  have hload : oldStateOf (some a) s₁ = .ret (s.m.oldAreas a) s₁ := by
    rw [oldStateOf_ret, (accounted_timed cfg s true).same.oldAreas]
  have hgo : resumeCurrent cfg false (some a) p s = .exit (s.m.oldAreas a) (s.resumed cfg a) := by
    unfold resumeCurrent
    rw [bind_ret (schedulerAccountTime_ret cfg true s)]
    apply bind_exit
    show (oldStateOf (some a) >>= fun st => KM.ldst (.resume st) st) s₁ = _
    rw [bind_ret hload]
    rfl
  have hwhen : whenCurrent (resumeCurrent cfg false (some a)) s = resumeCurrent cfg false (some a) p s := by
    unfold whenCurrent
    rw [bind_ret (machine_ret s), hp]
  unfold schedulerResume
  exact bind_exit (hwhen.trans hgo)

/-- Up to the `switch` only the times of the caller change. -/
theorem called_same (cfg : Cfg T) (s : KState T) (e : Entry T) :
    SameButTime { s.m with oldAreas := (s.called cfg e).m.oldAreas, oldState := some .sysbk, mem := e.mem, hw := e.hw }
      (s.called cfg e).m := by
  have h := (accounted_timed cfg (s.entered e) false).same
  exact ⟨h.links, h.sKey, h.pcbs, h.currentProc, h.idleProcState, rfl, rfl, h.mem, h.hw⟩

theorem setSysReturn_ret (r : Word) (s : KState T) : setSysReturn r s =
    .ret () (s.setAreas (Function.update s.m.oldAreas .sysbk ((s.m.oldAreas .sysbk).setReturn r)) s.m.oldState) := rfl

/-- What `setSysReturn` leaves in the old area. -/
theorem setSysReturn_area (r : Word) (s : KState T) :
    (s.setAreas (Function.update s.m.oldAreas .sysbk ((s.m.oldAreas .sysbk).setReturn r)) s.m.oldState).m.oldAreas .sysbk =
      (s.m.oldAreas .sysbk).setReturn r := by
  show Function.update s.m.oldAreas .sysbk ((s.m.oldAreas .sysbk).setReturn r) .sysbk = _
  rw [Function.update_self]

/-- A system call returns its result to the current process. -/
theorem sysReturn_exit (cfg : Cfg T) {s : KState T} {p : Pid} (hp : s.m.currentProc = some p) (r : Word) : ∃ s',
    (setSysReturn r >>= fun _ => schedulerResume cfg false (some .sysbk)) s =
        .exit ((s.m.oldAreas .sysbk).setReturn r) s' ∧
    (∃ h, s'.hist = (.resume ((s.m.oldAreas .sysbk).setReturn r), s'.m) :: h) ∧
    SameButTime { s.m with oldAreas := s'.m.oldAreas } s'.m := by
  let s₁ := s.setAreas (Function.update s.m.oldAreas .sysbk ((s.m.oldAreas .sysbk).setReturn r)) s.m.oldState
  have hp₁ : s₁.m.currentProc = some p := hp
  have h := (accounted_timed cfg s₁ true).same
  have harea : s₁.m.oldAreas .sysbk = (s.m.oldAreas .sysbk).setReturn r := setSysReturn_area r s
  refine ⟨s₁.resumed cfg .sysbk, ?_, ⟨(s₁.accounted cfg true).hist, ?_⟩, ?_⟩
  · rw [bind_ret (setSysReturn_ret r s), schedulerResume_exit hp₁, harea]
  · rw [← harea]
    rfl
  · exact ⟨h.links, h.sKey, h.pcbs, h.currentProc, h.idleProcState, rfl, h.oldState, h.mem, h.hw⟩

/-- What a result and the time leave as it was at the `switch`. -/
theorem SameButTime.result {m m₁ m' : Machine T} {areas : OldArea → CpuState T} {old : Option OldArea} {mem : Word → Word}
    {hw : Hw} (h : SameButTime { m with oldAreas := areas, oldState := old, mem := mem, hw := hw } m₁)
    (h' : SameButTime { m₁ with oldAreas := m'.oldAreas } m') :
    SameButTime { m with oldAreas := m'.oldAreas, oldState := m'.oldState, mem := mem, hw := hw } m' :=
  ⟨h'.links.trans h.links, h'.sKey.trans h.sKey, fun p => (h'.pcbs p).trans (h.pcbs p),
    h'.currentProc.trans h.currentProc, h'.idleProcState.trans h.idleProcState, rfl, rfl, h'.mem.trans h.mem,
    h'.hw.trans h.hw⟩

/-! ## Programs that do not leave the kernel -/

/-- The program returns, if it does not fail. -/
def NoExit {α : Type} (x : KM T α) : Prop := ∀ s, Exec.wp x (fun _ _ => True) (fun _ _ => False) (fun _ => True) s

namespace NoExit
variable {α β : Type}

theorem pure (a : α) : NoExit (Pure.pure a : KM T α) := fun _ => (Exec.wp_pure a).mpr trivial

theorem fault (f : Fault) : NoExit (Exec.fault f : KM T α) := fun _ => (Exec.wp_fault f).mpr trivial

theorem bind {x : KM T α} {f : α → KM T β} (hx : NoExit x) (hf : ∀ a, NoExit (f a)) : NoExit (x >>= f) := by
  intro s
  rw [Exec.wp_bind]
  exact Exec.wp_conseq (hx s) fun a s₁ _ => hf a s₁

theorem of_ret {x : KM T α} (h : ∀ s, ∃ a s', x s = .ret a s') : NoExit x := by
  intro s
  obtain ⟨a, s', hx⟩ := h s
  exact wp_ret hx trivial

/-- A first part that does not leave. -/
theorem wp_bind {x : KM T α} {f : α → KM T β} {Q : β → KState T → Prop} {E : CpuState T → KState T → Prop} {s : KState T}
    (hx : NoExit x) (hf : ∀ a s', Exec.wp (f a) Q E (fun _ => True) s') : Exec.wp (x >>= f) Q E (fun _ => True) s := by
  rw [Exec.wp_bind]
  exact Exec.wp_mono (hx s) (fun a s' _ => hf a s') (fun _ _ h => h.elim) fun _ h => h

theorem machine : NoExit (KM.machine : KM T (Machine T)) := of_ret fun s => ⟨s.m, s, rfl⟩

theorem note (o : Obs T) : NoExit (KM.note o) := of_ret fun s => ⟨(), s.push o, rfl⟩

theorem setCurrent (p : Option Pid) : NoExit (KM.setCurrent (T := T) p) := of_ret fun s => ⟨(), s.setCurrent p, rfl⟩

theorem orFault (f : Fault) (x : Option α) : NoExit (Exec.orFault f x : KM T α) := by
  cases x with
  | none => exact fault f
  | some a => exact pure a

theorem guarded {c : Bool} {x : KM T Unit} (hx : NoExit x) : NoExit (Exec.guarded c x) := by
  unfold Exec.guarded
  cases c
  · exact pure ()
  · exact hx

theorem pool (x : PM T α) : NoExit (KM.pool x) := by
  intro s
  unfold KM.pool Exec.wp Exec.zoom
  cases x s.m.pool with
  | ret a t => exact trivial
  | exit e t => exact e.elim
  | fault f => exact trivial

theorem bury (p : Pid) : NoExit (Model.bury (T := T) p) :=
  (pool _).bind fun _ => (pool _).bind fun _ => (pool _).bind fun _ => (pool _).bind fun _ => note _

theorem killChildren {kill : Pid → KM T Unit} (hkill : ∀ p, NoExit (kill p)) (head : Node) :
    ∀ (n : Nat) (pos : Option Node), NoExit (Model.killChildren kill head n pos) := by
  intro n
  induction n with
  | zero => exact fun _ => fault .hang
  | succ n ih =>
    intro pos
    cases pos with
    | none => exact fault .nullDeref
    | some pos =>
      unfold Model.killChildren
      split
      · exact pure ()
      · exact (orFault _ _).bind fun it => (hkill it).bind fun _ => machine.bind fun m => ih (m.pool.links.next pos)

theorem killTree : ∀ (n : Nat) (p : Pid), NoExit (Model.killTree (T := T) n p) := by
  intro n
  induction n with
  | zero => exact fun _ => fault .hang
  | succ n ih => exact fun p => machine.bind fun m => (killChildren ih _ _ _).bind fun _ => bury p

theorem schedulerKillProcess (p : Pid) : NoExit (Model.schedulerKillProcess (T := T) p) :=
  machine.bind fun _ => (guarded (setCurrent none)).bind fun _ => killTree _ p

theorem current : NoExit (KM.current : KM T Pid) := machine.bind fun _ => orFault _ _

theorem markStart (p : Pid) : NoExit (Model.markStart cfg p) := of_ret fun s => ⟨(), _, markStart_ret cfg p s⟩

theorem resetSwitchTick : NoExit (KM.resetSwitchTick cfg) := of_ret fun s => ⟨(), _, resetSwitchTick_ret cfg s⟩

theorem setTimer (w : Word) : NoExit (KM.setTimer (T := T) w) := of_ret fun _ => ⟨(), _, rfl⟩

end NoExit

/-- The last thing seen is that the idle state or a ready process is loaded. -/
def Switched (s : KState T) : Prop :=
  ∃ o m h, s.hist = (o, m) :: h ∧ ((∃ st, o = .idle st) ∨ ∃ p st, o = .dispatch p st)

theorem Switched.last {s : KState T} (h : Switched s) {o : Obs T} {m : Machine T} {rest : History T}
    (hhist : s.hist = (o, m) :: rest) : (∃ st, o = .idle st) ∨ ∃ p st, o = .dispatch p st := by
  obtain ⟨o', m', rest', hhist', ho⟩ := h
  have hobs : o' = o := congrArg Prod.fst (List.cons.inj (hhist'.symm.trans hhist)).1
  exact hobs ▸ ho

theorem schedulerRun_switched (s : KState T) :
    Exec.wp (schedulerRun cfg) (fun _ _ => False) (fun _ s' => Switched s') (fun _ => True) s := by
  apply (NoExit.note _).wp_bind
  intro _ _
  apply (NoExit.pool _).wp_bind
  intro next _
  apply (NoExit.setCurrent _).wp_bind
  intro _ _
  apply NoExit.current.wp_bind
  intro cur _
  apply (NoExit.markStart cur).wp_bind
  intro _ _
  apply NoExit.resetSwitchTick.wp_bind
  intro _ _
  apply (NoExit.setTimer _).wp_bind
  intro _ _
  apply NoExit.machine.wp_bind
  intro m s'
  exact wp_ldst ⟨_, s'.m, s'.hist, rfl, .inr ⟨cur, _, rfl⟩⟩

/-- Without a current process the kernel goes on to another, or idles. -/
theorem schedulerResume_switched {s : KState T} (hn : s.m.currentProc = none) (ended : Bool) (old : Option OldArea) :
    Exec.wp (schedulerResume cfg ended old) (fun _ _ => False) (fun _ s' => Switched s') (fun _ => True) s := by
  have hwhen : whenCurrent (resumeCurrent cfg ended old) s = .ret () s := by
    unfold whenCurrent
    rw [bind_ret (machine_ret s), hn]
    rfl
  unfold schedulerResume
  refine wp_bind_ret hwhen (wp_bind_ret (machine_ret s) ?_)
  rw [Exec.wp_bind, Exec.wp_guarded]
  split
  · exact wp_ldst ⟨_, s.m, s.hist, rfl, .inl ⟨_, rfl⟩⟩
  · exact schedulerRun_switched s

/-- An exception for which there is a handler. -/
theorem handleException_exit {s : KState T} {p : Pid} (hp : s.m.currentProc = some p) {type : Fin 3}
    (hnew : (s.m.pool.pcbs p).excNewAreas type ≠ 0) (a : OldArea) :
    let t := (s.accounted cfg false).handed cfg p type a
    schedulerHandleException cfg type a s = .exit (t.newArea p type) (t.push (.passUp p (t.newArea p type))) := by
  let s₁ := s.accounted cfg false
  have ht : Timed s s₁ := accounted_timed cfg s false
  have hcur : s₁.m.currentProc = some p := ht.same.currentProc.trans hp
  have hnew₁ : (s₁.m.pool.pcbs p).excNewAreas type ≠ 0 := by
    rw [ht.same.excNewAreas]
    exact hnew
  let save (m : Machine T) : Machine T :=
    { m with mem := storeState m.mem ((m.pool.pcbs p).excOldAreas type) (m.oldAreas a) }
  let s₂ : KState T := { s₁ with m := save s₁.m }
  have hsaved : KM.upd save s₁ = .ret () s₂ := rfl
  intro t
  unfold schedulerHandleException
  rw [bind_ret (schedulerAccountTime_ret cfg false s), bind_ret (current_ret hcur), bind_ret (machine_ret s₁), if_pos hnew₁,
    bind_ret hsaved, bind_ret (schedulerAccountTime_ret cfg true s₂), bind_ret (machine_ret _)]
  rfl

end Bikaya.Kernel
