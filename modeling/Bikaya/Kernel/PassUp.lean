import Bikaya.Kernel.ClockRun
import Bikaya.Kernel.Direct

/-!
# Registrations

`Recorded s` : the exception areas in the PCBs are those the history says were registered. Every entry that
stays within the tables keeps it, whatever it does to the lists (`run_recorded`): only SPECPASSUP writes the areas, and
what it does with each argument is computed (`specPassUp_first`, `specPassUp_again`, `specPassUp_at`).
-/

namespace Bikaya.Model
open Bikaya.Lib

variable {T : Target}

/-- The exception areas of `p` for one type set. -/
def KState.withAreas (s : KState T) (p : Pid) (type : Fin 3) (new old : Word) : KState T :=
  s.setPcb p fun x =>
    { x with excNewAreas := Function.update x.excNewAreas type new, excOldAreas := Function.update x.excOldAreas type old }

end Bikaya.Model

namespace Bikaya.Kernel
open Bikaya.Lib Bikaya.Model Bikaya.Spec Bikaya.Refine Bikaya.Model.KM

variable {T : Target} {cfg : Cfg T}

/-! ## Readings of the history -/

/-- The observation is neither that the kernel is entered nor that a process is created. -/
def Unregistered : Obs T → Prop
  | .create _ _ => False
  | .entry _ => False
  | _ => True

section
variable {n : Obs T × Machine T} (hn : Unregistered n.1) (h : History T)
include hn

theorem registered_other (p : Pid) (type : Fin 3) : registered p type (n :: h) = registered p type h := by
  obtain ⟨o, m⟩ := n
  cases o <;> first | rfl | exact hn.elim

end

/-- Without a request there is no registration. -/
theorem registered_none {p : Pid} {type : Fin 3} {h : History T} (hnone : requested p type h = false) :
    registered p type h = (0, 0) := by
  induction h with
  | nil => rfl
  | cons n h ih =>
    obtain ⟨o, m⟩ := n
    cases o with
    | create r st =>
      have hnone : (if r = p then false else requested p type h) = false := hnone
      show (if r = p then (0, 0) else registered p type h) = _
      by_cases hr : r = p
      · rw [if_pos hr]
      · rw [if_neg hr] at hnone ⊢
        exact ih hnone
    | entry e =>
      have hnone : (if IsRequest p type e m then true else requested p type h) = false := hnone
      show (if IsRequest p type e m ∧ _ then _ else registered p type h) = _
      by_cases hr : IsRequest p type e m
      · rw [if_pos hr] at hnone
        cases hnone
      · rw [if_neg hr] at hnone
        rw [if_neg fun hc => hr hc.1]
        exact ih hnone
    | _ => exact ih hnone

theorem IsTime.unregistered {o : Obs T} (h : IsTime o) : Unregistered o := by
  cases o <;> trivial

theorem Untimed.unregistered {o : Obs T} (h : Untimed o) : Unregistered o := by
  cases o <;> trivial

/-! ## The areas in the PCBs -/

/-- The areas of every PCB are those registered. -/
def Recorded (s : KState T) : Prop :=
  ∀ p type, ((s.m.pool.pcbs p).excNewAreas type, (s.m.pool.pcbs p).excOldAreas type) = registered p type s.hist

/-- Nothing is registered. -/
def Passive : Deed → Prop
  | .account _ => True
  | .register => False
  | .enter => False
  | .semaphore => True

namespace Recorded
variable {s s' : KState T} (h : Recorded s)
include h

theorem keep (hareas : ∀ p, (s'.m.pool.pcbs p).excNewAreas = (s.m.pool.pcbs p).excNewAreas ∧
      (s'.m.pool.pcbs p).excOldAreas = (s.m.pool.pcbs p).excOldAreas)
    (hhist : ∀ p type, registered p type s'.hist = registered p type s.hist) : Recorded s' := by
  intro p type
  rw [(hareas p).1, (hareas p).2, hhist]
  exact h p type

theorem same (hs : SameRecords s s') : Recorded s' :=
  h.keep (fun p => ⟨congrArg Record.newAreas (hs.record p), congrArg Record.oldAreas (hs.record p)⟩) fun p type => by
    rw [hs.hist]

theorem push {o : Obs T} (ho : Unregistered o) : Recorded (s.push o) :=
  h.keep (fun _ => ⟨rfl, rfl⟩) fun p type => registered_other (n := (o, s.m)) ho s.hist p type

theorem timed (ht : Timed s s') : Recorded s' :=
  h.keep (fun p => ⟨ht.same.excNewAreas p, ht.same.excOldAreas p⟩) fun p type =>
    ht.reading fun _ h hn => registered_other (IsTime.unregistered hn) h p type

/-- A new PCB has no areas. -/
theorem create {p : Pid} (st : CpuState T) (hs : SameRecords (s.setPcb p fun _ => Pcb.zero) s') :
    Recorded (s'.push (.create p st)) := by
  intro r type
  have hold : s'.hist = s.hist := hs.hist
  have hrec := hs.record r
  have hnew := congrArg Record.newAreas hrec
  have hareas := congrArg Record.oldAreas hrec
  show ((s'.m.pool.pcbs r).record.newAreas type, (s'.m.pool.pcbs r).record.oldAreas type) =
    if p = r then (0, 0) else registered r type s'.hist
  rw [hnew, hareas, hold]
  show ((Function.update s.m.pool.pcbs p Pcb.zero r).excNewAreas type,
    (Function.update s.m.pool.pcbs p Pcb.zero r).excOldAreas type) = _
  by_cases hr : r = p
  · subst hr
    rw [Function.update_self, if_pos rfl]
    rfl
  · rw [Function.update_of_ne hr, if_neg fun he => hr he.symm]
    exact h r type

end Recorded

theorem recorded_act {s s' : KState T} (ha : TimeAct cfg Passive s s') (h : Recorded s) : Recorded s' := by
  cases ha with
  | frame hs => exact h.same hs
  | note o ho _ => exact h.push ho.unregistered
  | account kernel _ => exact h.timed (accounted_timed cfg s kernel)
  | read => exact h
  | quit => exact h
  | enter _ hok => exact hok.elim
  | register _ _ _ hok => exact hok.elim
  | @run s₁ s₂ p st h₁ h₂ =>
    have hrun : Recorded s₁ := (h.push (o := .run) trivial).same h₁
    have hcur : Recorded (s₁.setCurrent (some p)) := hrun
    have htick := (hcur.timed (started_timed cfg _ p)).timed (ticked_timed cfg _)
    exact (htick.same h₂).push trivial
  | create p st h₁ => exact h.create st h₁

/-! ## SPECPASSUP -/

theorem called_specPassUp (s : KState T) {e : Entry T} (hnum : (e.st T.sysArg0).toNat = 7) :
    syscallSwitch cfg (s.called cfg e) =
      (specPassUp cfg (e.st T.sysArg1) (e.st T.sysArg2) (e.st T.sysArg3) >>= setSysReturn) (s.called cfg e) := by
  have hbranch := called_switch cfg s e
  rw [hnum] at hbranch
  exact hbranch

theorem kernelStep_specPassUp {e : Entry T} (hcall : IsCall e 7) (s : KState T) : kernelStep cfg e s =
    (specPassUp cfg (e.st T.sysArg1) (e.st T.sysArg2) (e.st T.sysArg3) >>= fun r =>
      setSysReturn r >>= fun _ => schedulerResume cfg false (some .sysbk)) (s.called cfg e) := by
  obtain ⟨harea, hcause, hnum⟩ := hcall
  rw [kernelStep_syscall harea hcause, bind_same (called_specPassUp s hnum), Exec.bind_bind]

section
variable {s : KState T} {p : Pid} {w old new : Word}

/-- Nobody runs. -/
theorem specPassUp_nobody (hp : s.m.currentProc = none) : specPassUp cfg w old new s = .fault .nullDeref := by
  have hcur : KM.current s = .fault .nullDeref := by
    unfold KM.current
    rw [bind_ret (machine_ret s), hp]
    rfl
  exact bind_fault hcur

variable {type : Fin 3} (hp : s.m.currentProc = some p) (hw : w.toNat = type.val)
include hp hw

/-- A new area is there already: the caller is killed. -/
theorem specPassUp_again (hnew : (s.m.pool.pcbs p).excNewAreas type ≠ 0) :
    specPassUp cfg w old new s = (schedulerKillProcess p >>= fun _ => Pure.pure syscallFailure) s := by
  have hlt : w.toNat < 3 := hw ▸ type.isLt
  obtain rfl : type = ⟨w.toNat, hlt⟩ := Fin.ext hw.symm
  unfold specPassUp
  rw [bind_ret (current_ret hp), dif_pos hlt, bind_ret (machine_ret s), if_pos hnew]

/-- There is none: the areas are recorded. -/
theorem specPassUp_first (hnew : (s.m.pool.pcbs p).excNewAreas type = 0) :
    specPassUp cfg w old new s = .ret syscallSuccess (s.withAreas p type new old) := by
  have hlt : w.toNat < 3 := hw ▸ type.isLt
  obtain rfl : type = ⟨w.toNat, hlt⟩ := Fin.ext hw.symm
  unfold specPassUp
  rw [bind_ret (current_ret hp), dif_pos hlt, bind_ret (machine_ret s), if_neg fun h => h hnew,
    bind_ret (modifyPcb_ret p _ s), bind_ret (modifyPcb_ret p _ _)]
  show Outcome.ret syscallSuccess _ = _
  unfold KState.withAreas KState.setPcb KState.setPool
  simp only [Function.update_self, Function.update_idem]

end

/-! ## Indices -/

theorem loadWord_ret (cfg : Cfg T) (addr : Word) (s : KState T) : ∃ w, loadWord cfg addr s = .ret w s := by
  unfold loadWord
  rw [bind_ret (machine_ret s)]
  cases cfg.wordAt addr with
  | some n => exact ⟨_, rfl⟩
  | none => exact ⟨_, rfl⟩

theorem storeWord_ret (cfg : Cfg T) (addr w : Word) (s : KState T) :
    ∃ m, storeWord cfg addr w s = .ret () { s with m := m } := ⟨_, rfl⟩

/-- Whatever the index is, the call accesses the words that it points to: in range, these are the elements of the
arrays. -/
theorem specPassUp_at {s : KState T} {p : Pid} (hp : s.m.currentProc = some p) (hlt : p < maxProc) (w old new : Word) :
    specPassUp cfg w old new s = specPassUpAt cfg p w old new s := by
  by_cases hw : w.toNat < 3
  swap
  · unfold specPassUp
    rw [bind_ret (current_ret hp), dif_neg hw]
  let type : Fin 3 := ⟨w.toNat, hw⟩
  have haddr : ∀ k, cfg.pcbAddr p + BitVec.ofNat 32 k + 4 * w = cfg.pcbAddr p + BitVec.ofNat 32 (k + 4 * type.val) := by
    intro k
    rw [BitVec.add_assoc]
    congr 1
    refine BitVec.eq_of_toNat_eq ?_
    simp [type]
  obtain ⟨hnew, hold⟩ := wordAt_excAreas cfg hlt type
  have hload : ∀ t : KState T, loadWord cfg (cfg.pcbAddr p + BitVec.ofNat 32 T.excNewAreas + 4 * w) t =
      .ret ((t.m.pool.pcbs p).excNewAreas type) t := by
    intro t
    unfold loadWord
    rw [bind_ret (machine_ret t), haddr, hnew]
    rfl
  have hstoreNew : storeWord cfg (cfg.pcbAddr p + BitVec.ofNat 32 T.excNewAreas + 4 * w) new =
      KM.modifyPcb (T := T) p fun q => { q with excNewAreas := Function.update q.excNewAreas type new } := by
    funext t
    unfold storeWord
    rw [haddr, hnew]
    rfl
  have hstoreOld : storeWord cfg (cfg.pcbAddr p + BitVec.ofNat 32 T.excOldAreas + 4 * w) old =
      KM.modifyPcb (T := T) p fun q => { q with excOldAreas := Function.update q.excOldAreas type old } := by
    funext t
    unfold storeWord
    rw [haddr, hold]
    rfl
  unfold specPassUpAt specPassUp
  rw [bind_ret (hload s), bind_ret (current_ret hp), dif_pos hw, bind_ret (machine_ret s), hstoreNew, hstoreOld]

/-! ## Every entry -/

theorem Traced.recorded {α : Type} {x : KM T α} (hx : Traced cfg Passive x) {s : KState T} (h : Recorded s) :
    Exec.wp x (fun _ s' => Recorded s') (fun _ s' => Recorded s') (fun _ => True) s :=
  Exec.wp_mono (hx s) (fun _ _ ht => ht.keeps recorded_act h) (fun _ _ ht => ht.keeps recorded_act h) fun _ h => h

/-- An entry requests one thing. -/
theorem IsRequest.unique {e : Entry T} {m : Machine T} {p r : Pid} {type t : Fin 3} (h : IsRequest r t e m)
    (h' : IsRequest p type e m) : r = p ∧ t = type :=
  ⟨Option.some.inj (h.2.1.symm.trans h'.2.1), Fin.ext (h.2.2.symm.trans h'.2.2)⟩

/-- What the call of an entry adds to the registrations. -/
theorem called_registered (cfg : Cfg T) (s : KState T) (e : Entry T) (p : Pid) (type : Fin 3) :
    registered p type (s.called cfg e).hist =
      if IsRequest p type e s.m ∧ (registered p type s.hist).1 = 0 then (e.st T.sysArg3, e.st T.sysArg2)
      else registered p type s.hist :=
  (accounted_timed cfg (s.entered e) false).reading fun _ h hn => registered_other (IsTime.unregistered hn) h p type

/-- Up to the `switch` the areas stay. -/
theorem called_areas (cfg : Cfg T) (s : KState T) (e : Entry T) (p : Pid) :
    ((s.called cfg e).m.pool.pcbs p).excNewAreas = (s.m.pool.pcbs p).excNewAreas ∧
    ((s.called cfg e).m.pool.pcbs p).excOldAreas = (s.m.pool.pcbs p).excOldAreas :=
  have h := (accounted_timed cfg (s.entered e) false).same
  ⟨h.excNewAreas p, h.excOldAreas p⟩

theorem called_currentProc (cfg : Cfg T) (s : KState T) (e : Entry T) :
    (s.called cfg e).m.currentProc = s.m.currentProc := (accounted_timed cfg (s.entered e) false).same.currentProc

/-- An entry that requests nothing new. -/
theorem Recorded.entered {s : KState T} (h : Recorded s) {e : Entry T}
    (hnone : ∀ p type, IsRequest p type e s.m → (s.m.pool.pcbs p).excNewAreas type ≠ 0) : Recorded (s.entered e) := by
  refine h.keep (fun _ => ⟨rfl, rfl⟩) fun p type => if_neg fun hc => ?_
  obtain ⟨hreq, hzero⟩ := hc
  have hzero : (registered p type s.hist).1 = 0 := hzero
  rw [← h p type] at hzero
  exact hnone p type hreq hzero

/-- The areas of a first request are recorded. -/
theorem Recorded.first {s : KState T} (h : Recorded s) {e : Entry T} {p : Pid} {type : Fin 3}
    (hreq : IsRequest p type e s.m) (hnew : (s.m.pool.pcbs p).excNewAreas type = 0) :
    Recorded ((s.called cfg e).withAreas p type (e.st T.sysArg3) (e.st T.sysArg2)) := by
  intro r t
  have hzero : (registered p type s.hist).1 = 0 := by
    rw [← h p type]
    exact hnew
  have hrest : ∀ r' t', ((s.called cfg e).m.pool.pcbs r').excNewAreas t' = (registered r' t' s.hist).1 ∧
      ((s.called cfg e).m.pool.pcbs r').excOldAreas t' = (registered r' t' s.hist).2 := by
    intro r' t'
    rw [(called_areas cfg s e r').1, (called_areas cfg s e r').2, ← h r' t']
    exact ⟨rfl, rfl⟩
  have hhist : ((s.called cfg e).withAreas p type (e.st T.sysArg3) (e.st T.sysArg2)).hist = (s.called cfg e).hist := rfl
  rw [hhist, called_registered]
  show ((Function.update (s.called cfg e).m.pool.pcbs p _ r).excNewAreas t,
    (Function.update (s.called cfg e).m.pool.pcbs p _ r).excOldAreas t) = _
  by_cases hr : r = p
  · subst hr
    rw [Function.update_self]
    show (Function.update ((s.called cfg e).m.pool.pcbs r).excNewAreas type (e.st T.sysArg3) t,
      Function.update ((s.called cfg e).m.pool.pcbs r).excOldAreas type (e.st T.sysArg2) t) = _
    by_cases ht : t = type
    · subst ht
      rw [Function.update_self, Function.update_self, if_pos ⟨hreq, hzero⟩]
    · rw [Function.update_of_ne ht, Function.update_of_ne ht,
        if_neg fun hc => ht (IsRequest.unique hc.1 hreq).2, (hrest r t).1,
        (hrest r t).2]
  · rw [Function.update_of_ne hr, if_neg fun hc => hr (IsRequest.unique hc.1 hreq).1, (hrest r t).1, (hrest r t).2]

theorem step_recorded {s s' : KState T} {e : Entry T} {st : CpuState T} (hbounds : InBounds cfg e) (h : Recorded s)
    (hk : kernelStep cfg e s = .exit st s') : Recorded s' := by
  by_cases hcall : IsCall e 7
  · let s₁ := s.called cfg e
    -- what comes after the registration registers nothing
    have hafter : ∀ (r : Word) {s : KState T}, Recorded s →
        Exec.wp (setSysReturn r >>= fun _ => schedulerResume cfg false (some .sysbk)) (fun _ s' => Recorded s')
          (fun _ s' => Recorded s') (fun _ => True) s := fun r _ hs =>
      Traced.recorded ((Traced.setSysReturn r).bind fun _ => Traced.schedulerResume trivial _ _) hs
    have hwp : Exec.wp (kernelStep cfg e) (fun _ s' => Recorded s') (fun _ s' => Recorded s') (fun _ => True) s := by
      refine wp_same (kernelStep_specPassUp hcall s) ?_
      cases hp : s₁.m.currentProc with
      | none => exact wp_of_fault (bind_fault (specPassUp_nobody hp))
      | some p =>
        have hlt : (e.st T.sysArg1).toNat < 3 := hbounds.excType hcall
        let type : Fin 3 := ⟨(e.st T.sysArg1).toNat, hlt⟩
        have hreq : IsRequest p type e s.m := ⟨hcall, (called_currentProc cfg s e).symm.trans hp, rfl⟩
        have hareas : (s₁.m.pool.pcbs p).excNewAreas type = (s.m.pool.pcbs p).excNewAreas type :=
          congrFun (called_areas cfg s e p).1 type
        by_cases hnew : (s.m.pool.pcbs p).excNewAreas type = 0
        · refine wp_bind_ret (specPassUp_first hp hreq.2.2 (hareas.trans hnew)) ?_
          exact hafter syscallSuccess (h.first hreq hnew)
        · have hentered : Recorded (s.entered e) := h.entered fun r t hr => by
            obtain ⟨rfl, rfl⟩ := IsRequest.unique hr hreq
            exact hnew
          have hs₁ : Recorded s₁ := by
            have hacc := hentered.timed (accounted_timed cfg (s.entered e) false)
            exact hacc
          have hkill : Traced cfg Passive (schedulerKillProcess p >>= fun _ => Pure.pure syscallFailure) :=
            (Traced.schedulerKillProcess p).bind fun _ => Traced.pure _
          rw [Exec.wp_bind]
          refine wp_same (specPassUp_again hp hreq.2.2 fun hz => hnew (hareas.symm.trans hz)) ?_
          exact Exec.wp_conseq (hkill.recorded hs₁) fun r _ hs => hafter r hs
    unfold Exec.wp at hwp
    rw [hk] at hwp
    exact hwp
  · have hok : Permits Passive e := ⟨trivial, fun _ => trivial, fun hc => hcall hc, fun _ => trivial⟩
    have hentered : Recorded (s.entered e) := h.entered fun _ _ hr => absurd hr.1 hcall
    exact (step_times hbounds hok hk).keeps recorded_act (hentered.timed (accounted_timed cfg (s.entered e) false))

/-- The areas in the PCBs in every run. -/
theorem run_recorded {ok : KState T → Entry T → Prop} (hbounds : ∀ {s e}, ok s e → InBounds cfg e) {s : KState T}
    (h : Run cfg ok s) : Recorded s := by
  induction h with
  | boot hb => exact (boot_times hb).keeps recorded_act fun _ _ => rfl
  | step e _ he hk ih => exact step_recorded (hbounds he) ih hk

end Bikaya.Kernel
