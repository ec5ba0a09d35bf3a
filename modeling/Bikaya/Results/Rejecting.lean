import Bikaya.Kernel.Direct
import Bikaya.Kernel.Replay
import Bikaya.Refine.Reading

/-!
# TERMINATEPROCESS rejects the PCBs on the free list

`terminate_process` fails, and changes nothing, if and only if its argument is the address of a PCB that is met on a
walk over the free list (`rejects_iff`). A pid outlives its process: once the PCB has been allocated again, the pid
of the dead process ends the new one.
-/

namespace Bikaya.Results
open Bikaya.Lib Bikaya.Model Bikaya.Spec Bikaya.Refine Bikaya.Kernel Bikaya.Model.KM

variable {T : Target} {cfg : Cfg T}

/-- The call returns SYSCALL_FAILURE to its caller and leaves the lists, the semaphores, the process tree and every
process as they were, but for the time of the caller. -/
def Rejects (cfg : Cfg T) (e : Entry T) (s : KState T) : Prop :=
  ∃ st s', kernelStep cfg e s = .exit st s' ∧ st = (adjusted e).setReturn syscallFailure ∧
    (∃ h, s'.hist = (.resume st, s'.m) :: h) ∧
    SameButTime { s.m with oldAreas := s'.m.oldAreas, oldState := s'.m.oldState, mem := e.mem, hw := e.hw } s'.m

/-! ## Looking for a PCB on the free list -/

theorem searchFrom_isEntry {pool : Pool T} {h : Node} {p : Pid} : ∀ {n : Nat} {a : Option Node},
    searchFrom pool.links h (isEntry p pool) n a = .ok (some (.pNext p)) ↔ Node.pNext p ∈ walkFrom pool.links h n a := by
  intro n
  induction n with
  | zero => intro a; simp [searchFrom, walkFrom]
  | succ n ih =>
    intro a
    cases a with
    | none => simp [searchFrom, walkFrom]
    | some x =>
      unfold walkFrom
      unfold searchFrom
      by_cases hx : x = h
      · rw [if_pos hx, if_pos hx]
        simp
      · rw [if_neg hx, if_neg hx, List.mem_cons, ← ih]
        by_cases hp : x = .pNext p
        · simp [isEntry, hp]
        · simp [isEntry, hp, Ne.symm hp]

/-- What a search finds passes the test. -/
theorem searchFrom_found {pool : Pool T} {h x : Node} {p : Pid} : ∀ {n : Nat} {a : Option Node},
    searchFrom pool.links h (isEntry p pool) n a = .ok (some x) → x = .pNext p := by
  intro n
  induction n with
  | zero => intro a hs; simp [searchFrom] at hs
  | succ n ih =>
    intro a hs
    cases a with
    | none => simp [searchFrom] at hs
    | some y =>
      unfold searchFrom at hs
      by_cases hy : y = h
      · simp [hy] at hs
      · have htest : isEntry p pool y = some (decide (y = .pNext p)) := rfl
        rw [if_neg hy, htest] at hs
        by_cases hp : y = .pNext p
        · rw [decide_eq_true hp] at hs
          exact hp ▸ (Option.some.inj (Except.ok.inj hs)).symm
        · rw [decide_eq_false hp] at hs
          exact ih hs

theorem pcbIsFree_met {m : Machine T} {p : Pid} (h : OnFreeWalk m p) : pcbIsFree p m.pool = .ret true m.pool := by
  have hs : listSearch .pcbFree (isEntry p) m.pool = .ret (some (.pNext p)) m.pool := by
    unfold listSearch
    rw [searchFrom_isEntry.mpr h]
  unfold pcbIsFree
  rw [bind_ret hs]
  rfl

theorem pcbIsFree_not_met {m : Machine T} {p : Pid} (h : ¬ OnFreeWalk m p) :
    pcbIsFree p m.pool = .ret false m.pool ∨ ∃ f, pcbIsFree p m.pool = .fault f := by
  cases hs : searchFrom m.pool.links .pcbFree (isEntry p m.pool) walkFuel (m.pool.links.next .pcbFree) with
  | error f =>
    have hl : listSearch .pcbFree (isEntry p) m.pool = .fault f := by
      unfold listSearch
      rw [hs]
    right
    refine ⟨f, ?_⟩
    unfold pcbIsFree
    exact bind_fault hl
  | ok r =>
    have hl : listSearch .pcbFree (isEntry p) m.pool = .ret r m.pool := by
      unfold listSearch
      rw [hs]
    cases r with
    | none =>
      left
      unfold pcbIsFree
      rw [bind_ret hl]
      rfl
    | some x =>
      obtain rfl := searchFrom_found hs
      exact absurd (searchFrom_isEntry.mp hs) h

/-! ## The call -/

theorem called_terminateProcess (s : KState T) {e : Entry T} (hnum : (e.st T.sysArg0).toNat = 3) :
    syscallSwitch cfg (s.called cfg e) = (terminateProcess cfg (e.st T.sysArg1) >>= setSysReturn) (s.called cfg e) := by
  have hbranch := called_switch cfg s e
  rw [hnum] at hbranch
  exact hbranch

/-- `terminate_process`, with an argument. -/
theorem terminateProcess_eq {s : KState T} {w : Word} {p : Pid} (hnull : w ≠ 0) (hp : cfg.pcbAt w = some p) :
    terminateProcess cfg w s = (KM.pool (pcbIsFree p) >>= fun free =>
      if free = true then Pure.pure syscallFailure else schedulerKillProcess p >>= fun _ => Pure.pure syscallSuccess) s := by
  have hterm : terminated cfg w s = .ret (some p) s := by
    unfold terminated
    rw [if_neg hnull, hp]
    rfl
  unfold terminateProcess
  rw [bind_ret hterm]

theorem kernelStep_terminateProcess {e : Entry T} (hcall : IsCall e 3) (s : KState T) : kernelStep cfg e s =
    (terminateProcess cfg (e.st T.sysArg1) >>= fun r => setSysReturn r >>= fun _ =>
      schedulerResume cfg false (some .sysbk)) (s.called cfg e) := by
  obtain ⟨harea, hcause, hnum⟩ := hcall
  rw [kernelStep_syscall harea hcause, bind_same (called_terminateProcess s hnum), Exec.bind_bind]

/-- A PCB on the free list is refused. -/
theorem rejects_of_met {s : KState T} {e : Entry T} {c p : Pid} (hc : s.m.currentProc = some c) (hcall : IsCall e 3)
    (hnull : e.st T.sysArg1 ≠ 0) (hp : cfg.pcbAt (e.st T.sysArg1) = some p) (hmet : OnFreeWalk s.m p) :
    Rejects cfg e s := by
  let s₁ := s.called cfg e
  have hsame := called_same cfg s e
  have hcur : s₁.m.currentProc = some c := hsame.currentProc.trans hc
  have hmet₁ : OnFreeWalk s₁.m p := by
    unfold OnFreeWalk
    rw [show s₁.m.pool.links = s.m.pool.links from hsame.links]
    exact hmet
  have hterm : terminateProcess cfg (e.st T.sysArg1) s₁ = .ret syscallFailure s₁ := by
    rw [terminateProcess_eq hnull hp, bind_ret (pool_ret (pcbIsFree_met hmet₁)), if_pos rfl]
    rfl
  obtain ⟨s', hexit, hlast, hsame'⟩ := sysReturn_exit cfg hcur syscallFailure
  refine ⟨_, s', ?_, ?_, hlast, ?_⟩
  · rw [kernelStep_terminateProcess hcall, bind_ret hterm]
    exact hexit
  · rw [adjusted_syscall hcall.1 hcall.2.1, called_area]
  · exact hsame.result hsame'

/-- The kernel goes back to the caller of a failed TERMINATEPROCESS. -/
def Failed (e : Entry T) (st : CpuState T) (s' : KState T) : Prop :=
  st = (adjusted e).setReturn syscallFailure ∧ ∃ h, s'.hist = (.resume st, s'.m) :: h

/-- The kernel goes on to another process. -/
theorem switched_not_failed (cfg : Cfg T) (e : Entry T) {s : KState T} (hn : s.m.currentProc = none) :
    Exec.wp (schedulerResume cfg false (some .sysbk)) (fun _ _ => True) (fun st s' => ¬ Failed e st s') (fun _ => True)
      s := by
  refine Exec.wp_mono (schedulerResume_switched hn _ _) (fun _ _ h => h.elim) (fun st s' h => ?_) fun _ h => h
  intro hf
  obtain ⟨-, rest, hhist⟩ := hf
  rcases h.last hhist with ⟨_, h⟩ | ⟨_, _, h⟩ <;> cases h

/-- After a success the caller, if it goes on, is told so. -/
theorem success_not_failed (cfg : Cfg T) (e : Entry T) (s : KState T) :
    Exec.wp (setSysReturn syscallSuccess >>= fun _ => schedulerResume cfg false (some .sysbk)) (fun _ _ => True)
      (fun st s' => ¬ Failed e st s') (fun _ => True) s := by
  cases hc : s.m.currentProc with
  | some c =>
    obtain ⟨s', hexit, -, -⟩ := sysReturn_exit cfg hc syscallSuccess
    refine wp_same (y := Exec.exit _) (t := s') hexit ((Exec.wp_exit _).mpr fun hf => ?_)
    have hreg := congrFun hf.1 T.sysReturn
    unfold CpuState.setReturn at hreg
    rw [Function.update_self, Function.update_self] at hreg
    exact absurd hreg (by decide)
  | none =>
    let s₁ := s.setAreas (Function.update s.m.oldAreas .sysbk ((s.m.oldAreas .sysbk).setReturn syscallSuccess)) s.m.oldState
    have hn : s₁.m.currentProc = none := hc
    exact wp_bind_ret (setSysReturn_ret _ s) (switched_not_failed cfg e hn)

/-- An argument that is no PCB on the free list is not refused. -/
theorem not_rejects {s : KState T} {e : Entry T} (hcall : IsCall e 3) (hnull : e.st T.sysArg1 ≠ 0)
    (hmet : ∀ p, cfg.pcbAt (e.st T.sysArg1) = some p → ¬ OnFreeWalk s.m p) : ¬ Rejects cfg e s := by
  let s₁ := s.called cfg e
  have hterm : Exec.wp (terminateProcess cfg (e.st T.sysArg1)) (fun r _ => r = syscallSuccess) (fun _ _ => False)
      (fun _ => True) s₁ := by
    cases hp : cfg.pcbAt (e.st T.sysArg1) with
    | none =>
      have hbeyond : terminated cfg (e.st T.sysArg1) s₁ = .ret none s₁ := by
        unfold terminated
        rw [if_neg hnull, hp]
        rfl
      unfold terminateProcess
      refine wp_bind_ret hbeyond ?_
      unfold killBeyond
      rw [Exec.wp_bind]
      refine wp_bind_ret (machine_ret s₁) ?_
      cases cfg.beyond.killTree (e.st T.sysArg1) s₁.m with
      | none => exact (Exec.wp_fault _).mpr trivial
      | some m => exact wp_bind_ret (a := m) (t := s₁) rfl (wp_ret (a := ()) rfl ((Exec.wp_pure _).mpr rfl))
    | some p =>
      have hnot : ¬ OnFreeWalk s₁.m p := by
        unfold OnFreeWalk
        rw [show s₁.m.pool.links = s.m.pool.links from (called_same cfg s e).links]
        exact hmet p hp
      refine wp_same (terminateProcess_eq hnull hp) ?_
      rcases pcbIsFree_not_met hnot with hret | ⟨f, hfault⟩
      · refine wp_bind_ret (pool_ret hret) ?_
        exact (NoExit.schedulerKillProcess p).wp_bind fun _ _ => (Exec.wp_pure _).mpr rfl
      · have hpool : KM.pool (pcbIsFree p) s₁ = .fault f := by
          unfold KM.pool Exec.zoom
          rw [hfault]
        exact wp_of_fault (bind_fault hpool)
  have hwp : Exec.wp (kernelStep cfg e) (fun _ _ => True) (fun st s' => ¬ Failed e st s') (fun _ => True) s := by
    refine wp_same (kernelStep_terminateProcess hcall s) ?_
    rw [Exec.wp_bind]
    refine Exec.wp_mono hterm (fun r s₂ hr => ?_) (fun _ _ h => h.elim) fun _ h => h
    subst hr
    exact success_not_failed cfg e s₂
  intro h
  obtain ⟨st, s', hk, hst, hlast, -⟩ := h
  unfold Exec.wp at hwp
  rw [hk] at hwp
  exact hwp ⟨hst, hlast⟩

/-! ## Dormant PCBs -/

theorem pcbAt_lt {w : Word} {p : Pid} (h : cfg.pcbAt w = some p) : p < maxProc := by
  unfold Cfg.pcbAt at h
  dsimp only at h
  split at h
  next hin =>
    cases h
    exact hin.2
  next => cases h

/-- The free PCBs are those that have not come to life since they were freed. -/
def FreeDormant (s : KState T) (q : Queues) : Prop := ∀ p < maxProc, p ∈ q.free ↔ dormant p s.hist = true

theorem FreeDormant.same {s s' : KState T} {q q' : Queues} (h : FreeDormant s q) (hq : q'.free = q.free)
    (hh : ∀ p, dormant p s'.hist = dormant p s.hist) : FreeDormant s' q' := by
  intro p hp
  rw [hq, hh]
  exact h p hp

theorem dormant_time {n : Obs T × Machine T} {h : History T} (hn : IsTime n.1) (p : Pid) :
    dormant p (n :: h) = dormant p h := by
  obtain ⟨o, m⟩ := n
  cases o <;> first | rfl | exact hn.elim

theorem freeDormant_act {s s' : KState T} {q q' : Queues} {out : List Pid} (hs : Sound s.m.pool q out)
    (ha : Act cfg s q s' q') (h : FreeDormant s q) : FreeDormant s' q' := by
  have htimed : ∀ {s s' : KState T}, Timed s s' → ∀ p, dormant p s'.hist = dormant p s.hist := fun ht p =>
    ht.reading fun _ _ hn => dormant_time hn p
  cases ha with
  | time ht => exact h.same rfl (htimed ht)
  | areas | output | register | adopt | quit => exact h.same rfl fun _ => rfl
  | resume | passUp | idle | verhogen | passeren => exact h.same rfl fun _ => rfl
  | preempt | handOver => exact h.same rfl fun _ => rfl
  | dispatch _ ht => exact h.same rfl fun p => htimed ht p
  | @block s₁ s₂ _ p key st pool _ _ _ hb ht _ _ =>
    refine h.same rfl fun r => ?_
    show dormant r s₂.hist = _
    rw [htimed ht r]
    cases hb with
    | passeren => rfl
    | waitIo command device subdev _ =>
      show dormant r ((s.push (.waitIo p (commandAddr T device subdev) command)).commanded _ command).hist = _
      rw [commanded_hist]
      rfl
  | serve hf hfn _ =>
    refine h.same rfl fun r => ?_
    rw [commanded_fn hfn]
    rfl
  | @spawn _ p rest st prio l l' hf _ =>
    intro r hr
    show r ∈ q.free.tail ↔ (if p = r then false else dormant r s.hist) = true
    obtain ⟨asl, sf, hrep⟩ := hs.rep
    have hnd := hrep.free_nodup
    rw [hf] at hnd ⊢
    have hr := h r hr
    rw [hf, List.mem_cons] at hr
    show r ∈ rest ↔ _
    by_cases he : p = r
    · subst he
      rw [if_pos rfl]
      simp [(List.nodup_cons.mp hnd).1]
    · rw [if_neg he, ← hr]
      exact ⟨.inr, fun hm => hm.resolve_left fun h => he h.symm⟩
  | @bury _ p pool _ _ _ _ =>
    intro r hr
    show r ∈ p :: q.free ↔ (if p = r then true else dormant r s.hist) = true
    rw [List.mem_cons, h r hr]
    by_cases he : p = r
    · simp [he]
    · simp [he, Ne.symm he]

/-- In a lawful run the free list holds the dormant PCBs. -/
theorem run_freeDormant {s : KState T} (h : Run cfg (Lawful cfg) s) {p : Pid} (hp : p < maxProc) :
    OnFreeWalk s.m p ↔ dormant p s.hist = true := by
  have hinit : ∀ {s q}, Initial cfg s q → FreeDormant s q := by
    intro s q hi r hr
    rw [hi.queues, hi.hist]
    show r ∈ (List.range maxProc).reverse ↔ true = true
    simp [hr]
  obtain ⟨q, hb, hI⟩ := run_keeps (I := FreeDormant) id hinit (fun _ _ hI => hI.same rfl fun _ => rfl)
    (fun hs _ ha hI => freeDormant_act hs ha hI) h
  rw [hb.sound.rep.onFreeWalk_iff, hb.sound.rep.freeList_eq]
  exact hI p hp

/-! ## The condition -/

/-- A TERMINATEPROCESS with an argument is refused if and only if that is the address of a PCB on the free list; in
lawful runs, of one that has not come to life since it was freed. -/
theorem rejects_iff {s : KState T} {e : Entry T} {c : Pid} (hc : s.m.currentProc = some c) (hcall : IsCall e 3)
    (hnull : e.st T.sysArg1 ≠ 0) :
    (Rejects cfg e s ↔ ∃ p, cfg.pcbAt (e.st T.sysArg1) = some p ∧ OnFreeWalk s.m p) ∧
    (Run cfg (Lawful cfg) s → ∀ p, cfg.pcbAt (e.st T.sysArg1) = some p →
      (OnFreeWalk s.m p ↔ dormant p s.hist = true)) := by
  refine ⟨⟨fun h => ?_, fun h => ?_⟩, fun hrun p hp => run_freeDormant hrun (pcbAt_lt hp)⟩
  · by_contra hnone
    exact not_rejects hcall hnull (fun p hp hmet => hnone ⟨p, hp, hmet⟩) h
  · obtain ⟨p, hp, hmet⟩ := h
    exact rejects_of_met hc hcall hnull hp hmet

/-- The child of the first process runs, and the first process has its pid. -/
def childKnown : KState .umps := after demo (booted demo) (syscall (booted demo) 2 0 1 0x20010000)

/-- The child has ended itself, and the first process runs again. -/
def childDead : KState .umps :=
  let s := after demo childKnown (timer childKnown)
  after demo s (syscall s 3 0 0 0)

theorem run_childDead : Run demo (fun _ _ => True) childDead :=
  run_after (run_after (run_after (run_booted demo _) trivial (by decide +kernel)) trivial (by decide +kernel)) trivial
    (by decide +kernel)

/-- The pid of the dead child is refused. -/
theorem rejects_childDead :
    (Rejects demo (syscall childDead 3 (demo.pcbAddr 18) 0 0) childDead ↔
      ∃ p, demo.pcbAt (demo.pcbAddr 18) = some p ∧ OnFreeWalk childDead.m p) ∧
    (Run demo (Lawful demo) childDead → ∀ p, demo.pcbAt (demo.pcbAddr 18) = some p →
      (OnFreeWalk childDead.m p ↔ dormant p childDead.hist = true)) :=
  rejects_iff (c := 19) (by decide +kernel) ⟨rfl, by decide, by decide⟩ (by decide)

/-! ## A pid used again -/

/-- A process with this pid has been killed. -/
def PidOfDead (cfg : Cfg T) (w : Word) (h : History T) : Prop := ∃ p m, cfg.pcbAt w = some p ∧ (.bury p, m) ∈ h

/-- The first process has created another, in the PCB of its dead child. -/
def reborn : KState .umps := after demo childDead (syscall childDead 2 0 1 0)

/-- The pid of the dead child ends the new process. -/
theorem rejects_fails : ¬ ∀ (s : KState .umps) (e : Entry .umps) (c : Pid), Run demo (fun _ _ => True) s →
    s.m.currentProc = some c → IsCall e 3 → e.st Target.umps.sysArg1 ≠ 0 →
    PidOfDead demo (e.st Target.umps.sysArg1) s.hist → Rejects demo e s := by
  intro h
  let e := syscall reborn 3 (demo.pcbAddr 18) 0 0
  have hcall : IsCall e 3 := ⟨rfl, by decide, by decide⟩
  have hpid : demo.pcbAt (e.st Target.umps.sysArg1) = some 18 := by decide
  have hdead : ∃ m, (.bury 18, m) ∈ reborn.hist := by
    let test (o : Obs .umps) : Bool := match o with
      | .bury p => decide (p = 18)
      | _ => false
    have htest : ∀ o, test o = true → o = .bury 18 := by
      intro o ho
      cases o <;> simp [test] at ho
      rw [ho]
    exact exists_mem_hist htest (by decide +kernel)
  obtain ⟨m, hm⟩ := hdead
  have hrun : Run demo (fun _ _ => True) reborn := run_after run_childDead trivial (by decide +kernel)
  have hnot : ∀ p, demo.pcbAt (e.st Target.umps.sysArg1) = some p → ¬ OnFreeWalk reborn.m p := by
    intro p hp
    obtain rfl : 18 = p := Option.some.inj (hpid.symm.trans hp)
    decide +kernel
  exact not_rejects hcall (by decide) hnot (h reborn e 19 hrun (by decide +kernel) hcall (by decide) ⟨18, m, hpid, hm⟩)

end Bikaya.Results
