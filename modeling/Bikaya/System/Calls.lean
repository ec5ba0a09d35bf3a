import Bikaya.System.Shows

/-!
# The scheduler and the system calls, on systems

From a state that shows `S`, `scheduler_resume` leaves the kernel as `Leave` says, an exception is handled as `Handle`
says, and the `switch` of `syscall_handler` does a `Call`, or faults where there is no such call.
-/

namespace Bikaya.Kernel
open Bikaya.Lib Bikaya.Model Bikaya.Spec Bikaya.Refine Bikaya.Model.KM

variable {T : Target} {cfg : Cfg T} {s s' : KState T} {q q' : Queues} {S S' : System T}
  {E : CpuState T → KState T → Prop} {F : Fault → Prop}

/-- The state shows a system with the property `P`, and all processes but the current one are in lists. -/
def Ends (cfg : Cfg T) (P : System T → Prop) (s : KState T) : Prop :=
  ∃ q S, Shows cfg s q s.m.currentProc.toList S ∧ P S

theorem Shows.ends {P : System T → Prop} (h : Shows cfg s q s.m.currentProc.toList S) (hP : P S) : Ends cfg P s :=
  ⟨q, S, h, hP⟩

theorem Shows.timed (h : Shows cfg s q s.m.currentProc.toList S) (ht : Timed s s') :
    Shows cfg s' q s'.m.currentProc.toList S := by
  rw [ht.same.currentProc]
  exact h.time ht

/-! ## Leaving the kernel -/

/-- `scheduler_run` with nobody outside the lists; what `current_proc` was does not matter. -/
theorem schedulerRun_dispatch (h : Shows cfg s q [] S) (hne : S.ready ≠ []) (r : Option Pid) :
    Exec.wp (schedulerRun cfg) (fun _ _ => False)
      (fun st s' => Ends cfg (Dispatch cfg { S with running := r } st) s') F s := by
  obtain ⟨p, rest, hready⟩ := List.exists_cons_of_ne_nil hne
  have hpr : q.ready = p :: rest := h.ready.symm.trans hready
  have hp : q.Queued p := Or.inr (Or.inl (hpr ▸ List.mem_cons_self))
  have hlive := h.sound.alive (Or.inr (Or.inl (hpr ▸ List.mem_cons_self)))
  have hplaced : Placed { q with ready := rest } [p] :=
    h.sound.placed.lift hp rfl (queued_pop_ready h.sound.rep.apart hpr h.sound.placed.heads)
  have htree : Tree { q with ready := rest } := h.sound.tree.congr rfl fun _ => Iff.rfl
  refine schedulerRun_first h.sound.rep hpr fun l s₂ hrep ht => ?_
  have hcur : s₂.m.currentProc = some p := ht.same.currentProc
  have h₁ : Shows cfg (((s.push .run).relink l).setCurrent (some p)) { q with ready := rest } [p]
      { S with ready := rest, running := some p } := by
    refine ⟨⟨hrep, hplaced, htree⟩, ?_, h.idle⟩
    rw [← h.system]
    rfl
  have h₂ := (h₁.time ht).push (.dispatch p (s₂.m.pool.pcbs p).pS)
  refine Shows.ends (q := { q with ready := rest }) (S := { S with ready := rest, running := some p }) ?_ ?_
  · change Shows cfg _ _ s₂.m.currentProc.toList _
    rw [hcur]
    exact h₂
  · have hpS : (s₂.m.pool.pcbs p).pS = (procOf (s.m.pool.pcbs p)).context := ht.same.pS p
    rw [hpS]
    exact .load hready (h.process hlive)

/-- `scheduler_resume`; `a` is the old area of the running process. -/
theorem schedulerResume_leave (h : Shows cfg s q s.m.currentProc.toList S) (ended : Bool) (old : Option OldArea)
    {a : OldArea} (hold : S.running ≠ none → old = some a) :
    Exec.wp (schedulerResume cfg ended old) (fun _ _ => False)
      (fun st s' => Ends cfg (Leave cfg S ended (s.m.oldAreas a) st) s') F s := by
  unfold schedulerResume whenCurrent
  rw [Exec.wp_bind]
  refine wp_bind_ret (machine_ret s) ?_
  cases hp : s.m.currentProc with
  | none =>
    have hrun : S.running = none := h.running.trans hp
    rw [hp] at h
    refine wp_ret (a := ()) (t := s) rfl (wp_bind_ret (machine_ret s) ?_)
    rw [Exec.wp_bind, Exec.wp_guarded, h.sound.rep.listEmpty_ready]
    by_cases hr : q.ready = []
    · rw [if_pos (List.isEmpty_iff.mpr hr), h.idle]
      refine wp_ldst (Shows.ends (q := q) (S := S) ?_ (.dispatch hrun (.idle (h.ready.trans hr))))
      change Shows cfg _ q s.m.currentProc.toList S
      rw [hp]
      exact h.push _
    · rw [if_neg fun he => hr (List.isEmpty_iff.mp he)]
      have hwp := schedulerRun_dispatch (F := F) h (fun he => hr (h.ready.symm.trans he)) none
      refine Exec.wp_mono hwp (fun _ _ hf => hf) (fun st s' hs' => ?_) fun _ hf => hf
      obtain ⟨q', S', h', hd⟩ := hs'
      rw [← hrun] at hd
      exact h'.ends (.dispatch hrun hd)
  | some p =>
    have hrun : S.running = some p := h.running.trans hp
    obtain rfl := hold (by rw [hrun]; exact Option.some_ne_none p)
    rw [hp] at h
    change Exec.wp (resumeCurrent cfg ended (some a) p) _ _ _ _
    unfold resumeCurrent
    refine wp_bind_time (.schedulerAccountTime cfg true) fun _ s₁ ht => ?_
    have h₁ := h.time ht
    have harea : s.m.oldAreas a = s₁.m.oldAreas a := congrFun ht.same.oldAreas.symm a
    rw [harea]
    cases hend : ended with
    | false =>
      simp only [Exec.guarded, Bool.not_false, if_true]
      refine wp_bind_exits (wp_bind_ret (oldStateOf_ret a s₁) (wp_ldst (Shows.ends (q := q) (S := S) ?_ (.resume hrun rfl))))
      change Shows cfg _ q s₁.m.currentProc.toList S
      rw [show s₁.m.currentProc = some p from ht.same.currentProc.trans hp]
      exact h₁.push _
    | true =>
      obtain ⟨l, hret, hs₂⟩ := preempt_ret cfg h₁.sound a
      have h₂ : Shows cfg ((s₁.expired cfg q.ready p (s₁.m.oldAreas a)).enqueued p l)
          (q.enqueue ((s₁.expired cfg q.ready p (s₁.m.oldAreas a)).resetPrio p).prio p) []
          (((S.age cfg.prio).save p (s₁.m.oldAreas a)).wake p) :=
        ((h₁.age.push .expire).save p (s₁.m.oldAreas a)).enqueued hs₂
      have hne : (((S.age cfg.prio).save p (s₁.m.oldAreas a)).wake p).ready ≠ [] := insertPrio_ne_nil _ _ _
      refine wp_bind_ret (a := ()) (t := s₁) rfl (wp_ret hret (wp_bind_ret (machine_ret _) ?_))
      rw [Exec.wp_bind, Exec.wp_guarded, hs₂.rep.listEmpty_ready,
        if_neg fun he => hne (h₂.ready.trans (List.isEmpty_iff.mp he))]
      have hwp := schedulerRun_dispatch (F := F) h₂ hne none
      refine Exec.wp_mono hwp (fun _ _ hf => hf) (fun st s' hs' => ?_) fun _ hf => hf
      obtain ⟨q', S', h', hd⟩ := hs'
      exact h'.ends (.preempt hrun rfl hd)

/-! ## Blocking and exceptions -/

/-- `scheduler_block_current`, as PASSEREN and WAITIO call it. -/
theorem blockOn_ret {p : Pid} {a : OldArea} (h : Shows cfg s q s.m.currentProc.toList S) (hp : S.running = some p)
    (hold : s.m.oldState = some a) (key : Key) :
    ∃ s' q', blockOn cfg key s = .ret () s' ∧ s'.m.oldAreas = s.m.oldAreas ∧
      Shows cfg s' q' s'.m.currentProc.toList (S.block p key (s.m.oldAreas a)) := by
  have hcur : s.m.currentProc = some p := h.running.symm.trans hp
  rw [hcur] at h
  obtain ⟨⟨⟩, s₂, hacc, ht⟩ := TimeOnly.schedulerAccountTime cfg true (s.setPcb p fun x => { x with pS := s.m.oldAreas a })
  have h₂ := (h.save p (s.m.oldAreas a)).time ht
  obtain ⟨pool', q', hins, h₃⟩ := h₂.insertBlocked List.not_mem_nil key
  refine ⟨((s₂.setPool pool').setCurrent none).push (.block p key false), q', ?_, ht.same.oldAreas, h₃.sound, ?_, h₃.idle⟩
  · unfold blockOn schedulerBlockCurrent
    rw [bind_ret (machine_ret s), hold, bind_ret (current_ret hcur), bind_ret (oldStateOf_ret a s),
      bind_ret (modifyPcb_ret p _ s), bind_ret hacc, bind_ret hins]
    rfl
  · show _ = ({ (S.save p (s.m.oldAreas a)).setWaiting key (insertPrio (S.save p (s.m.oldAreas a)).prio p
      ((S.save p (s.m.oldAreas a)).waiting key)) with running := none } : System T)
    rw [← h₃.system]
    rfl

/-- `scheduler_handle_exception` of a process whose state is in the old area `a`. -/
theorem schedulerHandleException_handle (h : Shows cfg s q s.m.currentProc.toList S) (type : Fin 3) (a : OldArea) :
    Exec.wp (schedulerHandleException cfg type a) (fun _ _ => False)
      (fun st s' => Ends cfg (Handle cfg S type (s.m.oldAreas a) st) s') (fun _ => S.running = none) s := by
  unfold schedulerHandleException
  refine wp_bind_time (.schedulerAccountTime cfg false) fun _ s₁ ht => ?_
  have h₁ := h.timed ht
  refine wp_bind_current (fun hn => h₁.running.trans hn) fun p hp => ?_
  have hrun : S.running = some p := h₁.running.trans hp
  have hlive := h₁.sound.alive (Or.inl (Option.mem_toList.mpr hp))
  have hproc := h₁.process hlive
  have harea : s.m.oldAreas a = s₁.m.oldAreas a := congrFun ht.same.oldAreas.symm a
  refine wp_bind_ret (machine_ret s₁) ?_
  rw [Exec.wp_ite, harea]
  split
  next hreg =>
    let mem := storeState s₁.m.mem ((s₁.m.pool.pcbs p).excOldAreas type) (s₁.m.oldAreas a)
    have h₂ : Shows cfg (s₁.setMem mem) q s₁.m.currentProc.toList { S with mem := mem } := h₁.setMem mem
    refine wp_bind_ret (a := ()) (t := s₁.setMem mem) rfl ?_
    refine wp_bind_time (.schedulerAccountTime cfg true) fun _ s₃ ht₃ => ?_
    refine wp_bind_ret (machine_ret s₃) (wp_ldst ?_)
    have hmem : mem = storeState S.mem ((procOf (s₁.m.pool.pcbs p)).oldArea type) (s₁.m.oldAreas a) := by
      rw [h₁.mem]
      rfl
    have hst : stateAt s₃.m.mem ((s₃.m.pool.pcbs p).excNewAreas type) =
        (stateAt mem ((procOf (s₁.m.pool.pcbs p)).newArea type) : CpuState T) := by
      rw [show s₃.m.mem = mem from ht₃.same.mem, ht₃.same.excNewAreas]
      rfl
    have h₃ := h₂.timed ht₃
    rw [hst]
    exact (h₃.push _).ends (.passUp hrun hproc hreg hmem)
  next hreg =>
    obtain ⟨s', q', hkill, h', -, hcur⟩ := h₁.kill hlive fun c hc => Or.inl (Option.some.inj (hc.symm.trans hrun))
    have hnone : (S.kill p).running = none := by
      rw [h'.running]
      refine Option.eq_none_iff_forall_ne_some.mpr fun c hc => ?_
      obtain ⟨hc, hne⟩ := (hcur c).mp hc
      exact hne (Option.some.inj (hc.symm.trans hp))
    have hwp := schedulerResume_leave (F := fun _ => S.running = none) (a := a) h' false none
      fun hn => absurd hnone hn
    refine wp_bind_ret hkill (Exec.wp_mono hwp (fun _ _ hf => hf) (fun st s'' hs => ?_) fun _ hf => hf)
    obtain ⟨q'', S'', h'', hleave⟩ := hs
    refine h''.ends (.die hrun hproc (not_not.mp hreg) ?_)
    cases hleave with
    | resume hr _ => exact absurd (hnone.symm.trans hr) (by simp)
    | preempt hr _ _ => exact absurd (hnone.symm.trans hr) (by simp)
    | dispatch _ hd => exact hd

/-! ## System calls -/

/-- At the `switch` of `syscall_handler`. -/
structure AtSwitch (cfg : Cfg T) (e : Entry T) (s : KState T) (q : Queues) (S : System T) : Prop where
  shows : Shows cfg s q s.m.currentProc.toList S
  state : s.m.oldAreas .sysbk = adjusted e
  oldState : s.m.oldState = some .sysbk

/-- The call has been served, and the caller will go on from `c`. -/
def Served (cfg : Cfg T) (e : Entry T) (S : System T) (areas : OldArea → CpuState T) (c : CpuState T) (s : KState T) : Prop :=
  s.m.oldAreas = areas ∧ Ends cfg (Call cfg e S c) s

/-- There is no such call. -/
def NoCall (cfg : Cfg T) (e : Entry T) (S : System T) (_ : Fault) : Prop := ∀ c S', ¬ Call cfg e S c S'

namespace AtSwitch
variable {e : Entry T} (h : AtSwitch cfg e s q S)
include h

theorem alive {p : Pid} (hp : s.m.currentProc = some p) : p < maxProc ∧ p ∉ q.free :=
  h.shows.sound.alive (Or.inl (Option.mem_toList.mpr hp))

theorem getCpuTime_served (hcall : IsCall e 1) :
    Exec.wp (getCpuTime cfg (e.st T.sysArg1) (e.st T.sysArg2) (e.st T.sysArg3))
      (fun _ s' => Served cfg e S s.m.oldAreas (adjusted e) s') E (NoCall cfg e S) s := by
  unfold getCpuTime
  refine wp_bind_time (.getTODLO cfg) fun t s₁ ht => wp_bind_current (fun hn c S' hc => ?_) fun p hp => ?_
  · have hnone : S.running = none := h.shows.running.trans (ht.same.currentProc.symm.trans hn)
    cases hc with
    | getCpuTime _ _ _ _ hr => exact absurd (hnone.symm.trans hr) (by simp)
    | _ => exact absurd (isCall_unique hcall ‹_›) (by decide)
  have h₁ := h.shows.timed ht
  refine wp_bind_ret (machine_ret s₁) (wp_bind_ret (store_ret _ _ s₁) (wp_bind_ret (store_ret _ _ _) ?_))
  have h₃ := (h₁.store (e.st T.sysArg3) ((t.zeroExtend 64 - (s₁.m.pool.pcbs p).startTm).truncate 32)).store
    (e.st T.sysArg1) ((s₁.m.pool.pcbs p).userTm.truncate 32)
  refine wp_bind_time (.schedulerAccountTime cfg true) fun _ s₄ ht₄ => ?_
  have h₄ := h₃.timed ht₄
  refine wp_bind_ret (machine_ret s₄) (wp_ret (store_ret _ _ s₄) ⟨ht₄.same.oldAreas.trans ht.same.oldAreas, ?_⟩)
  exact (h₄.store _ _).ends (.getCpuTime _ _ _ hcall (h₁.running.trans hp))

theorem getPid_served (hcall : IsCall e 8) :
    Exec.wp (getPid cfg (e.st T.sysArg1) (e.st T.sysArg2))
      (fun _ s' => Served cfg e S s.m.oldAreas (adjusted e) s') E (NoCall cfg e S) s := by
  have hstoreAt : ∀ {s₁ : KState T} {S₁ : System T} (a w : Word), Shows cfg s₁ q s₁.m.currentProc.toList S₁ →
      ∃ s₂, Exec.guarded (decide (a ≠ 0)) (store a w) s₁ = .ret () s₂ ∧ s₂.m.oldAreas = s₁.m.oldAreas ∧
        s₂.m.currentProc = s₁.m.currentProc ∧ s₂.m.pool = s₁.m.pool ∧
        Shows cfg s₂ q s₂.m.currentProc.toList (S₁.storeAt a w) := by
    intro s₁ S₁ a w h₁
    unfold System.storeAt
    by_cases ha : a ≠ 0
    · rw [decide_eq_true ha, if_pos ha]
      exact ⟨_, store_ret a w s₁, rfl, rfl, rfl, h₁.store a w⟩
    · rw [decide_eq_false ha, if_neg ha]
      exact ⟨s₁, rfl, rfl, rfl, rfl, h₁⟩
  unfold getPid
  refine wp_bind_ret (machine_ret s) ?_
  obtain ⟨s₁, hrun, hareas, hcur, hpool, h₁⟩ := hstoreAt (e.st T.sysArg1) (cfg.pcbPtr s.m.currentProc) h.shows
  refine wp_bind_ret hrun ?_
  rw [← h.shows.running] at h₁
  by_cases ha : e.st T.sysArg2 ≠ 0
  · rw [decide_eq_true ha]
    refine wp_bind_current (fun hn c S' hc => ?_) fun p hp => ?_
    · have hnone : S.running = none := h.shows.running.trans (hcur.symm.trans hn)
      cases hc with
      | getPid _ hr => exact hr ha hnone
      | _ => exact absurd (isCall_unique hcall ‹_›) (by decide)
    have hp : s.m.currentProc = some p := hcur.symm.trans hp
    have hpar : S.running.bind S.parent = (s.m.pool.pcbs p).pParent := by
      rw [h.shows.running, hp]
      exact (congrArg (Option.bind · Process.parent) (h.shows.process (h.alive hp))).trans rfl
    refine wp_ret (store_ret _ _ s₁) ⟨hareas, (h₁.store _ _).ends ?_⟩
    have hrun : S.running ≠ none := by
      rw [h.shows.running, hp]
      exact Option.some_ne_none p
    have hc : Call cfg e S _ _ := .getPid hcall fun _ => hrun
    rw [hpar] at hc
    unfold System.storeAt at hc ⊢
    rwa [if_pos ha] at hc
  · rw [decide_eq_false ha]
    refine wp_ret (a := ()) (t := s₁) rfl ⟨hareas, h₁.ends ?_⟩
    have hc := @Call.getPid T cfg e S hcall fun hne => absurd hne ha
    unfold System.storeAt at hc ⊢
    rwa [if_neg ha] at hc

/-- A process is fresh from `spawn`: it gets its parent, and the caller its result. -/
theorem createProcess_served (hcall : IsCall e 2) :
    Exec.wp (createProcess cfg (e.st T.sysArg1) (e.st T.sysArg2) (e.st T.sysArg3))
      (fun r s' => Served cfg e S s.m.oldAreas ((adjusted e).setReturn r) s') E (NoCall cfg e S) s := by
  have hs := h.shows.sound
  unfold createProcess
  cases hf : q.free with
  | nil =>
    refine wp_bind_ret (pool_ret (hs.rep.alloc_nil hf)) (wp_ret rfl ⟨rfl, h.shows.ends (.createFull hcall ?_)⟩)
    intro p hp hn
    exact h.shows.process_none.mp hn ⟨hp, by rw [hf]; exact List.not_mem_nil⟩
  | cons p rest =>
    have hp : p ∈ q.free := hf ▸ List.mem_cons_self
    have hsmall := hs.placed.small p (Or.inl hp)
    have hdead : S.process p = none := h.shows.process_none.mpr fun hlive => hlive.2 hp
    obtain ⟨l, l', halloc, henq, h₁⟩ := h.shows.spawn hf (stateAt s.m.mem (e.st T.sysArg1)) (e.st T.sysArg2).toInt
    obtain ⟨hlive, hq, hroot, hleaf⟩ := spawned_fresh hs hf (stateAt s.m.mem (e.st T.sysArg1)) (e.st T.sysArg2).toInt l l'
    refine wp_bind_ret halloc (wp_bind_ret (machine_ret _) ?_)
    unfold startProcess
    simp only [Exec.bind_bind]
    refine wp_bind_ret (modifyPcb_ret p _ _) (wp_bind_ret (modifyPcb_ret p _ _) ?_)
    refine wp_bind_ret (note_ret (.create p (stateAt s.m.mem (e.st T.sysArg1))) _) (wp_bind_ret henq ?_)
    refine wp_bind_current (fun hn c S' hc => ?_) fun cur hcur => ?_
    · have hnone : S.running = none := h.shows.running.trans hn
      cases hc with
      | createFull _ hfull => exact hfull p hsmall hdead
      | create _ _ _ hr => exact absurd (hnone.symm.trans hr) (by simp)
      | _ => exact absurd (isCall_unique hcall ‹_›) (by decide)
    have hcur : s.m.currentProc = some cur := hcur
    have hrun : S.running = some cur := h.shows.running.trans hcur
    obtain ⟨l'', hadopt, h₂⟩ := h₁.adopt (Option.mem_toList.mpr hcur) hlive hq hroot hleaf
    rw [System.spawn_adopt] at h₂
    have hc : Call cfg e S _ _ := .create hcall hsmall hdead hrun
    rw [h.shows.mem] at hc
    refine wp_bind_ret hadopt ?_
    rw [Exec.wp_bind, Exec.wp_guarded]
    unfold System.storeAt at hc
    split
    next ha =>
      rw [if_pos (of_decide_eq_true ha)] at hc
      exact wp_ret (store_ret _ _ _) (wp_ret rfl ⟨rfl, (h₂.store _ _).ends hc⟩)
    next ha =>
      rw [if_neg fun hne => ha (decide_eq_true hne)] at hc
      exact wp_ret rfl ⟨rfl, h₂.ends hc⟩

/-- `terminate_process`, of any process but a proper ancestor of the caller. -/
theorem terminateProcess_served (hcall : IsCall e 3) (hadmitted : Admitted cfg S e) :
    Exec.wp (terminateProcess cfg (e.st T.sysArg1))
      (fun r s' => Served cfg e S s.m.oldAreas ((adjusted e).setReturn r) s') E (NoCall cfg e S) s := by
  have hs := h.shows.sound
  have htarget : S.target cfg (e.st T.sysArg1) = target cfg s.m (e.st T.sysArg1) := by
    unfold System.target target
    rw [h.shows.running]
  unfold terminateProcess
  cases ht : S.target cfg (e.st T.sysArg1) with
  | none =>
    have hnull : e.st T.sysArg1 = 0 := by
      by_contra hnull
      unfold System.target at ht
      rw [if_neg hnull] at ht
      exact hadmitted.pid hcall hnull ht
    have hrun : S.running = none := by
      unfold System.target at ht
      rwa [if_pos hnull] at ht
    unfold terminated
    rw [if_pos hnull, Exec.bind_bind]
    refine wp_bind_current (fun _ c S' hc => ?_) fun p hp => absurd (h.shows.running.trans hp) (by simp [hrun])
    cases hc with
    | terminateDead _ hr _ => exact absurd (ht.symm.trans hr) (by simp)
    | terminate _ hr _ => exact absurd (ht.symm.trans hr) (by simp)
    | _ => exact absurd (isCall_unique hcall ‹_›) (by decide)
  | some p =>
    have hget : terminated cfg (e.st T.sysArg1) s = .ret (some p) s := by
      rw [htarget] at ht
      unfold target at ht
      unfold terminated
      split at ht
      next hnull =>
        rw [if_pos hnull, bind_ret (current_ret ht)]
        rfl
      next hnull =>
        rw [if_neg hnull, ht]
        rfl
    refine wp_bind_ret hget (wp_bind_ret (pool_ret (hs.rep.isFree p)) ?_)
    have hsmall : p < maxProc := by
      rw [htarget] at ht
      unfold target at ht
      split at ht
      next => exact (h.alive ht).1
      next =>
        unfold Cfg.pcbAt at ht
        dsimp only at ht
        split at ht
        next hc => exact Option.some.inj ht ▸ hc.2
        next => cases ht
    by_cases hfree : p ∈ q.free
    · rw [decide_eq_true hfree]
      have hdead := h.shows.process_none.mpr fun hlive => hlive.2 hfree
      exact wp_ret rfl ⟨rfl, h.shows.ends (.terminateDead hcall ht hdead)⟩
    · rw [decide_eq_false hfree]
      have hcur : ∀ c, S.running = some c → c = p ∨ ¬ Desc S.Child p c := by
        intro c hc
        unfold Desc
        rw [Relation.reflTransGen_iff_eq_or_transGen]
        have hnot := hadmitted.spares hcall p c ht hc
        by_cases he : c = p
        · exact Or.inl he
        · exact Or.inr fun hd => hd.elim he hnot
      obtain ⟨s', q', hrun, h', hareas, -⟩ := h.shows.kill ⟨hsmall, hfree⟩ hcur
      exact wp_bind_ret hrun (wp_ret rfl ⟨hareas, h'.ends (.terminate hcall ht (h.shows.process ⟨hsmall, hfree⟩))⟩)

theorem verhogen_served (hcall : IsCall e 4) :
    Exec.wp (verhogen (e.st T.sysArg1)) (fun _ s' => Served cfg e S s.m.oldAreas (adjusted e) s') E F s := by
  obtain ⟨asl, sf, hrep⟩ := h.shows.sound.rep
  unfold verhogen
  cases hk : S.waiting (e.st T.sysArg1) with
  | nil =>
    have hkq : q.waiting (e.st T.sysArg1) = [] := h.shows.waiting ▸ hk
    refine wp_bind_ret (pool_ret (hrep.aslSemd_none hkq)) (wp_bind_ret (machine_ret s) ?_)
    refine wp_bind_ret (store_ret _ _ s) (wp_ret (note_ret _ _) ⟨rfl, ((h.shows.store _ _).push _).ends ?_⟩)
    rw [← h.shows.mem]
    exact .raise hcall hk
  | cons p rest =>
    have hkq : q.waiting (e.st T.sysArg1) = p :: rest := h.shows.waiting ▸ hk
    obtain ⟨d, -, -, hsemd⟩ := hrep.aslSemd_some (hkq ▸ List.cons_ne_nil p rest)
    obtain ⟨l, hpop, hp, h₁⟩ := h.shows.pop hk
    obtain ⟨l', henq, h₂⟩ := (h₁.push (.verhogen (e.st T.sysArg1) (some p))).enqueue hp
    refine wp_bind_ret (pool_ret hsemd) (wp_bind_ret hpop (wp_bind_ret (note_ret _ _) (wp_ret henq ⟨rfl, ?_⟩)))
    exact h₂.ends (.handOver hcall hk)

/-- `blockOn`, where the call says that the caller blocks. -/
theorem blockOn_served {key : Key} (hcall : ∀ p, S.running = some p → Call cfg e S' (adjusted e)
    (S.block p key (adjusted e))) (hF : S.running = none → F .nullDeref) :
    Exec.wp (blockOn cfg key) (fun _ s' => Served cfg e S' s.m.oldAreas (adjusted e) s') E F s := by
  cases hp : S.running with
  | none => exact blockOn_none (h.shows.running.symm.trans hp) (hF hp)
  | some p =>
    obtain ⟨s', q', hrun, hareas, h'⟩ := blockOn_ret h.shows hp h.oldState key
    rw [h.state] at h'
    exact wp_ret hrun ⟨hareas, h'.ends (hcall p hp)⟩

theorem push (o : Obs T) : AtSwitch cfg e (s.push o) q S := ⟨h.shows.push o, h.state, h.oldState⟩

theorem passeren_served (hcall : IsCall e 5) :
    Exec.wp (passeren cfg (e.st T.sysArg1)) (fun _ s' => Served cfg e S s.m.oldAreas (adjusted e) s') E
      (NoCall cfg e S) s := by
  unfold passeren
  refine wp_bind_ret (machine_ret s) ?_
  rw [Exec.wp_ite, ← h.shows.mem]
  split
  next hne =>
    refine wp_bind_ret (store_ret _ _ s) (wp_ret (note_ret _ _) ⟨rfl, ((h.shows.store _ _).push _).ends ?_⟩)
    exact .pass hcall hne
  next hz =>
    refine wp_bind_ret (note_ret _ s) ((h.push _).blockOn_served (fun p hp => .wait hcall (not_not.mp hz) hp) ?_)
    intro hn c S' hc
    cases hc with
    | pass _ hne => exact hz hne
    | wait _ _ hr => exact absurd (hn.symm.trans hr) (by simp)
    | _ => exact absurd (isCall_unique hcall ‹_›) (by decide)

theorem waitIo_served (hcall : IsCall e 6) :
    Exec.wp (waitIo cfg (e.st T.sysArg1) (e.st T.sysArg2) ((e.st T.sysArg3).toNat % 256))
      (fun _ s' => Served cfg e S s.m.oldAreas (adjusted e) s') E (NoCall cfg e S) s := by
  have hsame : ∀ (s : KState T) a cmd, (s.commanded a cmd).m.currentProc = s.m.currentProc ∧
      (s.commanded a cmd).m.oldAreas = s.m.oldAreas ∧ (s.commanded a cmd).m.oldState = s.m.oldState := by
    intro s a cmd
    unfold KState.commanded
    split <;> exact ⟨rfl, rfl, rfl⟩
  have hcmd : ∀ {s : KState T} a cmd, AtSwitch cfg e s q S → AtSwitch cfg e (s.commanded a cmd) q (S.command a cmd) := by
    intro s a cmd h
    obtain ⟨hcur, hareas, hold⟩ := hsame s a cmd
    refine ⟨?_, hareas ▸ h.state, hold.trans h.oldState⟩
    rw [hcur]
    exact h.shows.command a cmd
  have hrunning : ∀ a cmd, (S.command a cmd).running = S.running := by
    intro a cmd
    unfold System.command
    split <;> rfl
  have hnone : S.running = none → NoCall cfg e S .nullDeref := by
    intro hn c S' hc
    cases hc with
    | waitIo _ _ hr => exact absurd (hn.symm.trans hr) (by simp)
    | _ => exact absurd (isCall_unique hcall ‹_›) (by decide)
  unfold waitIo
  refine wp_bind_current (fun hn => hnone (h.shows.running.trans hn)) fun p hp => ?_
  let addr := commandAddr T (e.st T.sysArg2) ((e.st T.sysArg3).toNat % 256)
  let s₁ := s.push (.waitIo p addr (e.st T.sysArg1))
  have hareas : (s₁.commanded addr (e.st T.sysArg1)).m.oldAreas = s.m.oldAreas := (hsame s₁ addr (e.st T.sysArg1)).2.1
  refine wp_bind_ret (note_ret _ s) (wp_bind_ret (storeCommand_ret addr (e.st T.sysArg1) s₁) ?_)
  rw [← hareas]
  refine (hcmd addr (e.st T.sysArg1) (h.push _)).blockOn_served (fun r hr => ?_)
    fun hn => hnone ((hrunning _ _).symm.trans hn)
  exact .waitIo hcall rfl ((hrunning _ _).symm.trans hr)

theorem specPassUp_served (hcall : IsCall e 7) (hadmitted : Admitted cfg S e) :
    Exec.wp (specPassUp cfg (e.st T.sysArg1) (e.st T.sysArg2) (e.st T.sysArg3))
      (fun r s' => Served cfg e S s.m.oldAreas ((adjusted e).setReturn r) s') E (NoCall cfg e S) s := by
  unfold specPassUp
  refine wp_bind_current (fun hn c S' hc => ?_) fun p hp => ?_
  · have hnone : S.running = none := h.shows.running.trans hn
    cases hc with
    | register _ _ hr _ _ => exact absurd (hnone.symm.trans hr) (by simp)
    | registerTwice _ _ hr _ _ => exact absurd (hnone.symm.trans hr) (by simp)
    | _ => exact absurd (isCall_unique hcall ‹_›) (by decide)
  have hrun : S.running = some p := h.shows.running.trans hp
  have hlive := h.alive hp
  have hproc := h.shows.process hlive
  split
  next hlt =>
    refine wp_bind_ret (machine_ret s) ?_
    rw [Exec.wp_ite]
    split
    next hreg =>
      obtain ⟨s', q', hkill, h', hareas, -⟩ := h.shows.kill hlive fun c hc => Or.inl (Option.some.inj (hc.symm.trans hrun))
      exact wp_bind_ret hkill (wp_ret rfl ⟨hareas, h'.ends (.registerTwice hcall rfl hrun hproc hreg)⟩)
    next hreg =>
      let new (x : Pcb T) : Pcb T :=
        { x with excNewAreas := Function.update x.excNewAreas ⟨_, hlt⟩ (e.st T.sysArg3) }
      let old (x : Pcb T) : Pcb T :=
        { x with excOldAreas := Function.update x.excOldAreas ⟨_, hlt⟩ (e.st T.sysArg2) }
      have hboth : (s.setPcb p new).setPcb p old = s.setPcb p fun x => old (new x) := by
        unfold KState.setPcb KState.setPool
        simp
      have h₁ := h.shows.setPcb p (f := fun x => old (new x)) (fun _ => rfl) (fun _ => rfl)
        (g := fun x => { x with
          newArea := Function.update x.newArea ⟨_, hlt⟩ (e.st T.sysArg3)
          oldArea := Function.update x.oldArea ⟨_, hlt⟩ (e.st T.sysArg2) }) fun _ => rfl
      rw [← hboth] at h₁
      refine wp_bind_ret (modifyPcb_ret p new s) (wp_bind_ret (modifyPcb_ret p old _) (wp_ret rfl ⟨rfl, ?_⟩))
      exact h₁.ends (.register hcall rfl hrun hproc (not_not.mp hreg))
  next hge => exact absurd (hadmitted.excType hcall) hge

end AtSwitch
end Bikaya.Kernel
