import Bikaya.Kernel.Direct
import Bikaya.Results.Dispatch

/-!
# CREATEPROCESS

It takes all of its steps or none (`AllOrNothing`). Its place in the ready queue is the one that it should have
unless a process of lower priority already stands before one that is not lower (`createProcess_iff`), which happens
only after aging has carried a priority past `INT_MAX`.
-/

namespace Bikaya.Results
open Bikaya.Lib Bikaya.Model Bikaya.Spec Bikaya.Refine Bikaya.Kernel Bikaya.Model.KM

variable {T : Target} {cfg : Cfg T}

/-- A PCB as CREATEPROCESS leaves it: nothing of an earlier process is in its fields. -/
def newPcb (st : CpuState T) (priority : Int) (parent : Pid) : Pcb T :=
  { (Pcb.zero : Pcb T) with pS := st, originalPriority := priority, priority := priority, pParent := some parent }

/-- From `m` to `m'` the PCB `p` has become a process, a child of `c`. -/
structure Created (cfg : Cfg T) (m m' : Machine T) (c p : Pid) (st : CpuState T) (priority : Int) (cpid : Word) :
    Prop where
  /-- It was the first free one, and no other comes to life. -/
  free : freeList m = p :: freeList m'
  alive : ∀ r, Alive m' r ↔ r = p ∨ Alive m r
  ready : ∃ higher lower, readyList m = higher ++ lower ∧ readyList m' = higher ++ p :: lower ∧
    (∀ r ∈ higher, priority ≤ prioOf m r) ∧ ∀ r ∈ lower, prioOf m r < priority
  child : childList m' c = childList m c ++ [p]
  childless : childList m' p = []
  children : ∀ r, Alive m r → r ≠ c → childList m' r = childList m r
  pcb : m'.pool.pcbs p = newPcb st priority c
  others : ∀ r, r ≠ p → m'.pool.pcbs r = m.pool.pcbs r
  waiting : ∀ key, waitingList m' key = waitingList m key
  mem : m'.mem = if cpid = 0 then m.mem else Function.update m.mem cpid (cfg.pcbAddr p)
  rest : m' = { m with pool := m'.pool, mem := m'.mem }

/-- `create_process` returns; without a free PCB it has done nothing, otherwise it has created a process. -/
def AllOrNothing (cfg : Cfg T) (s : KState T) (c : Pid) (state priority cpid : Word) : Prop :=
  ∃ r s', createProcess cfg state priority cpid s = .ret r s' ∧
    (freeList s.m = [] → r = syscallFailure ∧ s' = s) ∧
    (freeList s.m ≠ [] → r = syscallSuccess ∧
      ∃ p, Created cfg s.m s'.m c p (stateAt s.m.mem state) priority.toInt cpid)

/-- No process of a priority below `x` stands before one that is not below. -/
def LowerBehind (m : Machine T) (x : Int) : Prop :=
  (readyList m).Pairwise fun a b => prioOf m a < x → prioOf m b < x

instance (m : Machine T) (x : Int) : Decidable (LowerBehind m x) := by
  unfold LowerBehind
  infer_instance

/-- The pool is empty exactly when `MAXPROC` processes are alive. -/
theorem freeList_nil_iff {m : Machine T} {q : Queues} {out : List Pid} (hs : Sound m.pool q out) :
    freeList m = [] ↔ (List.range maxProc).countP (fun p => decide (Alive m p)) = maxProc := by
  have hsmall : ∀ p ∈ freeList m, p < maxProc := fun p hp => by
    rw [hs.rep.freeList_eq] at hp
    exact hs.placed.small p (Or.inl hp)
  have hall : freeList m = [] ↔ ∀ p < maxProc, Alive m p := by
    constructor
    · intro h p hp
      exact ⟨hp, h ▸ List.not_mem_nil⟩
    · intro h
      exact List.eq_nil_iff_forall_not_mem.mpr fun p hp => (h p (hsmall p hp)).2 hp
  have hcount := List.countP_eq_length (p := fun p => decide (Alive m p)) (l := List.range maxProc)
  rw [List.length_range] at hcount
  rw [hall, hcount]
  simp only [List.mem_range, decide_eq_true_eq]

section
variable {s : KState T} {q : Queues} {c : Pid}

/-- Without a free PCB. -/
theorem createProcess_full (hs : Rep s.m.pool q) (hf : q.free = []) (state priority cpid : Word) :
    createProcess cfg state priority cpid s = .ret syscallFailure s := by
  unfold createProcess
  rw [bind_ret (pool_ret (hs.alloc_nil hf))]
  rfl

/-- The priorities by which the new process is put in the ready queue. -/
theorem spawned_resetPrio_prio (s : KState T) (p : Pid) (l : Links Node) (st : CpuState T) (x : Int) :
    ((s.spawned p l st x).resetPrio p).prio = Function.update (prioOf s.m) p x := by
  funext r
  change (((s.spawned p l st x).setPcb p fun y => { y with priority := y.originalPriority }).m.pool.pcbs r).priority = _
  by_cases hr : r = p
  · subst hr
    rw [setPcb_self, Function.update_self, spawned_pcbs, if_pos rfl]
  · rw [setPcb_ne _ _ hr, Function.update_of_ne hr, spawned_pcbs, if_neg hr]
    rfl

/-- The PCBs once the new process has its parent. -/
theorem created_pcbs (s : KState T) (p c : Pid) (l l' : Links Node) (st : CpuState T) (x : Int) :
    ((((s.spawned p l st x).enqueued p l').setPcb p fun y => { y with pParent := some c })).m.pool.pcbs =
      Function.update s.m.pool.pcbs p (newPcb st x c) := by
  funext r
  by_cases hr : r = p
  · subst hr
    rw [setPcb_self, Function.update_self]
    change ({ ((s.spawned r l st x).resetPrio r).m.pool.pcbs r with pParent := some c } : Pcb T) = _
    unfold KState.resetPrio
    rw [setPcb_self, spawned_pcbs, if_pos rfl]
    rfl
  · rw [setPcb_ne _ _ hr, Function.update_of_ne hr]
    change ((s.spawned p l st x).resetPrio p).m.pool.pcbs r = _
    unfold KState.resetPrio
    rw [setPcb_ne _ _ hr, spawned_pcbs, if_neg hr]

/-- With one: what becomes of the lists, the PCBs and the rest of the machine. -/
theorem createProcess_run (hs : Sound s.m.pool q [c]) (hcur : s.m.currentProc = some c) {p : Pid} {rest : List Pid}
    (hf : q.free = p :: rest) (state priority cpid : Word) :
    ∃ s', createProcess cfg state priority cpid s = .ret syscallSuccess s' ∧
      Rep s'.m.pool (((q.alloc p).enqueue (Function.update (prioOf s.m) p priority.toInt) p).adopt c p) ∧
      s'.m.pool.pcbs = Function.update s.m.pool.pcbs p (newPcb (stateAt s.m.mem state) priority.toInt c) ∧
      s'.m = { s.m with
        pool := s'.m.pool
        mem := if cpid = 0 then s.m.mem else Function.update s.m.mem cpid (cfg.pcbAddr p) } := by
  let st : CpuState T := stateAt s.m.mem state
  obtain ⟨l, l', halloc, henq, -, hs₁⟩ := spawn_run hs hf st priority.toInt
  obtain ⟨halive, hq, hroot, hleaf⟩ := spawned_fresh hs hf st priority.toInt l l'
  let s₁ := (s.spawned p l st priority.toInt).enqueued p l'
  have hc : c ∈ [c] := List.mem_singleton_self c
  obtain ⟨l'', hadopt, hs₂⟩ :=
    adopt_sound (s := s₁) hs₁ (hs.placed.outSmall c hc) (hs₁.placed.outside c hc) halive hq hroot hleaf
  let s₂ := (s₁.setPcb p fun x => { x with pParent := some c }).relink l''
  let s' := if cpid = 0 then s₂ else s₂.setMem (Function.update s₂.m.mem cpid (cfg.pcbAddr p))
  have hpool : s'.m.pool = s₂.m.pool := by
    unfold s'
    split <;> rfl
  have hstore : Exec.guarded (decide (cpid ≠ 0)) (store cpid (cfg.pcbAddr p)) s₂ = .ret () s' := by
    unfold s'
    by_cases hz : cpid = 0
    · rw [if_pos hz, decide_eq_false (not_not.mpr hz)]
      rfl
    · rw [if_neg hz, decide_eq_true hz]
      rfl
  have hcur₁ : s₁.m.currentProc = some c := hcur
  have hstart : startProcess cfg p st priority cpid ((s.setPcb p fun _ => Pcb.zero).relink l) = .ret () s' := by
    unfold startProcess
    rw [bind_ret (modifyPcb_ret p _ _), bind_ret (modifyPcb_ret p _ _), bind_ret (note_ret (.create p st) _)]
    refine (bind_ret henq).trans ?_
    rw [bind_ret (current_ret hcur₁), bind_ret hadopt]
    exact hstore
  refine ⟨s', ?_, ?_, ?_, ?_⟩
  · unfold createProcess
    rw [bind_ret halloc]
    change (machine >>= fun m => startProcess cfg p (stateAt m.mem state) priority cpid >>= fun _ => pure syscallSuccess)
      ((s.setPcb p fun _ => Pcb.zero).relink l) = _
    rw [bind_ret (machine_ret _)]
    exact bind_ret hstart
  · rw [hpool, ← spawned_resetPrio_prio s p l st]
    exact hs₂.rep
  · rw [hpool]
    exact created_pcbs s p c l l' st priority.toInt
  · unfold s'
    split <;> rfl

/-- What the lists say is what is read. -/
theorem created_of_rep {m' : Machine T} (hs : Sound s.m.pool q [c]) {p : Pid} {rest : List Pid}
    (hf : q.free = p :: rest) {st : CpuState T} {x : Int} {cpid : Word}
    (hrep : Rep m'.pool (((q.alloc p).enqueue (Function.update (prioOf s.m) p x) p).adopt c p))
    (hpcbs : m'.pool.pcbs = Function.update s.m.pool.pcbs p (newPcb st x c))
    (hrest : m' = { s.m with
      pool := m'.pool
      mem := if cpid = 0 then s.m.mem else Function.update s.m.mem cpid (cfg.pcbAddr p) })
    (hlower : LowerBehind s.m x) : Created cfg s.m m' c p st x cpid := by
  have hpfree : p ∈ q.free := hf ▸ List.mem_cons_self
  have hq : q.Queued p := Or.inl hpfree
  have hc : c ∈ [c] := List.mem_singleton_self c
  have hpc : p ≠ c := fun he => hs.placed.outside c hc (he ▸ hq)
  have hnd := hs.rep.apart.free_nodup
  rw [hf, List.nodup_cons] at hnd
  have hfree : freeList s.m = p :: rest := hs.rep.freeList_eq.trans hf
  have hfree' : freeList m' = rest := by
    rw [hrep.freeList_eq]
    change q.free.tail = rest
    rw [hf]
    rfl
  have hkids : ∀ r, Alive s.m r → ∃ cs, q.kids r = some cs := fun r hr => by
    unfold Alive at hr
    rw [hs.rep.freeList_eq] at hr
    exact (hs.tree.alive r).mpr hr
  have hnew : ¬ Alive s.m p := fun h => h.2 (hfree ▸ List.mem_cons_self)
  obtain ⟨cs, hcs⟩ := (hs.tree.alive c).mpr ⟨hs.placed.outSmall c hc, fun hm => hs.placed.outside c hc (Or.inl hm)⟩
  refine
    { free := by rw [hfree, hfree']
      alive := fun r => ?_
      ready := ?_
      child := ?_
      childless := ?_
      children := fun r hr hne => ?_
      pcb := by rw [hpcbs, Function.update_self]
      others := fun r hr => by rw [hpcbs, Function.update_of_ne hr]
      waiting := fun key => by rw [hrep.waitingList_eq, hs.rep.waitingList_eq]; rfl
      mem := by rw [hrest]
      rest := by rw [hrest] }
  · unfold Alive
    rw [hfree', hfree, List.mem_cons, not_or]
    by_cases hr : r = p
    · subst hr
      exact iff_of_true ⟨hs.placed.small r hq, hnd.1⟩ (Or.inl rfl)
    · exact ⟨fun h => Or.inr ⟨h.1, hr, h.2⟩, fun h => (h.resolve_left hr).imp_right And.right⟩
  · let prio := Function.update (prioOf s.m) p x
    have hself : prio p = x := Function.update_self _ _ _
    have hothers : ∀ r ∈ q.ready, prio r = prioOf s.m r := fun r hr =>
      Function.update_of_ne (fun he : r = p => hs.rep.apart.ready_not_free hr (he.symm ▸ hpfree)) _ _
    have hpair : q.ready.Pairwise fun a b => prio a < prio p → prio b < prio p := by
      unfold LowerBehind at hlower
      rw [hs.rep.readyList_eq] at hlower
      refine hlower.imp_of_mem fun ha hb hab => ?_
      rw [hself, hothers _ ha, hothers _ hb]
      exact hab
    obtain ⟨as, bs, hsplit, hinsert, has, hbs⟩ := insertPrio_between prio p hpair
    refine ⟨as, bs, hs.rep.readyList_eq.trans hsplit, hrep.readyList_eq.trans hinsert, fun r hr => ?_, fun r hr => ?_⟩
    · rw [← hself, ← hothers r (hsplit ▸ List.mem_append_left _ hr)]
      exact has r hr
    · rw [← hself, ← hothers r (hsplit ▸ List.mem_append_right _ hr)]
      exact hbs r hr
  · rw [hs.rep.childList_eq hcs]
    exact hrep.childList_eq (by simp [Queues.adopt, Queues.setKids, Queues.enqueue, Queues.alloc, hpc.symm, hcs])
  · exact hrep.childList_eq (by simp [Queues.adopt, Queues.setKids, Queues.enqueue, Queues.alloc, hpc])
  · obtain ⟨ds, hds⟩ := hkids r hr
    have hrp : r ≠ p := fun he => hnew (he ▸ hr)
    rw [hs.rep.childList_eq hds]
    exact hrep.childList_eq (by simp [Queues.adopt, Queues.setKids, Queues.enqueue, Queues.alloc, hne, hrp, hds])

/-- A call takes all of its steps or none exactly when the process finds its place in the ready queue. -/
theorem createProcess_iff (hs : Sound s.m.pool q [c]) (hcur : s.m.currentProc = some c) (state priority cpid : Word) :
    AllOrNothing cfg s c state priority cpid ↔ freeList s.m = [] ∨ LowerBehind s.m priority.toInt := by
  constructor
  · rintro ⟨r, s', -, -, hcreated⟩
    by_cases hf : freeList s.m = []
    · exact Or.inl hf
    · obtain ⟨-, p, h⟩ := hcreated hf
      obtain ⟨higher, lower, hsplit, -, hhigher, hlower⟩ := h.ready
      exact Or.inr (pairwise_of_split _ hsplit hhigher hlower)
  · intro h
    cases hf : q.free with
    | nil =>
      have hnil : freeList s.m = [] := hs.rep.freeList_eq.trans hf
      exact ⟨_, s, createProcess_full hs.rep hf state priority cpid, fun _ => ⟨rfl, rfl⟩, fun hne => absurd hnil hne⟩
    | cons p rest =>
      have hcons : freeList s.m = p :: rest := hs.rep.freeList_eq.trans hf
      have hne : freeList s.m ≠ [] := hcons ▸ List.cons_ne_nil p rest
      obtain ⟨s', hret, hrep, hpcbs, hrest⟩ : ∃ s', createProcess cfg state priority cpid s = .ret syscallSuccess s' ∧ _ :=
        createProcess_run hs hcur hf state priority cpid
      exact ⟨_, s', hret, fun he => absurd he hne, fun _ =>
        ⟨rfl, p, created_of_rep hs hf hrep hpcbs hrest (h.resolve_left hne)⟩⟩

end

/-! ## In runs -/

/-- CREATEPROCESS at the `switch`. -/
theorem called_createProcess (s : KState T) {e : Entry T} (hnum : (e.st T.sysArg0).toNat = 2) :
    syscallSwitch cfg (s.called cfg e) =
      (createProcess cfg (e.st T.sysArg1) (e.st T.sysArg2) (e.st T.sysArg3) >>= setSysReturn) (s.called cfg e) := by
  have hbranch := called_switch cfg s e
  rw [hnum] at hbranch
  exact hbranch

theorem kernelStep_createProcess {e : Entry T} (hcall : IsCall e 2) (s : KState T) : kernelStep cfg e s =
    (createProcess cfg (e.st T.sysArg1) (e.st T.sysArg2) (e.st T.sysArg3) >>= fun r => setSysReturn r >>= fun _ =>
      schedulerResume cfg false (some .sysbk)) (s.called cfg e) := by
  rw [kernelStep_syscall hcall.1 hcall.2.1, bind_same (called_createProcess s hcall.2.2), Exec.bind_bind]

section
variable {s : KState T}

/-- Up to the `switch` neither the lists nor the priorities change. -/
theorem lowerBehind_called (cfg : Cfg T) (s : KState T) (e : Entry T) (x : Int) :
    LowerBehind (s.called cfg e).m x ↔ LowerBehind s.m x := by
  have hprio : prioOf (s.called cfg e).m = prioOf s.m := funext (called_same cfg s e).priority
  have hready : readyList (s.called cfg e).m = readyList s.m := readyList_links (called_same cfg s e).links
  unfold LowerBehind
  rw [hprio, hready]

theorem freeList_called (cfg : Cfg T) (s : KState T) (e : Entry T) : freeList (s.called cfg e).m = freeList s.m := by
  unfold freeList pcbsIn
  rw [show (s.called cfg e).m.pool.links = s.m.pool.links from (called_same cfg s e).links]

/-- When a call is all or nothing. -/
theorem allOrNothing_iff {q : Queues} (hb : Between s q) {c : Pid} (hcur : s.m.currentProc = some c) (e : Entry T)
    (state priority cpid : Word) : AllOrNothing cfg (s.called cfg e) c state priority cpid ↔
      freeList s.m = [] ∨ LowerBehind s.m priority.toInt := by
  have hs : Sound s.m.pool q [c] := by
    have := hb.sound
    rwa [hcur] at this
  have hs' : Sound (s.called cfg e).m.pool q [c] := (called_same cfg s e).sound hs
  have hcur' : (s.called cfg e).m.currentProc = some c := (called_same cfg s e).currentProc.trans hcur
  rw [createProcess_iff hs' hcur', freeList_called, lowerBehind_called]

/-- In order, the lower ones are behind. -/
theorem lowerBehind_of_run (hprio : cfg.prio = .int32) (h : Run cfg (AgingEntry cfg) s) (x : Int) :
    LowerBehind s.m x := by
  obtain ⟨q, hb, hi⟩ := dispatching_run hprio h
  exact (inOrder_read hi.order hb.sound.rep).imp fun hba ha => lt_of_le_of_lt hba ha

end

/-- A CREATEPROCESS of a reachable state takes all of its steps or none if and only if the pool is empty or, in the
ready queue, no process of lower priority than the argument stands before one that is not lower; that is so in
every run in which aging does not wrap. The pool is empty exactly when `MAXPROC` processes are alive. -/
theorem createProcess_all_or_nothing_iff (hprio : cfg.prio = .int32) :
    (∀ (s : KState T) (c : Pid) (e : Entry T), Run cfg (Lawful cfg) s → s.m.currentProc = some c → IsCall e 2 →
      kernelStep cfg e s = (createProcess cfg (e.st T.sysArg1) (e.st T.sysArg2) (e.st T.sysArg3) >>= fun r =>
        setSysReturn r >>= fun _ => schedulerResume cfg false (some .sysbk)) (s.called cfg e) ∧
      (AllOrNothing cfg (s.called cfg e) c (e.st T.sysArg1) (e.st T.sysArg2) (e.st T.sysArg3) ↔
        freeList s.m = [] ∨ LowerBehind s.m (e.st T.sysArg2).toInt)) ∧
    (∀ (s : KState T) (c : Pid) (e : Entry T), Run cfg (AgingEntry cfg) s → s.m.currentProc = some c → IsCall e 2 →
      AllOrNothing cfg (s.called cfg e) c (e.st T.sysArg1) (e.st T.sysArg2) (e.st T.sysArg3)) ∧
    ∀ s : KState T, Run cfg (Lawful cfg) s →
      (freeList s.m = [] ↔ (List.range maxProc).countP (fun p => decide (Alive s.m p)) = maxProc) := by
  refine ⟨fun s c e h hcur hcall => ⟨kernelStep_createProcess hcall s, ?_⟩, fun s c e h hcur _ => ?_, fun s h => ?_⟩
  · obtain ⟨q, hb⟩ := run_between id h
    exact allOrNothing_iff hb hcur e _ _ _
  · obtain ⟨q, hb, -⟩ := dispatching_run hprio h
    exact (allOrNothing_iff hb hcur e _ _ _).mpr (Or.inr (lowerBehind_of_run hprio h _))
  · obtain ⟨q, hb⟩ := run_between id h
    exact freeList_nil_iff hb.sound

/-- The first process creates a child of priority 5. -/
def forks : Entry .umps := syscall (booted demo) 2 0 5 0

theorem createProcess_all_or_nothing_iff_booted :
    AllOrNothing demo ((booted demo).called demo forks) 19 (forks.st Target.umps.sysArg1)
      (forks.st Target.umps.sysArg2) (forks.st Target.umps.sysArg3) ∧ freeList (booted demo).m ≠ [] := by
  have hcur : (booted demo).m.currentProc = some 19 := by decide +kernel
  have hcall : IsCall forks 2 := by decide +kernel
  have h := createProcess_all_or_nothing_iff (show demo.prio = .int32 from rfl)
  exact ⟨h.2.1 (booted demo) 19 forks (run_booted demo _) hcur hcall, by decide +kernel⟩

/-! ## After a priority past `INT_MAX` -/

/-- In `wrapped` the child at `INT_MIN` stands before the one at 6, and a new one of priority 0 goes before both. -/
theorem createProcess_all_or_nothing_fails : ¬ ∀ (s : KState .umps) (c : Pid) (e : Entry .umps),
    Run demo (fun s e => ValidEntry demo s e ∧ Lawful demo s e) s → s.m.currentProc = some c → IsCall e 2 →
      AllOrNothing demo (s.called demo e) c (e.st Target.umps.sysArg1) (e.st Target.umps.sysArg2)
        (e.st Target.umps.sysArg3) := by
  intro h
  have hcur : wrapped.m.currentProc = some 19 := by decide +kernel
  have hcall : IsCall (syscall wrapped 2 0 0 0) 2 := by decide +kernel
  have hall := h wrapped 19 (syscall wrapped 2 0 0 0) run_wrapped hcur hcall
  obtain ⟨q, hb⟩ := run_between (fun hok => hok.2) run_wrapped
  rw [allOrNothing_iff hb hcur] at hall
  exact absurd hall (by decide +kernel)

end Bikaya.Results
