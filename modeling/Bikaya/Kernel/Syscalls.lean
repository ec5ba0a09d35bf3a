import Bikaya.Kernel.Interrupts

/-!
# `syscalls.c` and `exceptions.c`, as acts

`Exact` holds while a system call works: the old area is the context of the current process, if there still is
one. Every case of the `switch` keeps it, for arguments within bounds; `setSysReturn` turns it into `Returning`.
-/

namespace Bikaya.Kernel
open Bikaya.Lib Bikaya.Model Bikaya.Spec Bikaya.Refine Bikaya.Model.KM

variable {T : Target}

section
variable (cfg : Cfg T) (s₀ : KState T) (q₀ : Queues) (e : Entry T) (m₀ : Machine T)

structure Exact (s : KState T) (q : Queues) : Prop where
  mid : Mid cfg s₀ q₀ e m₀ s q s.m.currentProc.toList
  context : ∀ p, s.m.currentProc = some p →
    m₀.currentProc = some p ∧ context p s.hist = some (s.m.oldAreas e.area)

end

variable {cfg : Cfg T} {s₀ s s' : KState T} {q₀ q q' : Queues} {e : Entry T} {m₀ : Machine T}
  {E : CpuState T → KState T → Prop} {F : Fault → Prop}

namespace Exact

theorem returning (h : Exact cfg s₀ q₀ e m₀ s q) : Returning cfg s₀ q₀ e m₀ s q :=
  ⟨h.mid, fun p hp => ⟨(h.context p hp).1, _, (h.context p hp).2, Or.inl rfl⟩⟩

variable (h : Exact cfg s₀ q₀ e m₀ s q)
include h

theorem time (ht : Timed s s') : Exact cfg s₀ q₀ e m₀ s' q where
  mid := by
    rw [ht.same.currentProc]
    exact h.mid.time ht
  context p hp := by
    rw [ht.same.currentProc] at hp
    rw [ht.context_eq, ht.same.oldAreas]
    exact h.context p hp

/-- An act that leaves the current process its context. -/
theorem act (ha : Act cfg s q s' q') (hs : Sound s'.m.pool q' s.m.currentProc.toList)
    (hentry : lastEntry s'.hist = lastEntry s.hist) (hslice : sliceOver s'.hist = sliceOver s.hist)
    (hcur : s'.m.currentProc = s.m.currentProc) (hareas : s'.m.oldAreas = s.m.oldAreas)
    (hctx : ∀ p, s.m.currentProc = some p → Spec.context p s'.hist = Spec.context p s.hist) :
    Exact cfg s₀ q₀ e m₀ s' q' where
  mid := by
    rw [hcur]
    exact h.mid.act ha hs hentry hslice
  context p hp := by
    rw [hcur] at hp
    rw [hctx p hp, hareas]
    exact h.context p hp

/-- A result stored in the memory of the process. -/
theorem output {addr : Word} (ho : Outputs e m₀ addr) (w : Word) :
    Exact cfg s₀ q₀ e m₀ (s.setMem (Function.update s.m.mem addr w)) q := by
  refine h.act (.output _ fun a ha => ⟨e, m₀, h.mid.entry, ?_⟩) h.mid.sound rfl rfl rfl rfl fun _ _ => rfl
  by_cases he : a = addr
  · exact he ▸ ho
  · exact absurd (Function.update_of_ne he _ _) ha

theorem outputWhen {c : Bool} {addr : Word} (ho : Outputs e m₀ addr) (w : Word) :
    Exec.wp (Exec.guarded c (store addr w)) (fun _ s' => Exact cfg s₀ q₀ e m₀ s' q) E F s := by
  rw [Exec.wp_guarded]
  split
  next => exact wp_ret rfl (h.output ho w)
  next => exact h

/-- A process that is in no list. -/
theorem current_alive {p : Pid} (hp : s.m.currentProc = some p) :
    p < maxProc ∧ p ∉ q.free ∧ ¬ q.Queued p := by
  have hm : p ∈ s.m.currentProc.toList := Option.mem_toList.mpr hp
  have hq := h.mid.sound.placed.outside p hm
  exact ⟨h.mid.sound.placed.outSmall p hm, fun hf => hq (Or.inl hf), hq⟩

end Exact

theorem store_ret (addr w : Word) (s : KState T) :
    store addr w s = .ret () (s.setMem (Function.update s.m.mem addr w)) := rfl

/-! ## The start of a call -/

theorem advancePc_of_ne (st : CpuState T) {i : Fin T.stateWords} (hi : i ≠ T.pc) : advancePc st i = st i := by
  cases T
  · exact Function.update_of_ne hi _ _
  · rfl

theorem sysArg_ne_pc (T : Target) :
    T.sysArg0 ≠ T.pc ∧ T.sysArg1 ≠ T.pc ∧ T.sysArg2 ≠ T.pc ∧ T.sysArg3 ≠ T.pc := by
  cases T <;> decide

/-- The state in which a system call starts: nothing but accounting and the program counter differ from the
entry. -/
structure Called (cfg : Cfg T) (s₀ : KState T) (q₀ : Queues) (e : Entry T) (m₀ : Machine T) (s : KState T)
    (q : Queues) : Prop extends Exact cfg s₀ q₀ e m₀ s q where
  area : e.area = .sysbk
  cause : T.causeExc (e.st T.cause) = T.causeSyscall
  oldState : s.m.oldState = some .sysbk
  state : s.m.oldAreas .sysbk = advancePc e.st
  currentProc : s.m.currentProc = m₀.currentProc
  mem : s.m.mem = m₀.mem
  same : ∀ p, (s.m.pool.pcbs p).pParent = (m₀.pool.pcbs p).pParent ∧
    (s.m.pool.pcbs p).excNewAreas = (m₀.pool.pcbs p).excNewAreas ∧
    (s.m.pool.pcbs p).excOldAreas = (m₀.pool.pcbs p).excOldAreas

namespace Called
variable (h : Called cfg s₀ q₀ e m₀ s q)
include h

theorem call {n : Nat} (hn : (e.st T.sysArg0).toNat = n) : IsCall e n := ⟨h.area, h.cause, hn⟩

theorem semCall {n : Nat} (hcall : IsCall e n) : SemCall s n (e.st T.sysArg1) :=
  ⟨e, m₀, h.mid.entry, hcall, rfl, h.mem⟩

theorem target_eq (pid : Word) : target cfg s.m pid = target cfg m₀ pid := by
  unfold target
  rw [h.currentProc]

theorem desc {p r : Pid} (hd : Desc q.Child p r) : Desc (ParentOf m₀) p r := by
  rw [h.mid.sound.rep.child_eq] at hd
  exact Desc.mono (fun a b hab => (h.same b).1.symm.trans hab) hd

theorem killCall {root r : Pid} (hc : Condemns cfg e m₀ root) (hd : Desc q.Child root r) :
    KillCall cfg s.hist r :=
  ⟨e, m₀, h.mid.entry, root, hc, h.desc hd⟩

end Called

/-! ## GETCPUTIME, GETPID -/

theorem getCpuTime_wp (h : Exact cfg s₀ q₀ e m₀ s q) (hcall : IsCall e 1) (hF : s.m.currentProc = none → F .nullDeref) :
    Exec.wp (getCpuTime cfg (e.st T.sysArg1) (e.st T.sysArg2) (e.st T.sysArg3))
      (fun _ s' => Exact cfg s₀ q₀ e m₀ s' q) E F s := by
  unfold getCpuTime
  refine wp_bind_time (.getTODLO cfg) fun t s₁ ht => ?_
  have h₁ := h.time ht
  refine wp_bind_current (fun hn => hF (ht.same.currentProc.symm.trans hn)) fun p _ => ?_
  refine wp_bind_ret (machine_ret s₁) (wp_bind_ret (store_ret _ _ s₁) ?_)
  have h₂ := h₁.output (Or.inl ⟨hcall, Or.inr (Or.inr rfl)⟩)
    ((t.zeroExtend 64 - (s₁.m.pool.pcbs p).startTm).truncate 32)
  refine wp_bind_ret (store_ret _ _ _) ?_
  have h₃ := h₂.output (Or.inl ⟨hcall, Or.inl rfl⟩) ((s₁.m.pool.pcbs p).userTm.truncate 32)
  refine wp_bind_time (.schedulerAccountTime cfg true) fun _ s₄ ht₄ => ?_
  refine wp_bind_ret (machine_ret s₄) (wp_ret (store_ret _ _ s₄) ?_)
  exact (h₃.time ht₄).output (Or.inl ⟨hcall, Or.inr (Or.inl rfl)⟩) _

theorem getPid_wp (h : Exact cfg s₀ q₀ e m₀ s q) (hcall : IsCall e 8) (hF : s.m.currentProc = none → F .nullDeref) :
    Exec.wp (getPid cfg (e.st T.sysArg1) (e.st T.sysArg2)) (fun _ s' => Exact cfg s₀ q₀ e m₀ s' q) E F s := by
  have ho : ∀ a, a = e.st T.sysArg1 ∨ a = e.st T.sysArg2 → Outputs e m₀ a := fun a ha =>
    Or.inr (Or.inr (Or.inr (Or.inl ⟨hcall, ha⟩)))
  unfold getPid
  refine wp_bind_ret (machine_ret s) ?_
  rw [Exec.wp_bind, Exec.wp_guarded]
  have hrest : ∀ s₁, Exact cfg s₀ q₀ e m₀ s₁ q → s₁.m.currentProc = s.m.currentProc →
      Exec.wp (Exec.guarded (decide (e.st T.sysArg2 ≠ 0)) do
        let cur ← current
        store (e.st T.sysArg2) (cfg.pcbPtr (s.m.pool.pcbs cur).pParent))
        (fun _ s' => Exact cfg s₀ q₀ e m₀ s' q) E F s₁ := by
    intro s₁ h₁ hcur
    rw [Exec.wp_guarded]
    split
    next =>
      refine wp_bind_current (fun hn => hF (hcur.symm.trans hn)) fun p _ => ?_
      exact wp_ret (store_ret _ _ s₁) (h₁.output (ho _ (Or.inr rfl)) _)
    next => exact h₁
  split
  next => exact wp_ret (store_ret _ _ s) (hrest _ (h.output (ho _ (Or.inl rfl)) _) rfl)
  next => exact hrest s h rfl

/-! ## CREATEPROCESS -/

/-- A PCB is allocated, filled in and becomes ready. -/
theorem spawn_run {out : List Pid} (hs : Sound s.m.pool q out) {p : Pid} {rest : List Pid}
    (hf : q.free = p :: rest) (st : CpuState T) (prio : Int) :
    ∃ l l', KM.pool pcbAlloc s = .ret (some p) ((s.setPcb p fun _ => Pcb.zero).relink l) ∧
      schedulerEnqueueProcess (some p) (s.spawned p l st prio) = .ret () ((s.spawned p l st prio).enqueued p l') ∧
      p ∉ out ∧ Sound ((s.spawned p l st prio).enqueued p l').m.pool
        ((q.alloc p).enqueue ((s.spawned p l st prio).resetPrio p).prio p) out := by
  have hq : q.Queued p := Or.inl (hf ▸ List.mem_cons_self)
  have hout : p ∉ out := fun hm => hs.placed.outside p hm hq
  obtain ⟨l, hl, hrep⟩ := hs.rep.alloc_cons hf
  have hrep₀ := rep_setPcb (s := (s.setPcb p fun _ => Pcb.zero).relink l) hrep p
    (f := fun x => { x with pS := st }) (fun _ => rfl) (fun _ => rfl)
  have hrep₁ : Rep (s.spawned p l st prio).m.pool (q.alloc p) :=
    rep_setPcb hrep₀ p (f := fun x => { x with originalPriority := prio }) (fun _ => rfl) (fun _ => rfl)
  have hs₁ : Sound (s.spawned p l st prio).m.pool (q.alloc p) (p :: out) :=
    ⟨hrep₁, hs.placed.lift hq rfl (queued_pop_free hs.rep.apart hf hs.placed.heads),
      hs.tree.alloc hf hs.rep.apart.free_nodup (hs.placed.small p hq)⟩
  obtain ⟨l', hl', hs₂⟩ := enqueue_run hs₁ hout
  exact ⟨l, l', pool_ret hl, hl', hout, hs₂⟩

theorem isInt_toInt (w : Word) : IsInt w.toInt := ⟨BitVec.le_toInt w, BitVec.toInt_lt⟩

theorem Exact.spawn (h : Exact cfg s₀ q₀ e m₀ s q) {p : Pid} {rest : List Pid} (hf : q.free = p :: rest)
    (st : CpuState T) {prio : Int} (hprio : IsInt prio) :
    ∃ l l', KM.pool pcbAlloc s = .ret (some p) ((s.setPcb p fun _ => Pcb.zero).relink l) ∧
      schedulerEnqueueProcess (some p) (s.spawned p l st prio) = .ret () ((s.spawned p l st prio).enqueued p l') ∧
      Exact cfg s₀ q₀ e m₀ ((s.spawned p l st prio).enqueued p l')
        ((q.alloc p).enqueue ((s.spawned p l st prio).resetPrio p).prio p) := by
  obtain ⟨l, l', hl, hl', hout, hs'⟩ := spawn_run h.mid.sound hf st prio
  refine ⟨l, l', hl, hl', h.act (.spawn hf hprio) hs' rfl rfl rfl rfl fun r hr => ?_⟩
  change (if p = r then some st else Spec.context r s.hist) = Spec.context r s.hist
  refine if_neg ?_
  rintro rfl
  exact hout (Option.mem_toList.mpr hr)

/-- The new process is a root without children, and ready. -/
theorem spawned_fresh {out : List Pid} (hs : Sound s.m.pool q out) {p : Pid} {rest : List Pid} (hf : q.free = p :: rest)
    (st : CpuState T) (prio : Int) (l l' : Links Node) :
    (p < maxProc ∧ p ∉ ((q.alloc p).enqueue ((s.spawned p l st prio).resetPrio p).prio p).free) ∧
    ((q.alloc p).enqueue ((s.spawned p l st prio).resetPrio p).prio p).Queued p ∧
    (((s.spawned p l st prio).enqueued p l').m.pool.pcbs p).pParent = none ∧
    ((q.alloc p).enqueue ((s.spawned p l st prio).resetPrio p).prio p).kids p = some [] := by
  have hnd := hs.rep.apart.free_nodup
  rw [hf, List.nodup_cons] at hnd
  refine ⟨⟨hs.placed.small p (Or.inl (hf ▸ List.mem_cons_self)), ?_⟩, ?_, ?_, Function.update_self p _ q.kids⟩
  · change p ∉ q.free.tail
    rw [hf]
    exact hnd.1
  · exact (queued_enqueue (q := q.alloc p) ((s.spawned p l st prio).resetPrio p).prio p).mpr (Or.inr rfl)
  · simp [KState.enqueued, KState.spawned, KState.resetPrio, KState.setPcb, KState.relink, KState.setPool,
      KState.push, Pcb.zero]

/-- A root becomes a child of a process that is in no list. -/
theorem adopt_sound {out : List Pid} (hs : Sound s.m.pool q out) {parent p : Pid} (hparent : parent < maxProc)
    (hnq : ¬ q.Queued parent) (hp : p < maxProc ∧ p ∉ q.free) (hq : q.Queued p)
    (hroot : (s.m.pool.pcbs p).pParent = none) (hleaf : q.kids p = some []) :
    ∃ l, KM.pool (pcbInsertChild parent p) s =
        .ret () ((s.setPcb p fun x => { x with pParent := some parent }).relink l) ∧
      Sound ((s.setPcb p fun x => { x with pParent := some parent }).relink l).m.pool (q.adopt parent p) out := by
  have halive : parent < maxProc ∧ parent ∉ q.free := ⟨hparent, fun hf => hnq (Or.inl hf)⟩
  obtain ⟨cs, hk⟩ := (hs.tree.alive parent).mpr halive
  obtain ⟨l, hl, hrep, -⟩ := hs.rep.insertChild hk hroot (lt_trans hp.1 maxProc_lt) hp.2
  have hnc : ∀ r, ¬ q.Child r p := fun r hr => by
    rw [hs.rep.parent_iff, hroot] at hr
    cases hr
  have htree := hs.tree.adopt halive hp hnc (Tree.not_desc_leaf hleaf fun he => hnq (he ▸ hq))
  exact ⟨l, pool_ret hl, hrep, hs.placed.congr rfl fun _ => Iff.rfl, htree⟩

/-- The new process becomes a child of the caller. -/
theorem adopt_run (h : Exact cfg s₀ q₀ e m₀ s q) {parent p : Pid} (hcur : s.m.currentProc = some parent)
    (hp : p < maxProc ∧ p ∉ q.free) (hq : q.Queued p) (hroot : (s.m.pool.pcbs p).pParent = none)
    (hleaf : q.kids p = some []) :
    ∃ l, KM.pool (pcbInsertChild parent p) s =
        .ret () ((s.setPcb p fun x => { x with pParent := some parent }).relink l) ∧
      Exact cfg s₀ q₀ e m₀ ((s.setPcb p fun x => { x with pParent := some parent }).relink l) (q.adopt parent p) := by
  obtain ⟨hlt, -, hnq⟩ := h.current_alive hcur
  obtain ⟨l, hl, hs⟩ := adopt_sound h.mid.sound hlt hnq hp hq hroot hleaf
  exact ⟨l, hl, h.act .adopt hs rfl rfl rfl rfl fun _ _ => rfl⟩

theorem startProcess_wp (h : Exact cfg s₀ q₀ e m₀ s q) (hcall : IsCall e 2)
    (hF : s.m.currentProc = none → F .nullDeref) {p : Pid} {rest : List Pid} (hf : q.free = p :: rest)
    {st : CpuState T} {priority : Word} {l l' : Links Node}
    (henq : schedulerEnqueueProcess (some p) (s.spawned p l st priority.toInt) =
      .ret () ((s.spawned p l st priority.toInt).enqueued p l'))
    (h' : Exact cfg s₀ q₀ e m₀ ((s.spawned p l st priority.toInt).enqueued p l')
      ((q.alloc p).enqueue ((s.spawned p l st priority.toInt).resetPrio p).prio p)) :
    Exec.wp (startProcess cfg p st priority (e.st T.sysArg3)) (fun _ s' => ∃ q', Exact cfg s₀ q₀ e m₀ s' q')
      E F ((s.setPcb p fun _ => Pcb.zero).relink l) := by
  obtain ⟨halive, hq, hroot, hleaf⟩ := spawned_fresh h.mid.sound hf st priority.toInt l l'
  unfold startProcess
  refine wp_bind_ret (modifyPcb_ret p _ _) (wp_bind_ret (modifyPcb_ret p _ _) ?_)
  refine wp_bind_ret (note_ret (.create p st) _) (wp_bind_ret henq ?_)
  refine wp_bind_current hF fun cur hcur => ?_
  obtain ⟨l'', hadopt, h''⟩ := adopt_run h' hcur halive hq hroot hleaf
  refine wp_bind_ret hadopt ?_
  exact Exec.wp_conseq (h''.outputWhen (Or.inr (Or.inl ⟨hcall, rfl⟩)) _) fun _ s' hs' => ⟨_, hs'⟩

theorem createProcess_wp (h : Exact cfg s₀ q₀ e m₀ s q) (hcall : IsCall e 2)
    (hF : s.m.currentProc = none → F .nullDeref) (state priority : Word) :
    Exec.wp (createProcess cfg state priority (e.st T.sysArg3)) (fun _ s' => ∃ q', Exact cfg s₀ q₀ e m₀ s' q')
      E F s := by
  have hs := h.mid.sound
  unfold createProcess
  cases hf : q.free with
  | nil => exact wp_bind_ret (pool_ret (hs.rep.alloc_nil hf)) (wp_ret rfl ⟨q, h⟩)
  | cons p rest =>
    obtain ⟨l, l', halloc, henq, h₂⟩ := h.spawn hf (stateAt s.m.mem state) (isInt_toInt priority)
    refine wp_bind_ret halloc (wp_bind_ret (machine_ret _) ?_)
    rw [Exec.wp_bind]
    exact Exec.wp_conseq (startProcess_wp h hcall hF hf henq h₂) fun _ s' hs' => wp_ret rfl hs'

/-! ## TERMINATEPROCESS -/

theorem Called.kill (h : Called cfg s₀ q₀ e m₀ s q) {pid : Pid} (hpid : ∃ cs, q.kids pid = some cs)
    (hcond : Condemns cfg e m₀ pid) (hspare : ∀ c, s.m.currentProc = some c → c = pid ∨ ¬ Desc q.Child pid c) :
    ∃ s' q', schedulerKillProcess pid s = .ret () s' ∧ Exact cfg s₀ q₀ e m₀ s' q' := by
  obtain ⟨s', q', hrun, hmid, hareas, hctx, hcur⟩ := killProcess_run h.mid hpid
    (fun _ hd => h.killCall hcond hd) hspare
  refine ⟨s', q', hrun, hmid, fun p hp => ?_⟩
  have hp' : s.m.currentProc = some p := by
    rw [hcur] at hp
    split at hp
    next => cases hp
    next => exact hp
  rw [hctx, hareas]
  exact h.context p hp'

/-- `terminate_process`, of any process but a proper ancestor of the caller. -/
theorem terminateProcess_wp (h : Called cfg s₀ q₀ e m₀ s q) (hcall : IsCall e 3) (hbounds : InBounds cfg e)
    (hspare : ∀ p c, target cfg m₀ (e.st T.sysArg1) = some p → m₀.currentProc = some c → c = p ∨ ¬ Desc q.Child p c)
    (hF : s.m.currentProc = none → F .nullDeref) :
    Exec.wp (terminateProcess cfg (e.st T.sysArg1)) (fun _ s' => ∃ q', Exact cfg s₀ q₀ e m₀ s' q') E F s := by
  have hs := h.mid.sound
  have hpid := hbounds.pid hcall
  generalize harg : e.st T.sysArg1 = pid at hspare hpid ⊢
  have hfound : ∀ p, target cfg s.m pid = some p → p < maxProc → Exec.wp
      (KM.pool (pcbIsFree p) >>= fun free => if free = true then pure syscallFailure
        else schedulerKillProcess p >>= fun _ => pure syscallSuccess)
      (fun _ s' => ∃ q', Exact cfg s₀ q₀ e m₀ s' q') E F s := by
    intro p ht hsmall
    refine wp_bind_ret (pool_ret (hs.rep.isFree p)) ?_
    by_cases hfree : p ∈ q.free
    · rw [decide_eq_true hfree]
      exact wp_ret rfl ⟨q, h.toExact⟩
    · rw [decide_eq_false hfree]
      have htm : target cfg m₀ pid = some p := (h.target_eq pid).symm.trans ht
      obtain ⟨s', q', hrun, h'⟩ := h.kill ((hs.tree.alive p).mpr ⟨hsmall, hfree⟩)
        (Or.inl ⟨hcall, harg ▸ htm⟩) fun c hc => hspare p c htm (h.currentProc ▸ hc)
      exact wp_bind_ret hrun (wp_ret rfl ⟨q', h'⟩)
  unfold terminateProcess terminated
  by_cases hnull : pid = 0
  · rw [if_pos hnull, Exec.bind_bind]
    refine wp_bind_current hF fun p hp => ?_
    exact hfound p (by unfold target; rw [if_pos hnull, hp]) (h.toExact.current_alive hp).1
  · rw [if_neg hnull]
    obtain ⟨p, hp⟩ := Option.ne_none_iff_exists'.mp (hpid hnull)
    refine wp_bind_ret (a := some p) (by rw [hp]; rfl) ?_
    refine hfound p (by unfold target; rw [if_neg hnull, hp]) ?_
    unfold Cfg.pcbAt at hp
    dsimp only at hp
    split at hp
    next hc => exact Option.some.inj hp ▸ hc.2
    next => cases hp

/-! ## VERHOGEN, PASSEREN, WAITIO -/

theorem verhogen_wp (h : Called cfg s₀ q₀ e m₀ s q) (hcall : IsCall e 4) :
    Exec.wp (verhogen (e.st T.sysArg1)) (fun _ s' => ∃ q', Exact cfg s₀ q₀ e m₀ s' q') E F s := by
  have hs := h.mid.sound
  have hsem := h.semCall hcall
  generalize e.st T.sysArg1 = semaddr at hsem ⊢
  obtain ⟨asl, sf, hrep⟩ := hs.rep
  unfold verhogen
  cases hk : q.waiting semaddr with
  | nil =>
    refine wp_bind_ret (pool_ret (hrep.aslSemd_none hk)) (wp_bind_ret (machine_ret s) ?_)
    refine wp_bind_ret (store_ret _ _ s) (wp_ret (note_ret _ _) ⟨q, ?_⟩)
    exact h.toExact.act (.verhogen hsem hk) hs rfl rfl rfl rfl fun _ _ => rfl
  | cons p rest =>
    obtain ⟨d, -, -, hsemd⟩ := hrep.aslSemd_some (hk ▸ List.cons_ne_nil p rest)
    obtain ⟨l, hpop, hp, hs₁⟩ := removeBlocked_run hs hk
    have hs₂ : Sound ((s.popped p l).push (.verhogen semaddr (some p))).m.pool (q.setWaiting semaddr rest)
      (p :: s.m.currentProc.toList) := hs₁
    obtain ⟨l', henq, hs₃⟩ := enqueue_run hs₂ hp
    refine wp_bind_ret (pool_ret hsemd) (wp_bind_ret hpop (wp_bind_ret (note_ret _ _) (wp_ret henq ?_)))
    exact ⟨_, h.toExact.act (.handOver hsem hk) hs₃ rfl rfl rfl rfl fun _ _ => rfl⟩

/-- `blockOn` after what makes the process block. -/
theorem blockOn_wp (h : Exact cfg s₀ q₀ e m₀ s q) (harea : s.m.oldState = some e.area) {p : Pid}
    (hp : s.m.currentProc = some p) {key : Key} {s₁ : KState T} (hb : Blocking cfg s p key s₁) :
    Exec.wp (blockOn cfg key) (fun _ s' => ∃ q', Exact cfg s₀ q₀ e m₀ s' q') E F s₁ := by
  obtain ⟨-, -, -, hold, -⟩ := hb.same
  obtain ⟨s', q', hrun, hmid, hcur⟩ := schedulerBlockCurrent_run h.mid hp (h.context p hp).1 hb
    (h.context p hp).2
  unfold blockOn
  refine wp_bind_ret (machine_ret s₁) ?_
  rw [hold, harea]
  refine wp_ret hrun ⟨q', hmid, fun r hr => ?_⟩
  rw [hcur] at hr
  cases hr

/-- Nobody is there to block. -/
theorem blockOn_none {Q : Unit → KState T → Prop} {key : Key} (hn : s.m.currentProc = none) (hF : F .nullDeref) :
    Exec.wp (blockOn cfg key) Q E F s := by
  unfold blockOn schedulerBlockCurrent
  refine wp_bind_ret (machine_ret s) (wp_bind_current (fun _ => hF) fun p hp => ?_)
  rw [hn] at hp
  cases hp

theorem passeren_wp (h : Called cfg s₀ q₀ e m₀ s q) (hcall : IsCall e 5)
    (hF : s.m.currentProc = none → F .nullDeref) :
    Exec.wp (passeren cfg (e.st T.sysArg1)) (fun _ s' => ∃ q', Exact cfg s₀ q₀ e m₀ s' q') E F s := by
  have harea : s.m.oldState = some e.area := by rw [h.area]; exact h.oldState
  have hsem := h.semCall hcall
  generalize e.st T.sysArg1 = semaddr at hsem ⊢
  unfold passeren
  refine wp_bind_ret (machine_ret s) ?_
  rw [Exec.wp_ite]
  split
  next hne =>
    refine wp_bind_ret (store_ret _ _ s) (wp_ret (note_ret _ _) ⟨q, ?_⟩)
    exact h.toExact.act (.passeren hsem hne) h.mid.sound rfl rfl rfl rfl fun _ _ => rfl
  next hz =>
    refine wp_bind_ret (note_ret _ s) ?_
    cases hp : s.m.currentProc with
    | none => exact blockOn_none hp (hF hp)
    | some p => exact blockOn_wp h.toExact harea hp (.passeren semaddr hsem (not_not.mp hz))

theorem waitIo_wp (h : Called cfg s₀ q₀ e m₀ s q) (hcall : IsCall e 6)
    (hF : s.m.currentProc = none → F .nullDeref) :
    Exec.wp (waitIo cfg (e.st T.sysArg1) (e.st T.sysArg2) ((e.st T.sysArg3).toNat % 256))
      (fun _ s' => ∃ q', Exact cfg s₀ q₀ e m₀ s' q') E F s := by
  have harea : s.m.oldState = some e.area := by rw [h.area]; exact h.oldState
  unfold waitIo
  refine wp_bind_current hF fun p hp => wp_bind_ret (note_ret _ s) (wp_bind_ret (storeCommand_ret _ _ _) ?_)
  exact blockOn_wp h.toExact harea hp (.waitIo _ _ _ ⟨e, m₀, h.mid.entry, hcall, rfl, rfl, rfl⟩)

/-! ## SPECPASSUP -/

theorem specPassUp_wp (h : Called cfg s₀ q₀ e m₀ s q) (hcall : IsCall e 7) (hbounds : InBounds cfg e)
    (oldArea newArea : Word) (hF : s.m.currentProc = none → F .nullDeref) :
    Exec.wp (specPassUp cfg (e.st T.sysArg1) oldArea newArea) (fun _ s' => ∃ q', Exact cfg s₀ q₀ e m₀ s' q') E F s := by
  unfold specPassUp
  refine wp_bind_current hF fun p hp => ?_
  split
  next hlt =>
    dsimp only
    refine wp_bind_ret (machine_ret s) ?_
    rw [Exec.wp_ite]
    split
    next hreg =>
      obtain ⟨hsmall, hfree, -⟩ := h.toExact.current_alive hp
      rw [(h.same p).2.1] at hreg
      obtain ⟨s', q', hrun, h'⟩ := h.kill ((h.mid.sound.tree.alive p).mpr ⟨hsmall, hfree⟩)
        (Or.inr (Or.inr ⟨(h.context p hp).1, hcall, _, rfl, hreg⟩)) fun c hc => Or.inl (Option.some.inj (hc.symm.trans hp))
      exact wp_bind_ret hrun (wp_ret rfl ⟨q', h'⟩)
    next =>
      have hset : ∀ {s₁ : KState T}, Exact cfg s₀ q₀ e m₀ s₁ q → ∀ new old : Fin 3 → Word,
          Exact cfg s₀ q₀ e m₀ (s₁.setPcb p fun x => { x with excNewAreas := new, excOldAreas := old }) q := by
        intro s₁ h₁ new old
        have hs := h₁.mid.sound
        exact h₁.act (.register p new old)
          ⟨rep_setPcb hs.rep p (fun _ => rfl) (fun _ => rfl), hs.placed, hs.tree⟩ rfl rfl rfl rfl fun _ _ => rfl
      refine wp_bind_ret (modifyPcb_ret p _ s) (wp_bind_ret (modifyPcb_ret p _ _) (wp_ret rfl ⟨q, ?_⟩))
      exact hset (hset h.toExact _ _) _ _
  next hge => exact absurd (hbounds.excType hcall) hge

/-! ## The switch -/

/-- `SYSRETURN(*old_state) = r`. -/
theorem setSysReturn_wp (h : Exact cfg s₀ q₀ e m₀ s q) (harea : e.area = .sysbk) (r : Word) :
    Exec.wp (setSysReturn r) (fun _ s' => ∃ q', Returning cfg s₀ q₀ e m₀ s' q') E F s := by
  unfold setSysReturn
  refine wp_bind_ret (machine_ret s) (wp_ret (setOldArea_ret _ _ s) ⟨q, ?_, fun p hp => ?_⟩)
  · exact h.mid.act (.areas _ _) h.mid.sound rfl rfl
  · obtain ⟨hm, hc⟩ := h.context p hp
    refine ⟨hm, _, hc, Or.inr ⟨r, ?_⟩⟩
    rw [harea]
    exact Function.update_self OldArea.sysbk _ s.m.oldAreas

theorem wp_bind_setSysReturn {x : KM T Word} (harea : e.area = .sysbk)
    (hx : Exec.wp x (fun _ s' => ∃ q', Exact cfg s₀ q₀ e m₀ s' q') E F s) :
    Exec.wp (x >>= setSysReturn) (fun _ s' => ∃ q', Returning cfg s₀ q₀ e m₀ s' q') E F s := by
  rw [Exec.wp_bind]
  refine Exec.wp_conseq hx fun r s' hs' => ?_
  obtain ⟨q', hs'⟩ := hs'
  exact setSysReturn_wp hs' harea r

theorem syscallSwitch_wp (h : Called cfg s₀ q₀ e m₀ s q) (hbounds : InBounds cfg e)
    (hspare : IsCall e 3 → ∀ p c, target cfg m₀ (e.st T.sysArg1) = some p → m₀.currentProc = some c →
      c = p ∨ ¬ Desc q.Child p c)
    (hF : m₀.currentProc = none → F .nullDeref) :
    Exec.wp (syscallSwitch cfg) (fun _ s' => ∃ q', Returning cfg s₀ q₀ e m₀ s' q') (Exited cfg s₀ q₀) F s := by
  obtain ⟨h0, h1, h2, h3⟩ := sysArg_ne_pc T
  have hnull : s.m.currentProc = none → F .nullDeref := fun hn => hF (h.currentProc.symm.trans hn)
  have hx := h.toExact
  have hret : ∀ {x : KM T Unit}, Exec.wp x (fun _ s' => ∃ q', Exact cfg s₀ q₀ e m₀ s' q') (Exited cfg s₀ q₀) F s →
      Exec.wp x (fun _ s' => ∃ q', Returning cfg s₀ q₀ e m₀ s' q') (Exited cfg s₀ q₀) F s := fun hx =>
    Exec.wp_conseq hx fun _ _ hs' => hs'.imp fun _ hs' => hs'.returning
  have hone : ∀ {x : KM T Unit}, Exec.wp x (fun _ s' => Exact cfg s₀ q₀ e m₀ s' q) (Exited cfg s₀ q₀) F s →
      Exec.wp x (fun _ s' => ∃ q', Returning cfg s₀ q₀ e m₀ s' q') (Exited cfg s₀ q₀) F s := fun hx =>
    Exec.wp_conseq hx fun _ _ hs' => ⟨q, hs'.returning⟩
  unfold syscallSwitch
  refine wp_bind_ret (machine_ret s) ?_
  dsimp only
  rw [h.state, advancePc_of_ne _ h0, advancePc_of_ne _ h1, advancePc_of_ne _ h2, advancePc_of_ne _ h3]
  split
  next hn => exact hone (getCpuTime_wp hx (h.call hn) hnull)
  next hn => exact wp_bind_setSysReturn h.area (createProcess_wp hx (h.call hn) hnull _ _)
  next hn =>
    exact wp_bind_setSysReturn h.area (terminateProcess_wp h (h.call hn) hbounds (hspare (h.call hn)) hnull)
  next hn => exact hret (verhogen_wp h (h.call hn))
  next hn => exact hret (passeren_wp h (h.call hn) hnull)
  next hn => exact hret (waitIo_wp h (h.call hn) hnull)
  next hn =>
    exact wp_bind_setSysReturn h.area (specPassUp_wp h (h.call hn) hbounds _ _ hnull)
  next hn => exact hone (getPid_wp hx (h.call hn) hnull)
  next g1 g2 g3 g4 g5 g6 g7 g8 =>
    have hraise : Raises e 0 := by
      unfold Raises
      rw [h.area]
      refine ⟨rfl, ?_⟩
      rintro ⟨n, hlo, hhi, -, -, hn⟩
      have hcases : n = 1 ∨ n = 2 ∨ n = 3 ∨ n = 4 ∨ n = 5 ∨ n = 6 ∨ n = 7 ∨ n = 8 := by omega
      rcases hcases with rfl | rfl | rfl | rfl | rfl | rfl | rfl | rfl
      exacts [g1 hn, g2 hn, g3 hn, g4 hn, g5 hn, g6 hn, g7 hn, g8 hn]
    exact Exec.wp_conseq (schedulerHandleException_wp h.mid hraise h.currentProc h.same hnull)
      fun _ _ hf => hf.elim

/-! ## The handlers -/

/-- The kernel was just entered with `e`. -/
structure Entered (e : Entry T) (s : KState T) (q : Queues) : Prop where
  sound : Sound s.m.pool q s.m.currentProc.toList
  entry : lastEntry s.hist = some (e, s.m)
  slice : sliceOver s.hist = false
  area : s.m.oldAreas e.area = e.st
  hw : s.m.hw = e.hw
  context : ∀ p, s.m.currentProc = some p → context p s.hist = some (adjusted e)

namespace Entered
variable (h : Entered e s q)
include h

theorem mid : Mid cfg s q e s.m s q s.m.currentProc.toList := ⟨.refl, h.sound, h.entry, h.slice⟩

theorem syscallHandler_wp (harea : e.area = .sysbk) (hbounds : InBounds cfg e)
    (hspare : IsCall e 3 → ∀ p c, target cfg s.m (e.st T.sysArg1) = some p → s.m.currentProc = some c →
      c = p ∨ ¬ Desc q.Child p c)
    (hF : s.m.currentProc = none → F .nullDeref) :
    Exec.wp (syscallHandler cfg) (fun _ _ => False) (Exited cfg s q) F s := by
  have hst := h.area
  rw [harea] at hst
  unfold syscallHandler
  refine wp_bind_time (.schedulerAccountTime cfg false) fun _ s₁ ht => ?_
  have h₁ : Mid cfg s q e s.m s₁ q s₁.m.currentProc.toList := by
    rw [ht.same.currentProc]
    exact h.mid.time ht
  refine wp_bind_ret (a := ()) (t := s₁.setAreas s₁.m.oldAreas (some .sysbk)) rfl ?_
  generalize hs₂ : s₁.setAreas s₁.m.oldAreas (some .sysbk) = s₂
  have h₂ : Mid cfg s q e s.m s₂ q s₂.m.currentProc.toList := by
    subst hs₂
    exact h₁.act (.areas _ _) h₁.sound rfl rfl
  have hcur₂ : s₂.m.currentProc = s.m.currentProc := hs₂ ▸ ht.same.currentProc
  have hst₂ : s₂.m.oldAreas .sysbk = e.st := by
    subst hs₂
    exact (congrFun ht.same.oldAreas .sysbk).trans hst
  have hctx₂ : ∀ p, s₂.m.currentProc = some p → Spec.context p s₂.hist = some (adjusted e) := by
    intro p hp
    subst hs₂
    exact (ht.context_eq p).trans (h.context p (hcur₂ ▸ hp))
  have hresume : ∀ {s₃ : KState T} {q₃ : Queues}, Returning cfg s q e s.m s₃ q₃ →
      Exec.wp (schedulerResume cfg false (some .sysbk)) (fun _ _ => False) (Exited cfg s q) F s₃ := by
    intro s₃ q₃ h₃
    refine schedulerResume_wp h₃ (fun _ _ => by rw [harea]) fun hc => ?_
    cases hc
  refine wp_bind_ret (machine_ret s₂) ?_
  rw [Exec.wp_bind, Exec.wp_guarded, hst₂]
  split
  next hc =>
    have hc : T.causeExc (e.st T.cause) = T.causeSyscall := of_decide_eq_true hc
    have hadj := adjusted_syscall harea hc
    unfold systemCall
    refine wp_bind_ret (machine_ret s₂) (wp_bind_ret (setOldArea_ret _ _ s₂) ?_)
    rw [hst₂]
    have harea₃ : Function.update s₂.m.oldAreas .sysbk (advancePc e.st) .sysbk = advancePc e.st :=
      Function.update_self _ _ _
    refine Exec.wp_conseq (syscallSwitch_wp ⟨⟨h₂.act (.areas _ _) h₂.sound rfl rfl, ?_⟩, harea, hc, ?_, harea₃,
      hcur₂, ?_, ?_⟩ hbounds hspare hF) fun _ s' hs' => ?_
    · intro p hp
      refine ⟨hcur₂ ▸ hp, (hctx₂ p hp).trans ?_⟩
      rw [hadj, harea]
      exact congrArg some harea₃.symm
    · subst hs₂
      rfl
    · subst hs₂
      exact ht.same.mem
    · intro p
      subst hs₂
      exact ⟨ht.same.pParent p, ht.same.excNewAreas p, ht.same.excOldAreas p⟩
    · obtain ⟨q', hs'⟩ := hs'
      exact hresume hs'
  next hc =>
    have hadj : adjusted e = e.st :=
      adjusted_exception (by rw [harea]; decide) fun he => hc (decide_eq_true he.2)
    refine hresume ⟨h₂, fun p hp => ⟨hcur₂ ▸ hp, _, hctx₂ p hp, Or.inl ?_⟩⟩
    rw [hadj, harea, hst₂]

theorem schedulerHandleException_wp {type : Fin 3} {old : OldArea} (hraise : Raises e type)
    (hF : s.m.currentProc = none → F .nullDeref) :
    Exec.wp (schedulerHandleException cfg type old) (fun _ _ => False) (Exited cfg s q) F s :=
  Kernel.schedulerHandleException_wp h.mid hraise rfl (fun _ => ⟨rfl, rfl, rfl⟩) hF

theorem interruptsHandler_wp {V : Prop} (harea : e.area = .int) (hV : V → Waited cfg s.m.hw q)
    (hF : ¬V → F .nullDeref) :
    Exec.wp (interruptsHandler cfg) (fun _ _ => False) (Exited cfg s q) F s :=
  Kernel.interruptsHandler_wp h.mid harea (harea ▸ h.area) h.context rfl h.hw hV hF

end Entered
end Bikaya.Kernel
