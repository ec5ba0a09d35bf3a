import Bikaya.Results.Killing
import Bikaya.Spec.System

/-!
# The system that a machine shows

`systemOf m` : the abstract system, as a walk over the lists of `m` reads it. `Shows cfg s q out S` : the machine of
`s` holds the lists `q` and shows `S`. One lemma for each piece of the kernel's code that changes the lists or the
processes says what it does to the system.
-/

namespace Bikaya.Spec
open Bikaya.Lib Bikaya.Model

variable {T : Target}

/-- A control block as a process. -/
def procOf (x : Pcb T) : Process T :=
  ⟨x.pS, x.priority, x.originalPriority, x.pParent, x.excNewAreas, x.excOldAreas⟩

def systemOf (m : Machine T) : System T where
  running := m.currentProc
  ready := readyList m
  waiting := waitingList m
  process := fun p => if Alive m p then some (procOf (m.pool.pcbs p)) else none
  mem := m.mem
  hw := m.hw

/-- The same from the lists that the links hold. -/
def sysOf (q : Queues) (m : Machine T) : System T where
  running := m.currentProc
  ready := q.ready
  waiting := q.waiting
  process := fun p => if p < maxProc ∧ p ∉ q.free then some (procOf (m.pool.pcbs p)) else none
  mem := m.mem
  hw := m.hw

end Bikaya.Spec

namespace Bikaya.Refine
open Bikaya.Model Bikaya.Spec

variable {T : Target}

/-- Who is in a list other than the free one lives. -/
theorem Sound.alive {pool : Pool T} {q : Queues} {out : List Pid} (h : Sound pool q out) {p : Pid}
    (hp : p ∈ out ∨ p ∈ q.ready ∨ ∃ k, p ∈ q.waiting k) : p < maxProc ∧ p ∉ q.free := by
  rcases hp with hp | hp | ⟨k, hp⟩
  · exact ⟨h.placed.outSmall p hp, fun hf => h.placed.outside p hp (Or.inl hf)⟩
  · exact ⟨h.placed.small p (Or.inr (Or.inl hp)), h.rep.apart.ready_not_free hp⟩
  · exact ⟨h.placed.small p (Or.inr (Or.inr (Or.inl ⟨k, hp⟩))), h.rep.apart.waiting_not_free hp⟩

end Bikaya.Refine

namespace Bikaya.Kernel
open Bikaya.Lib Bikaya.Model Bikaya.Spec Bikaya.Refine Bikaya.Model.KM

variable {T : Target} {cfg : Cfg T}

theorem systemOf_eq {m : Machine T} {q : Queues} (h : Rep m.pool q) : systemOf m = sysOf q m := by
  have hfree : freeList m = q.free := h.freeList_eq
  ext1
  · rfl
  · exact h.readyList_eq
  · exact funext h.waitingList_eq
  · funext p
    simp only [systemOf, sysOf, Alive, hfree]
  · rfl
  · rfl

/-! ## Processes -/

section
variable {q : Queues} {m m' : Machine T} {p : Pid}

theorem process_sysOf (hp : p < maxProc ∧ p ∉ q.free) : (sysOf q m).process p = some (procOf (m.pool.pcbs p)) := if_pos hp

theorem process_eq_none : (sysOf q m).process p = none ↔ ¬ (p < maxProc ∧ p ∉ q.free) := by
  simp only [sysOf]
  split <;> simp [*]

theorem process_eq_some {x : Process T} :
    (sysOf q m).process p = some x ↔ (p < maxProc ∧ p ∉ q.free) ∧ x = procOf (m.pool.pcbs p) := by
  simp only [sysOf]
  split <;> simp [*, eq_comm]

theorem prio_sysOf (hp : p < maxProc ∧ p ∉ q.free) : (sysOf q m).prio p = (m.pool.pcbs p).priority := by
  unfold System.prio
  rw [process_sysOf hp]
  rfl

/-- One process changes. -/
theorem process_alter {q' : Queues} {f : Process T → Process T} (hfree : q'.free = q.free)
    (hp : procOf (m'.pool.pcbs p) = f (procOf (m.pool.pcbs p)))
    (hne : ∀ r, r ≠ p → procOf (m'.pool.pcbs r) = procOf (m.pool.pcbs r)) :
    (sysOf q' m').process = ((sysOf q m).alter p f).process := by
  funext r
  by_cases hr : r = p
  · subst hr
    simp only [System.alter, Function.update_self, sysOf, hfree]
    split
    · rw [hp]
      rfl
    · rfl
  · simp only [System.alter, Function.update_of_ne hr, sysOf, hfree, hne r hr]

end

/-! ## The relation -/

structure Shows (cfg : Cfg T) (s : KState T) (q : Queues) (out : List Pid) (S : System T) : Prop where
  sound : Sound s.m.pool q out
  system : sysOf q s.m = S
  idle : s.m.idleProcState = kernelState cfg.idleCode cfg.stst

namespace Shows
variable {s s' : KState T} {q q' : Queues} {out : List Pid} {S : System T} {p : Pid}

section
variable (h : Shows cfg s q out S)
include h

theorem running : S.running = s.m.currentProc := h.system ▸ rfl

theorem ready : S.ready = q.ready := h.system ▸ rfl

theorem waiting : S.waiting = q.waiting := h.system ▸ rfl

theorem mem : S.mem = s.m.mem := h.system ▸ rfl

theorem hw : S.hw = s.m.hw := h.system ▸ rfl

theorem process_some {x : Process T} :
    S.process p = some x ↔ (p < maxProc ∧ p ∉ q.free) ∧ x = procOf (s.m.pool.pcbs p) := by
  rw [← h.system, process_eq_some]

theorem process (hp : p < maxProc ∧ p ∉ q.free) : S.process p = some (procOf (s.m.pool.pcbs p)) :=
  h.process_some.mpr ⟨hp, rfl⟩

theorem process_none : S.process p = none ↔ ¬ (p < maxProc ∧ p ∉ q.free) := by
  rw [← h.system, process_eq_none]

theorem prio (hp : p < maxProc ∧ p ∉ q.free) : S.prio p = s.prio p := by
  rw [← h.system]
  exact prio_sysOf hp

/-! ## Changes that the system does not see, or sees as they are -/

theorem time (ht : Timed s s') : Shows cfg s' q out S where
  sound := ht.same.sound h.sound
  system := by
    rw [← h.system]
    ext1
    · exact ht.same.currentProc
    · rfl
    · rfl
    · funext r
      simp only [sysOf, procOf, ht.same.pS, ht.same.priority, ht.same.originalPriority, ht.same.pParent,
        ht.same.excNewAreas, ht.same.excOldAreas]
    · exact ht.same.mem
    · exact ht.same.hw
  idle := ht.same.idleProcState.trans h.idle

theorem push (o : Obs T) : Shows cfg (s.push o) q out S := ⟨h.sound, h.system, h.idle⟩

theorem areas (areas : OldArea → CpuState T) (old : Option OldArea) : Shows cfg (s.setAreas areas old) q out S :=
  ⟨h.sound, h.system, h.idle⟩

theorem entered (e : Entry T) : Shows cfg (s.entered e) q out (S.entered e) where
  sound := h.sound
  system := by
    rw [← h.system]
    rfl
  idle := h.idle

theorem setMem (mem : Word → Word) : Shows cfg (s.setMem mem) q out { S with mem := mem } where
  sound := h.sound
  system := by
    rw [← h.system]
    rfl
  idle := h.idle

theorem store (a w : Word) : Shows cfg (s.setMem (Function.update s.m.mem a w)) q out (S.store a w) := by
  unfold System.store
  rw [h.mem]
  exact h.setMem _

theorem command (a cmd : Word) : Shows cfg (s.commanded a cmd) q out (S.command a cmd) := by
  unfold KState.commanded System.command
  cases Hw.fnAt T a with
  | none => exact h.store a cmd
  | some f =>
    refine ⟨h.sound, ?_, h.idle⟩
    rw [← h.system]
    rfl

/-- A field of a process that is not a link changes. -/
theorem setPcb (p : Pid) {f : Pcb T → Pcb T} {g : Process T → Process T} (hpar : ∀ x, (f x).pParent = x.pParent)
    (hkey : ∀ x, (f x).pSemkey = x.pSemkey) (hfg : ∀ x, procOf (f x) = g (procOf x)) :
    Shows cfg (s.setPcb p f) q out (S.alter p g) where
  sound := ⟨rep_setPcb h.sound.rep p hpar hkey, h.sound.placed, h.sound.tree⟩
  system := by
    rw [← h.system]
    ext1
    · rfl
    · rfl
    · rfl
    · refine process_alter rfl ?_ fun r hr => ?_
      · rw [setPcb_self]
        exact hfg _
      · rw [setPcb_ne s f hr]
    · rfl
    · rfl
  idle := h.idle

theorem save (p : Pid) (st : CpuState T) : Shows cfg (s.setPcb p fun x => { x with pS := st }) q out (S.save p st) :=
  h.setPcb p (fun _ => rfl) (fun _ => rfl) fun _ => rfl

end
/-! ## The ready queue -/

section
variable {key : Key} {rest : List Pid}

theorem enqueued (h : Shows cfg s q (p :: out) S) {l : Links Node}
    (hs : Sound (s.enqueued p l).m.pool (q.enqueue (s.resetPrio p).prio p) out) :
    Shows cfg (s.enqueued p l) (q.enqueue (s.resetPrio p).prio p) out (S.wake p) := by
  have h₁ : Shows cfg (s.resetPrio p) q (p :: out) (S.alter p fun x => { x with priority := x.original }) :=
    h.setPcb p (fun _ => rfl) (fun _ => rfl) fun _ => rfl
  refine ⟨hs, ?_, h.idle⟩
  unfold System.wake
  rw [← h₁.system]
  ext1
  · rfl
  · refine (insertPrio_congr _ p ?_ fun r hr => ?_).symm
    · exact prio_sysOf (h₁.sound.alive (Or.inl List.mem_cons_self))
    · exact prio_sysOf (h₁.sound.alive (Or.inr (Or.inl hr)))
  · rfl
  · rfl
  · rfl
  · rfl

/-- `scheduler_enqueue_process`. -/
theorem enqueue (h : Shows cfg s q (p :: out) S) (hp : p ∉ out) :
    ∃ l, schedulerEnqueueProcess (some p) s = .ret () (s.enqueued p l) ∧
      Shows cfg (s.enqueued p l) (q.enqueue (s.resetPrio p).prio p) out (S.wake p) := by
  obtain ⟨l, hrun, hs⟩ := enqueue_run h.sound hp
  exact ⟨l, hrun, h.enqueued hs⟩

/-- The ready processes age. -/
theorem age (h : Shows cfg s q out S) : Shows cfg (s.aged cfg q.ready) q out (S.age cfg.prio) where
  sound := ⟨h.sound.rep.setPcbs (aged_field Pcb.pParent (fun _ _ => rfl) cfg s q.ready)
    (aged_field Pcb.pSemkey (fun _ _ => rfl) cfg s q.ready), h.sound.placed, h.sound.tree⟩
  system := by
    rw [← h.system]
    ext1
    · rfl
    · rfl
    · rfl
    · funext r
      by_cases hr : r ∈ q.ready
      · have hpcb : (s.aged cfg q.ready).m.pool.pcbs r =
            { s.m.pool.pcbs r with priority := cfg.prio.succ (s.m.pool.pcbs r).priority } := if_pos hr
        have hp := h.sound.alive (Or.inr (Or.inl hr))
        simp only [sysOf, System.age, if_pos hr, if_pos hp, hpcb]
        rfl
      · have hpcb : (s.aged cfg q.ready).m.pool.pcbs r = s.m.pool.pcbs r := if_neg hr
        simp [sysOf, System.age, hr, hpcb]
    · rfl
    · rfl
  idle := h.idle

/-- The waiters of a key lose the first one. -/
theorem pop (h : Shows cfg s q out S) (hk : S.waiting key = p :: rest) :
    ∃ l, KM.pool (aslRemoveBlocked key) s = .ret (some p) (s.popped p l) ∧ p ∉ out ∧
      Shows cfg (s.popped p l) (q.setWaiting key rest) (p :: out) (S.setWaiting key rest) := by
  rw [h.waiting] at hk
  obtain ⟨l, hrun, hp, hs⟩ := removeBlocked_run h.sound hk
  refine ⟨l, hrun, hp, hs, ?_, h.idle⟩
  rw [← h.system]
  ext1
  · rfl
  · rfl
  · rfl
  · funext r
    have hr : procOf ((s.popped p l).m.pool.pcbs r) = procOf (s.m.pool.pcbs r) :=
      popped_field procOf (fun _ _ => rfl) s p l r
    simp only [sysOf, System.setWaiting, Queues.setWaiting, hr]
  · rfl
  · rfl

/-- `asl_insert_blocked` of a process that is in no list. -/
theorem insertBlocked (h : Shows cfg s q (p :: out) S) (hp : p ∉ out) (key : Key) :
    ∃ pool q', KM.pool (aslInsertBlocked key p) s = .ret false (s.setPool pool) ∧
      Shows cfg (s.setPool pool) q' out (S.setWaiting key (insertPrio S.prio p (S.waiting key))) := by
  obtain ⟨pool, hrun, hpcbs, hs⟩ := insertBlocked_run h.sound hp key
  refine ⟨pool, _, pool_ret hrun, hs, ?_, h.idle⟩
  have hproc : ∀ r, procOf (pool.pcbs r) = procOf (s.m.pool.pcbs r) := by
    intro r
    rw [hpcbs]
    by_cases hr : r = p
    · subst hr
      rw [Function.update_self]
      rfl
    · rw [Function.update_of_ne hr]
  have hins : insertPrio S.prio p (S.waiting key) = insertPrio s.prio p (q.waiting key) := by
    rw [h.waiting]
    refine insertPrio_congr _ p (h.prio (h.sound.alive (Or.inl List.mem_cons_self))) fun r hr => ?_
    exact h.prio (h.sound.alive (Or.inr (Or.inr ⟨key, hr⟩)))
  rw [hins, ← h.system]
  ext1
  · rfl
  · rfl
  · rfl
  · funext r
    simp only [sysOf, System.setWaiting, Queues.setWaiting, KState.setPool, hproc r]
  · rfl
  · rfl

end
/-! ## Births and deaths -/

/-- A PCB is allocated, filled in and becomes ready. -/
theorem spawn {rest : List Pid} (h : Shows cfg s q out S) (hf : q.free = p :: rest) (st : CpuState T) (prio : Int) :
    ∃ l l', KM.pool pcbAlloc s = .ret (some p) ((s.setPcb p fun _ => Pcb.zero).relink l) ∧
      schedulerEnqueueProcess (some p) (s.spawned p l st prio) = .ret () ((s.spawned p l st prio).enqueued p l') ∧
      Shows cfg ((s.spawned p l st prio).enqueued p l')
        ((q.alloc p).enqueue ((s.spawned p l st prio).resetPrio p).prio p) out (S.spawn p st prio none) := by
  obtain ⟨l, l', halloc, henq, -, hs⟩ := spawn_run h.sound hf st prio
  have hp : p ∈ q.free := hf ▸ List.mem_cons_self
  have hsmall := h.sound.placed.small p (Or.inl hp)
  have hnd := h.sound.rep.apart.free_nodup
  rw [hf, List.nodup_cons] at hnd
  have hpcb : (((s.spawned p l st prio).enqueued p l').m.pool.pcbs p) =
      { (Pcb.zero : Pcb T) with pS := st, originalPriority := prio, priority := prio } := by
    simp [KState.enqueued, KState.resetPrio, KState.spawned, KState.setPcb, KState.relink, KState.setPool, KState.push]
  have hother : ∀ r, r ≠ p → ((s.spawned p l st prio).enqueued p l').m.pool.pcbs r = s.m.pool.pcbs r := by
    intro r hr
    simp [KState.enqueued, KState.resetPrio, KState.spawned, KState.setPcb, KState.relink, KState.setPool, KState.push, hr]
  refine ⟨l, l', halloc, henq, hs, ?_, h.idle⟩
  rw [← h.system]
  ext1
  · rfl
  · refine (insertPrio_congr _ p ?_ fun r hr => ?_).symm
    · have := congrArg Pcb.priority hpcb
      simp [System.prio, System.alter]
      exact this.symm
    · have hne : r ≠ p := fun he => h.sound.rep.apart.ready_not_free hr (he ▸ hp)
      simp only [System.prio, System.alter, Function.update_of_ne hne]
      exact (prio_sysOf (h.sound.alive (Or.inr (Or.inl hr)))).trans (congrArg Pcb.priority (hother r hne)).symm
  · rfl
  · funext r
    by_cases hr : r = p
    · subst hr
      simp [sysOf, System.spawn, System.wake, System.alter, Queues.enqueue, Queues.alloc, Queues.setKids, hf, hsmall,
        hnd.1, hpcb, procOf, Pcb.zero]
    · simp [sysOf, System.spawn, System.wake, System.alter, Queues.enqueue, Queues.alloc, Queues.setKids, hf, hr,
        hother r hr]
  · rfl
  · rfl

/-- A fresh process gets its parent, who is in no list. -/
theorem adopt (h : Shows cfg s q out S) {parent : Pid} (hparent : parent ∈ out) (hp : p < maxProc ∧ p ∉ q.free)
    (hq : q.Queued p) (hroot : (s.m.pool.pcbs p).pParent = none) (hleaf : q.kids p = some []) :
    ∃ l, KM.pool (pcbInsertChild parent p) s =
        .ret () ((s.setPcb p fun x => { x with pParent := some parent }).relink l) ∧
      Shows cfg ((s.setPcb p fun x => { x with pParent := some parent }).relink l) (q.adopt parent p) out
        (S.alter p fun x => { x with parent := some parent }) := by
  obtain ⟨l, hrun, hs⟩ := adopt_sound h.sound (h.sound.placed.outSmall parent hparent)
    (h.sound.placed.outside parent hparent) hp hq hroot hleaf
  refine ⟨l, hrun, hs, ?_, h.idle⟩
  rw [← h.system]
  ext1
  · rfl
  · rfl
  · rfl
  · let adopted (x : Pcb T) : Pcb T := { x with pParent := some parent }
    refine process_alter rfl ?_ fun r hr => ?_
    · exact congrArg procOf (setPcb_self s p adopted)
    · exact congrArg procOf (setPcb_ne s adopted hr)
  · rfl
  · rfl

theorem child_iff (h : Shows cfg s q out S) (r c : Pid) : S.Child r c ↔ q.Child r c := by
  unfold System.Child System.parent
  rw [h.sound.rep.parent_iff, ← h.system]
  constructor
  · intro hc
    obtain ⟨x, hx, hpar⟩ := Option.bind_eq_some_iff.mp hc
    obtain ⟨-, rfl⟩ := process_eq_some.mp hx
    exact hpar
  · intro hc
    rw [process_sysOf (h.sound.tree.child_alive r c ((h.sound.rep.parent_iff r c).mpr hc))]
    exact hc

theorem child_eq (h : Shows cfg s q out S) : S.Child = q.Child :=
  funext fun r => funext fun c => propext (h.child_iff r c)

/-- `scheduler_kill_process` of a live process that is running or no ancestor of the one that runs. -/
theorem kill (h : Shows cfg s q s.m.currentProc.toList S) {pid : Pid} (hpid : pid < maxProc ∧ pid ∉ q.free)
    (hcur : ∀ c, S.running = some c → c = pid ∨ ¬ Desc S.Child pid c) :
    ∃ s' q', schedulerKillProcess pid s = .ret () s' ∧ Shows cfg s' q' s'.m.currentProc.toList (S.kill pid) ∧
      s'.m.oldAreas = s.m.oldAreas ∧ ∀ c, s'.m.currentProc = some c ↔ s.m.currentProc = some c ∧ c ≠ pid := by
  have hs := h.sound
  have hkids := (hs.tree.alive pid).mpr hpid
  rw [h.child_eq, h.running] at hcur
  -- `current_proc` is cleared first if it is the victim
  let cur : Option Pid := if s.m.currentProc = some pid then none else s.m.currentProc
  have hcur_iff : ∀ c, cur = some c ↔ s.m.currentProc = some c ∧ c ≠ pid := by
    intro c
    simp only [cur]
    split
    next hc => simp [hc, eq_comm]
    next hc => exact ⟨fun he => ⟨he, fun hcp => hc (hcp ▸ he)⟩, fun he => he.1⟩
  have hclear : Exec.guarded (decide (s.m.currentProc = some pid)) (setCurrent none) s = .ret () (s.setCurrent cur) := by
    by_cases hc : s.m.currentProc = some pid
    · simp only [cur, hc, decide_true, Exec.guarded, if_true]
      rfl
    · simp only [cur, hc, decide_false, Exec.guarded, if_false]
      rfl
  obtain ⟨ps, s', q', hrun, hk⟩ := killTree_run (s := s.setCurrent cur) hs hkids
  have hf := KillFrame.of_buries hk.buries
  obtain ⟨hfree, hready, hwaiting⟩ := Results.buries_lists hk.buries hs
  obtain ⟨hpcbs, -, hmachine⟩ := Results.buries_pcbs hk.buries
  have hcurrent : s'.m.currentProc = cur := hf.currentProc
  have hvictim : pid ∈ ps := (hk.mem pid).mpr Relation.ReflTransGen.refl
  have hother : ∀ c, s.m.currentProc = some c → c ≠ pid → c ∉ ps := fun c hc hne hm =>
    ((hcur c hc).resolve_left hne) ((hk.mem c).mp hm)
  have hfilter : cur = s.m.currentProc.filter fun r => decide (r ∉ ps) := by
    cases hc : s.m.currentProc with
    | none => simp [cur, hc]
    | some c =>
      by_cases hcp : c = pid
      · simp [cur, hc, hcp, hvictim, Option.filter]
      · simp [cur, hc, hcp, hother c hc hcp, Option.filter]
  have hrest : without s.m.currentProc.toList ps = s'.m.currentProc.toList := by
    rw [hcurrent, hfilter]
    cases s.m.currentProc with
    | none => rfl
    | some c => by_cases hc : c ∈ ps <;> simp [without, Option.filter, hc]
  have hs' := hk.buries.sound hs
  rw [hrest] at hs'
  refine ⟨s', q', ?_, ⟨hs', ?_, ?_⟩, hf.oldAreas, fun c => hcurrent ▸ hcur_iff c⟩
  · unfold schedulerKillProcess
    rw [bind_ret (machine_ret s), bind_ret hclear]
    exact hrun
  · have hspared : S.spared pid = fun r => decide (r ∉ ps) := by
      funext r
      rw [Bool.eq_iff_iff, System.spared_iff, h.child_eq, decide_eq_true_iff, hk.mem r]
    have hproc : ∀ r, r ∉ ps → s'.m.pool.pcbs r = s.m.pool.pcbs r := fun r hr => (hpcbs r).trans (if_neg hr)
    unfold System.kill
    rw [hspared, ← h.system]
    ext1
    · exact hcurrent.trans hfilter
    · exact hready
    · exact funext hwaiting
    · funext r
      by_cases hr : r ∈ ps
      · simp [sysOf, hfree, hr]
      · simp [sysOf, hfree, hr, hproc r hr]
    · rw [hmachine]
      rfl
    · rw [hmachine]
      rfl
  · rw [hmachine]
    exact h.idle

end Shows
end Bikaya.Kernel
