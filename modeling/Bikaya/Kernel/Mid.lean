import Bikaya.Kernel.Readings
import Bikaya.Refine.KillTree

/-!
# Inside a kernel entry

`Mid … s q out` : the kernel was entered with `e`, acts led from `s₀` to `s`, and the PCBs `out` are in no
list. `Exited` is what holds when a state is loaded. Here: how each act carries `Mid` on, and the runs of the
operations that acts are made of (`enqueue_run`, `aging_run`, `insertBlocked_run`, `killProcess_run`).
-/

namespace Bikaya.Kernel
open Bikaya.Lib Bikaya.Model Bikaya.Spec Bikaya.Refine Bikaya.Model.KM

variable {T : Target}

/-! ## Rules for `wp` -/

section Rules
variable {α β : Type} {s t : KState T} {Q : β → KState T → Prop} {E : CpuState T → KState T → Prop}
  {F : Fault → Prop}

theorem wp_bind_time {x : KM T α} {f : α → KM T β} (hx : TimeOnly x)
    (hf : ∀ a s', Timed s s' → Exec.wp (f a) Q E F s') : Exec.wp (x >>= f) Q E F s := by
  obtain ⟨a, s', h, ht⟩ := hx s
  exact wp_bind_ret h (hf a s' ht)

theorem wp_ldst {o : Obs T} {st : CpuState T} {Q : Unit → KState T → Prop} (h : E st (s.push o)) :
    Exec.wp (ldst o st) Q E F s := by
  unfold ldst
  exact wp_bind_ret (note_ret o s) ((Exec.wp_exit st).mpr h)

end Rules

/-! ## Operations -/

theorem setCurrent_ret (p : Option Pid) (s : KState T) : KM.setCurrent p s = .ret () (s.setCurrent p) := rfl

theorem machine_ret (s : KState T) : KM.machine s = .ret s.m s := rfl

theorem modifyPcb_ret (p : Pid) (f : Pcb T → Pcb T) (s : KState T) :
    KM.modifyPcb p f s = .ret () (s.setPcb p f) := rfl

theorem current_ret {s : KState T} {p : Pid} (h : s.m.currentProc = some p) : KM.current s = .ret p s := by
  unfold KM.current
  rw [bind_ret (machine_ret s), h]
  rfl

theorem current_fault {s : KState T} (h : s.m.currentProc = none) : KM.current s = .fault .nullDeref := by
  unfold KM.current
  rw [bind_ret (machine_ret s), h]
  rfl

theorem wp_bind_current {β : Type} {s : KState T} {f : Pid → KM T β} {Q : β → KState T → Prop}
    {E : CpuState T → KState T → Prop} {F : Fault → Prop} (hF : s.m.currentProc = none → F .nullDeref)
    (hf : ∀ p, s.m.currentProc = some p → Exec.wp (f p) Q E F s) : Exec.wp (KM.current >>= f) Q E F s := by
  cases hp : s.m.currentProc with
  | none =>
    rw [Exec.wp_bind]
    unfold Exec.wp
    rw [current_fault hp]
    exact hF hp
  | some p => exact wp_bind_ret (current_ret hp) (hf p hp)

theorem oldStateOf_ret (a : OldArea) (s : KState T) : oldStateOf (some a) s = .ret (s.m.oldAreas a) s := rfl

theorem rep_setPcb {s : KState T} {q : Queues} (h : Rep s.m.pool q) (p : Pid) {f : Pcb T → Pcb T}
    (hp : ∀ x, (f x).pParent = x.pParent) (hk : ∀ x, (f x).pSemkey = x.pSemkey) :
    Rep (s.setPcb p f).m.pool q := h.modifyPcb p hp hk

/-- `scheduler_enqueue_process` of a process that is in no list. -/
theorem enqueue_run {s : KState T} {q : Queues} {p : Pid} {out : List Pid} (h : Sound s.m.pool q (p :: out))
    (hp : p ∉ out) :
    ∃ l, schedulerEnqueueProcess (some p) s = .ret () (s.enqueued p l) ∧
      Sound (s.enqueued p l).m.pool (q.enqueue (s.resetPrio p).prio p) out := by
  have hq := h.placed.outside p List.mem_cons_self
  have hs := lt_trans (h.placed.outSmall p List.mem_cons_self) maxProc_lt
  have hrep : Rep (s.resetPrio p).m.pool q := rep_setPcb h.rep p (fun _ => rfl) (fun _ => rfl)
  obtain ⟨l, hl, hrep'⟩ := hrep.insertReady hq hs
  refine ⟨l, ?_, hrep', h.placed.drop hp rfl (queued_enqueue _), h.tree.congr rfl fun _ => Iff.rfl⟩
  unfold schedulerEnqueueProcess
  rw [bind_ret (orFault_ret p s), bind_ret (modifyPcb_ret p _ s)]
  exact (bind_ret (pool_ret (s := s.resetPrio p) hl)).trans rfl

/-- The loop of `aging`. -/
theorem agingFrom_seg (cfg : Cfg T) : ∀ {xs : List Pid} {a : Node} {fuel : Nat} {pool : Pool T},
    pool.links.Seg a (xs.map .pNext) .readyQueue → xs.Nodup → xs.length < fuel →
    agingFrom cfg fuel (pool.links.next a) pool =
      .ret () { pool with pcbs := agePcbs cfg.prio xs pool.pcbs } := by
  intro xs
  induction xs with
  | nil =>
    intro a fuel pool hs _ hf
    obtain ⟨n, rfl⟩ := Nat.exists_eq_add_one_of_ne_zero (Nat.ne_of_gt (Nat.lt_of_le_of_lt (Nat.zero_le _) hf))
    rw [hs.1]
    rfl
  | cons x xs ih =>
    intro a fuel pool hs hnd hf
    obtain ⟨n, rfl⟩ := Nat.exists_eq_add_one_of_ne_zero (Nat.ne_of_gt (Nat.lt_of_le_of_lt (Nat.zero_le _) hf))
    rw [List.nodup_cons] at hnd
    have hx : Node.pNext x ≠ .readyQueue := by simp
    rw [hs.1.1]
    unfold agingFrom
    rw [if_neg hx]
    let older : Pcb T := { pool.pcbs x with priority := cfg.prio.succ (pool.pcbs x).priority }
    have hage : agePcb cfg x pool = .ret () { pool with pcbs := Function.update pool.pcbs x older } := rfl
    have hrest := @ih (.pNext x) n { pool with pcbs := Function.update pool.pcbs x older }
      hs.2 hnd.2 (by simp only [List.length_cons] at hf; omega)
    have hpcbs : agePcbs cfg.prio xs (Function.update pool.pcbs x older) = agePcbs cfg.prio (x :: xs) pool.pcbs := by
      funext p
      by_cases hp : p = x
      · subst hp
        simp [agePcbs, hnd.1, older]
      · simp [agePcbs, hp]
    rw [hpcbs] at hrest
    change (Exec.orFault .wild (some x) >>= _) pool = _
    rw [bind_ret (orFault_ret x pool), bind_ret hage]
    exact hrest

theorem aging_run (cfg : Cfg T) {pool : Pool T} {q : Queues} (h : Rep pool q) :
    aging cfg pool = .ret () { pool with pcbs := agePcbs cfg.prio q.ready pool.pcbs } := by
  obtain ⟨asl, sf, h⟩ := h
  exact agingFrom_seg cfg (h.rings.seg (h := .readyQueue) rfl) h.ready_nodup h.ready_short

/-- A process that is in no list finds a descriptor: the active ones have waiters, different for each. -/
theorem insertBlocked_run {pool : Pool T} {q : Queues} {p : Pid} {out : List Pid}
    (h : Sound pool q (p :: out)) (hp : p ∉ out) (key : Key) :
    ∃ pool', aslInsertBlocked key p pool = .ret false pool' ∧
      pool'.pcbs = Function.update pool.pcbs p { pool.pcbs p with pSemkey := key } ∧
      Sound pool' (q.setWaiting key (insertPrio (fun x => (pool.pcbs x).priority) p (q.waiting key))) out := by
  have hq := h.placed.outside p List.mem_cons_self
  have hs := h.placed.outSmall p List.mem_cons_self
  have hplaced : Placed (q.setWaiting key (insertPrio (fun x => (pool.pcbs x).priority) p (q.waiting key))) out :=
    h.placed.drop hp rfl (queued_setWaiting_insert _ _)
  have htree : Tree (q.setWaiting key (insertPrio (fun x => (pool.pcbs x).priority) p (q.waiting key))) :=
    h.tree.congr rfl fun _ => Iff.rfl
  obtain ⟨asl, sf, hrep⟩ := h.rep
  by_cases hk : q.waiting key = []
  · cases hsf : sf with
    | cons d rest =>
      obtain ⟨pool', hrun, hpcbs, hrep'⟩ := hrep.aslInsertBlocked_new hsf hk hq (lt_trans hs maxProc_lt)
      refine ⟨pool', hrun, hpcbs, ⟨d :: asl, rest, ?_⟩, hplaced, htree⟩
      rw [hk]
      exact hrep'
    | nil =>
      -- `maxProc` waiters besides `p`
      exfalso
      have hhead : ∀ d ∈ asl, (q.waiting (pool.sKey d)).head?.getD 0 ∈ q.waiting (pool.sKey d) := by
        intro d hd
        have hne := (hrep.active (pool.sKey d)).mpr (List.mem_map_of_mem hd)
        cases hw : q.waiting (pool.sKey d) with
        | nil => exact absurd hw hne
        | cons x xs => exact List.mem_cons_self
      have hsemds := hrep.semds
      rw [hsf, List.append_nil] at hsemds
      have hnd : (asl.map fun d => (q.waiting (pool.sKey d)).head?.getD 0).Nodup := by
        refine List.Nodup.map_on (fun d hd d' hd' he => ?_) (hsemds.nodup_iff.mpr List.nodup_range)
        have hkey := hrep.waiting_unique (hhead d hd) (he ▸ hhead d' hd')
        exact List.inj_on_of_nodup_map hrep.keys hd hd' hkey
      have hmem : ∀ x ∈ asl.map fun d => (q.waiting (pool.sKey d)).head?.getD 0, q.Queued x := by
        intro x hx
        obtain ⟨d, hd, rfl⟩ := List.mem_map.mp hx
        exact Or.inr (Or.inr (Or.inl ⟨_, hhead d hd⟩))
      have hsmall : ∀ x ∈ p :: asl.map fun d => (q.waiting (pool.sKey d)).head?.getD 0, x < maxProc := by
        intro x hx
        rcases List.mem_cons.mp hx with rfl | hx
        · exact hs
        · exact h.placed.small x (hmem x hx)
      have hlen := length_le_of_nodup_lt (List.nodup_cons.mpr ⟨fun hm => hq (hmem p hm), hnd⟩) hsmall
      rw [List.length_cons, List.length_map, hsemds.length_eq, List.length_range] at hlen
      omega
  · obtain ⟨pool', hrun, hpcbs, hrep'⟩ := hrep.aslInsertBlocked_active hk hq (lt_trans hs maxProc_lt)
    exact ⟨pool', hrun, hpcbs, ⟨_, _, hrep'⟩, hplaced, htree⟩

/-- `asl_remove_blocked` on a key with waiters. -/
theorem removeBlocked_run {s : KState T} {q : Queues} {out : List Pid} (h : Sound s.m.pool q out) {key : Key}
    {p : Pid} {rest : List Pid} (hk : q.waiting key = p :: rest) :
    ∃ l, KM.pool (aslRemoveBlocked key) s = .ret (some p) (s.popped p l) ∧ p ∉ out ∧
      Sound (s.popped p l).m.pool (q.setWaiting key rest) (p :: out) := by
  obtain ⟨asl, sf, hrep⟩ := h.rep
  obtain ⟨l, asl', sf', hrun, hrep'⟩ := hrep.aslRemoveBlocked_cons hk
  have hp : q.Queued p := Or.inr (Or.inr (Or.inl ⟨key, hk ▸ List.mem_cons_self⟩))
  exact ⟨l, pool_ret hrun, fun hm => h.placed.outside p hm hp, ⟨asl', sf', hrep'⟩,
    h.placed.lift hp rfl (queued_pop_waiting h.rep.apart hk h.placed.heads), h.tree.congr rfl fun _ => Iff.rfl⟩

theorem removeBlocked_none {s : KState T} {q : Queues} (h : Rep s.m.pool q) {key : Key}
    (hk : q.waiting key = []) : KM.pool (aslRemoveBlocked key) s = .ret none s := by
  obtain ⟨asl, sf, hrep⟩ := h
  exact pool_ret (hrep.aslRemoveBlocked_nil hk)

/-! ## The state of an entry -/

section
variable (cfg : Cfg T) (s₀ : KState T) (q₀ : Queues)

/-- What holds when the kernel loads a state. -/
def Exited (_ : CpuState T) (s : KState T) : Prop :=
  ∃ q, Steps cfg s₀ q₀ s q ∧ Sound s.m.pool q s.m.currentProc.toList ∧ sliceOver s.hist = false

structure Mid (e : Entry T) (m₀ : Machine T) (s : KState T) (q : Queues) (out : List Pid) : Prop where
  steps : Steps cfg s₀ q₀ s q
  sound : Sound s.m.pool q out
  entry : lastEntry s.hist = some (e, m₀)
  slice : sliceOver s.hist = false

/-- `Mid` in a state from which the current process, if there still is one, can be resumed. -/
structure Returning (e : Entry T) (m₀ : Machine T) (s : KState T) (q : Queues) : Prop where
  mid : Mid cfg s₀ q₀ e m₀ s q s.m.currentProc.toList
  context : ∀ p, s.m.currentProc = some p → m₀.currentProc = some p ∧
    ∃ c, context p s.hist = some c ∧ (s.m.oldAreas e.area = c ∨ ∃ r, s.m.oldAreas e.area = c.setReturn r)

end

namespace Mid
variable {cfg : Cfg T} {s₀ s s' : KState T} {q₀ q q' : Queues} {e : Entry T} {m₀ : Machine T}
  {out out' : List Pid} (h : Mid cfg s₀ q₀ e m₀ s q out)
include h

theorem act (ha : Act cfg s q s' q') (hs : Sound s'.m.pool q' out') (he : lastEntry s'.hist = lastEntry s.hist)
    (hsl : sliceOver s'.hist = sliceOver s.hist) : Mid cfg s₀ q₀ e m₀ s' q' out' :=
  ⟨h.steps.act h.sound ha hs, hs, he.trans h.entry, hsl.trans h.slice⟩

theorem time (ht : Timed s s') : Mid cfg s₀ q₀ e m₀ s' q out :=
  h.act (.time ht) (ht.same.sound h.sound) ht.lastEntry_eq ht.sliceOver_eq

/-- The last observation before the state is loaded. -/
theorem exit {o : Obs T} (ha : Act cfg s q (s.push o) q) (hout : out = s.m.currentProc.toList)
    (hsl : sliceOver (s.push o).hist = sliceOver s.hist) (st : CpuState T) : Exited cfg s₀ q₀ st (s.push o) :=
  ⟨q, h.steps.act h.sound ha h.sound, hout ▸ h.sound, hsl.trans h.slice⟩

end Mid

namespace Returning
variable {cfg : Cfg T} {s₀ s s' : KState T} {q₀ q : Queues} {e : Entry T} {m₀ : Machine T}
  (h : Returning cfg s₀ q₀ e m₀ s q)
include h

theorem time (ht : Timed s s') : Returning cfg s₀ q₀ e m₀ s' q where
  mid := by
    rw [ht.same.currentProc]
    exact h.mid.time ht
  context p hp := by
    rw [ht.same.currentProc] at hp
    rw [ht.context_eq, ht.same.oldAreas]
    exact h.context p hp

end Returning

/-! ## Killing -/

namespace Steps
variable {cfg : Cfg T} {s₀ s s' : KState T} {q₀ q q' : Queues} {out ps : List Pid}

/-- Burying is made of acts, if the current process is not among the dead. -/
theorem buries (hb : Buries out s q ps s' q') : Steps cfg s₀ q₀ s q → Sound s.m.pool q out →
    (∀ p ∈ ps, KillCall cfg s.hist p ∧ s.m.currentProc ≠ some p) → Steps cfg s₀ q₀ s' q' := by
  induction hb with
  | nil => exact fun h _ _ => h
  | cons h1 h2 h3 _ ih =>
    intro h hs hps
    have hs' := hs.bury (hs.lt_maxProc h1) h3
    obtain ⟨hkill, hcur⟩ := hps _ List.mem_cons_self
    exact ih (h.act hs (.bury hkill h1 hcur h2.pcbs) hs') hs' fun p hp => hps p (List.mem_cons_of_mem _ hp)

end Steps

/-- What killing leaves alone. -/
structure KillFrame (s s' : KState T) : Prop where
  currentProc : s'.m.currentProc = s.m.currentProc
  oldAreas : s'.m.oldAreas = s.m.oldAreas
  lastEntry : lastEntry s'.hist = lastEntry s.hist
  sliceOver : sliceOver s'.hist = sliceOver s.hist
  context : ∀ p, context p s'.hist = context p s.hist

theorem KillFrame.of_buries {out ps : List Pid} {s s' : KState T} {q q' : Queues}
    (hb : Buries out s q ps s' q') : KillFrame s s' := by
  induction hb with
  | nil => exact ⟨rfl, rfl, rfl, rfl, fun _ => rfl⟩
  | cons _ _ _ _ ih => exact ⟨ih.currentProc, ih.oldAreas, ih.lastEntry, ih.sliceOver, ih.context⟩

section Kill
variable {cfg : Cfg T} {s₀ s : KState T} {q₀ q : Queues} {e : Entry T} {m₀ : Machine T}

/-- `scheduler_kill_process` of a live process that is current or no ancestor of the current one. -/
theorem killProcess_run (h : Mid cfg s₀ q₀ e m₀ s q s.m.currentProc.toList) {pid : Pid}
    (hpid : ∃ cs, q.kids pid = some cs) (hkill : ∀ p, Desc q.Child pid p → KillCall cfg s.hist p)
    (hcur : ∀ c, s.m.currentProc = some c → c = pid ∨ ¬ Desc q.Child pid c) :
    ∃ s' q', schedulerKillProcess pid s = .ret () s' ∧
      Mid cfg s₀ q₀ e m₀ s' q' s'.m.currentProc.toList ∧ s'.m.oldAreas = s.m.oldAreas ∧
      (∀ p, context p s'.hist = context p s.hist) ∧
      s'.m.currentProc = if s.m.currentProc = some pid then none else s.m.currentProc := by
  by_cases hc : s.m.currentProc = some pid
  · have hs := h.sound
    rw [hc] at hs
    obtain ⟨ps, s', q', hrun, hk⟩ := killTree_run (s := s.setCurrent none) hs hpid
    have hsteps : Steps cfg s₀ q₀ (s.setCurrent none) q := h.steps.act h.sound .quit hs
    have hf := KillFrame.of_buries hk.buries
    have hps : without (some pid : Option Pid).toList ps = [] := by
      simp [without, (hk.mem pid).mpr Relation.ReflTransGen.refl]
    have hs' := hk.buries.sound hs
    rw [hps] at hs'
    refine ⟨s', q', ?_,
      ⟨hsteps.buries hk.buries hs fun p hp => ⟨hkill p ((hk.mem p).mp hp), by simp [KState.setCurrent]⟩, ?_,
      hf.lastEntry.trans h.entry, hf.sliceOver.trans h.slice⟩, hf.oldAreas, hf.context, ?_⟩
    · unfold schedulerKillProcess
      rw [bind_ret (machine_ret s)]
      simp only [hc, decide_true, Exec.guarded, if_true]
      rw [bind_ret (setCurrent_ret none s)]
      exact hrun
    · rw [hf.currentProc]
      exact hs'
    · rw [hf.currentProc, if_pos hc]
      rfl
  · obtain ⟨ps, s', q', hrun, hk⟩ := killTree_run h.sound hpid
    have hf := KillFrame.of_buries hk.buries
    have hnot : ∀ p ∈ ps, s.m.currentProc ≠ some p := by
      intro p hp he
      rcases hcur p he with rfl | hd
      · exact hc he
      · exact hd ((hk.mem p).mp hp)
    have hps : without s.m.currentProc.toList ps = s.m.currentProc.toList := by
      refine List.filter_eq_self.mpr fun p hp => decide_eq_true fun hm => ?_
      exact hnot p hm (Option.mem_toList.mp hp)
    have hs' := hk.buries.sound h.sound
    rw [hps] at hs'
    refine ⟨s', q', ?_,
      ⟨h.steps.buries hk.buries h.sound fun p hp => ⟨hkill p ((hk.mem p).mp hp), hnot p hp⟩, ?_, hf.lastEntry.trans h.entry,
      hf.sliceOver.trans h.slice⟩, hf.oldAreas, hf.context, ?_⟩
    · unfold schedulerKillProcess
      rw [bind_ret (machine_ret s)]
      simp only [hc, decide_false, Exec.guarded]
      exact hrun
    · rw [hf.currentProc]
      exact hs'
    · rw [hf.currentProc, if_neg hc]

end Kill
end Bikaya.Kernel
