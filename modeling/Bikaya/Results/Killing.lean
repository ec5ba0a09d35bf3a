import Bikaya.Kernel.Replay

/-!
# `kill_tree` removes one subtree

From every well-formed state `kill_tree` returns, and it has freed the descendants of its argument, each once, and
taken them from all the lists, which otherwise are as they were (`SubtreeRemoved`, `killTree_removes`).
-/

namespace Bikaya.Results
open Bikaya.Lib Bikaya.Model Bikaya.Spec Bikaya.Refine Bikaya.Kernel

variable {T : Target}

/-- The live PCBs form a forest, and no PCB is in two lists. -/
def WellFormed (m : Machine T) : Prop := ∃ q out, Sound m.pool q out

/-- The processes `ps`, which are the descendants of `pid`, are gone. -/
structure SubtreeRemoved (m m' : Machine T) (pid : Pid) (ps : List Pid) : Prop where
  subtree : ∀ p, p ∈ ps ↔ Desc (ParentOf m) pid p
  once : ps.Nodup
  free : freeList m' = ps.reverse ++ freeList m
  ready : readyList m' = (readyList m).filter fun r => decide (r ∉ ps)
  waiting : ∀ key, waitingList m' key = (waitingList m key).filter fun r => decide (r ∉ ps)
  children : ∀ r, Alive m r → r ∉ ps → childList m' r = (childList m r).filter fun c => decide (c ∉ ps)
  parents : ∀ r, ParentOf m' r = fun c => ParentOf m r c ∧ c ∉ ps
  /-- The descriptors that have waiters stay where they are. -/
  active : activeSemds m' = (activeSemds m).filter fun d => decide (waitingList m' (m.pool.sKey d) ≠ [])
  /-- The others go to the free list. -/
  recycled : ∃ ds, freeSemds m' = ds ++ freeSemds m ∧
    ∀ d, d ∈ ds ↔ d ∈ activeSemds m ∧ waitingList m' (m.pool.sKey d) = []
  sKey : m'.pool.sKey = m.pool.sKey
  pcbs : ∀ r, m'.pool.pcbs r = if r ∈ ps then { m.pool.pcbs r with pParent := none } else m.pool.pcbs r
  machine : m' = { m with pool := m'.pool }

/-! ## Many burials -/

section
variable {out ps : List Pid} {s s' : KState T} {q q' : Queues}

/-- The dead were alive, and each dies once. -/
theorem buries_nodup (h : Buries out s q ps s' q') : Sound s.m.pool q out → ps.Nodup ∧ ∀ p ∈ ps, p ∉ q.free := by
  induction h with
  | nil => exact fun _ => ⟨List.nodup_nil, fun _ hm => by cases hm⟩
  | @cons out s s' q q' p ps pool' hk _ hrep _ ih =>
    intro hs
    obtain ⟨hnd, hfree⟩ := ih (hs.bury (hs.lt_maxProc hk) hrep)
    refine ⟨List.nodup_cons.mpr ⟨fun hm => hfree p hm List.mem_cons_self, hnd⟩, fun r hr => ?_⟩
    rcases List.mem_cons.mp hr with rfl | hr
    · exact hs.not_free hk
    · exact fun hm => hfree r hr (List.mem_cons_of_mem _ hm)

/-- The lists without the dead. -/
theorem buries_lists (h : Buries out s q ps s' q') : Sound s.m.pool q out →
    q'.free = ps.reverse ++ q.free ∧ q'.ready = q.ready.filter (fun r => decide (r ∉ ps)) ∧
    ∀ key, q'.waiting key = (q.waiting key).filter fun r => decide (r ∉ ps) := by
  induction h with
  | nil => simp
  | @cons out s s' q q' p ps pool' hk _ hrep _ ih =>
    intro hs
    obtain ⟨hfree, hready, hwait⟩ := ih (hs.bury (hs.lt_maxProc hk) hrep)
    have hfilter : ∀ xs : List Pid, xs.Nodup →
        (xs.erase p).filter (fun r => decide (r ∉ ps)) = xs.filter fun r => decide (r ∉ p :: ps) := by
      intro xs hnd
      rw [hnd.erase_eq_filter, List.filter_filter]
      refine List.filter_congr fun r _ => ?_
      by_cases hr : r = p <;> simp [hr]
    have ha := hs.rep.apart
    refine ⟨?_, ?_, fun key => ?_⟩
    · rw [hfree, List.reverse_cons, List.append_assoc]
      rfl
    · rw [hready]
      exact hfilter q.ready ha.ready_nodup
    · rw [hwait]
      exact hfilter (q.waiting key) (ha.waiting_nodup key)

/-- Besides the links only the parents of the dead change. -/
theorem buries_pcbs (h : Buries out s q ps s' q') :
    (∀ r, s'.m.pool.pcbs r = if r ∈ ps then { s.m.pool.pcbs r with pParent := none } else s.m.pool.pcbs r) ∧
    s'.m.pool.sKey = s.m.pool.sKey ∧ s'.m = { s.m with pool := s'.m.pool } := by
  induction h with
  | nil => simp
  | @cons out s s' q q' p ps pool' _ hb _ _ ih =>
    obtain ⟨hpcbs, hkey, hm⟩ := ih
    refine ⟨fun r => ?_, hkey.trans hb.sKey, hm.trans rfl⟩
    rw [hpcbs r]
    show (if r ∈ ps then { pool'.pcbs r with pParent := none } else pool'.pcbs r) = _
    rw [hb.pcbs]
    by_cases hr : r = p
    · subst hr
      simp
    · simp [hr]

/-- Descriptors only move from the ASL to the free list. -/
theorem buries_semds (h : Buries out s q ps s' q') :
    (activeSemds s'.m).Sublist (activeSemds s.m) ∧ freeSemds s.m <:+ freeSemds s'.m := by
  induction h with
  | nil => exact ⟨List.Sublist.refl _, List.suffix_refl _⟩
  | @cons out s s' q q' p ps pool' _ hb _ _ ih =>
    obtain ⟨asl, sf, asl', sf', hrep, hrep', hrec⟩ := hb.semds
    have hmid : RepAt ((s.setPool pool').push (.bury p)).m.pool (q.bury p) asl' sf' := hrep'
    rw [hmid.activeSemds_eq, hmid.freeSemds_eq] at ih
    rw [hrep.activeSemds_eq, hrep.freeSemds_eq]
    exact ⟨ih.1.trans hrec.1, hrec.2.trans ih.2⟩

end

/-! ## `kill_tree` -/

/-- What the burials of the descendants of `pid` leave. -/
theorem Killed.removed {out ps : List Pid} {s s' : KState T} {q q' : Queues} {pid : Pid} (hs : Sound s.m.pool q out)
    (hk : Killed out s q pid ps s' q') : SubtreeRemoved s.m s'.m pid ps := by
  have hfree := hs.rep.freeList_eq
  have hs' := hk.buries.sound hs
  obtain ⟨hfree', hready', hwait'⟩ := buries_lists hk.buries hs
  obtain ⟨hpcbs, hkey, hmachine⟩ := buries_pcbs hk.buries
  obtain ⟨hactive, hfreed⟩ := buries_semds hk.buries
  have hfilter := active_filter hs.rep hs'.rep hkey hactive
  refine
    { subtree := ?_
      once := (buries_nodup hk.buries hs).1
      free := by rw [hs'.rep.freeList_eq, hs.rep.freeList_eq, hfree']
      ready := by rw [hs'.rep.readyList_eq, hs.rep.readyList_eq, hready']
      waiting := fun key => by rw [hs'.rep.waitingList_eq, hs.rep.waitingList_eq, hwait']
      children := fun r hr hps => ?_
      parents := fun r => funext fun c => propext ?_
      active := hfilter
      recycled := recycled_iff hs.rep hs'.rep hfilter hfreed
      sKey := hkey
      pcbs := hpcbs
      machine := hmachine }
  · intro p
    rw [hk.mem, hs.rep.child_eq]
  · obtain ⟨hrs, hrf⟩ := hr
    rw [hfree] at hrf
    obtain ⟨cs, hcs⟩ := (hs.tree.alive r).mpr ⟨hrs, hrf⟩
    rw [hs'.rep.childList_eq (hk.buries.kids hs hcs hps), hs.rep.childList_eq hcs]
  · unfold ParentOf
    rw [hpcbs]
    by_cases hc : c ∈ ps <;> simp [hc]

/-- `kill_tree` on a live process of a well-formed state. -/
theorem killTree_removes {s : KState T} {pid : Pid} (hm : WellFormed s.m) (hpid : Alive s.m pid) :
    ∃ s' ps, killTree walkFuel pid s = .ret () s' ∧ WellFormed s'.m ∧ SubtreeRemoved s.m s'.m pid ps := by
  obtain ⟨q, out, hs⟩ := hm
  obtain ⟨hlt, hnot⟩ := hpid
  rw [hs.rep.freeList_eq] at hnot
  obtain ⟨ps, s', q', hrun, hk⟩ := killTree_run hs ((hs.tree.alive pid).mpr ⟨hlt, hnot⟩)
  exact ⟨s', ps, hrun, ⟨q', _, hk.buries.sound hs⟩, Killed.removed hs hk⟩

/-- The states of runs are well formed. -/
theorem run_wellFormed {cfg : Cfg T} {s : KState T} (h : Run cfg (Lawful cfg) s) : WellFormed s.m := by
  obtain ⟨q, hb⟩ := run_between id h
  exact ⟨q, _, hb.sound⟩

/-- The first process and its child are killed. -/
theorem killTree_removes_forked : ∃ s' ps, killTree walkFuel 19 forked = .ret () s' ∧ WellFormed s'.m ∧
    SubtreeRemoved forked.m s'.m 19 ps := by
  have h : Run demo (Lawful demo) forked := run_mono And.right run_forked
  exact killTree_removes (run_wellFormed h) (by decide +kernel)

end Bikaya.Results
