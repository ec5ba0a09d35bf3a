import Bikaya.Kernel.Replay

/-!
# Every PCB is in one place

`Partition m` : the free list, the ready queue, the queues of the active semaphores and the current process
share out the PCBs of the table, and the tree links of the PCBs in use are a forest. It holds at every exit of
the kernel in the lawful runs (`partition`). A process that terminates its own parent is freed while it is current
(`orphaned`).
-/

namespace Bikaya.Results
open Bikaya.Lib Bikaya.Model Bikaya.Spec Bikaya.Refine Bikaya.Kernel

variable {T : Target} {cfg : Cfg T}

/-- The lists are circular, together they hold every PCB once, and the tree is one. -/
structure Partition (m : Machine T) : Prop where
  free : members m.pool.links .pcbFree = some ((freeList m).map .pNext)
  ready : members m.pool.links .readyQueue = some ((readyList m).map .pNext)
  active : members m.pool.links .asl = some ((activeSemds m).map .sNext)
  waiting : ∀ d ∈ activeSemds m, members m.pool.links (.sProcQ d) = some ((pcbsIn m (.sProcQ d)).map .pNext)
  places : (freeList m ++ readyList m ++ (activeSemds m).flatMap (fun d => pcbsIn m (.sProcQ d)) ++
    m.currentProc.toList).Perm (List.range maxProc)
  children : ∀ p, Alive m p → members m.pool.links (.pChild p) = some ((childList m p).map .pSib) ∧
    (childList m p).Nodup ∧ ∀ c, c ∈ childList m p ↔ ParentOf m p c
  forest : IsForest (ParentOf m)
  alive : ∀ p c, ParentOf m p c → Alive m p ∧ Alive m c

section
variable {m : Machine T} {q : Queues} {asl sf : List Nat}

/-- All the lists behind one another, the current process at the end. -/
def shareOut (q : Queues) (asl : List Nat) (key : Nat → Key) (out : List Pid) : List Pid :=
  q.free ++ q.ready ++ asl.flatMap (fun d => q.waiting (key d)) ++ out

theorem mem_shareOut (h : RepAt m.pool q asl sf) {out : List Pid} (hp : Placed q out) (p : Pid) :
    p ∈ shareOut q asl m.pool.sKey out ↔ q.Queued p ∨ p ∈ out := by
  have hw : (∃ d ∈ asl, p ∈ q.waiting (m.pool.sKey d)) ↔ ∃ k, p ∈ q.waiting k := by
    constructor
    · rintro ⟨d, -, hd⟩
      exact ⟨_, hd⟩
    · rintro ⟨k, hk⟩
      obtain ⟨d, hd, rfl⟩ := h.exists_semd (List.ne_nil_of_mem hk)
      exact ⟨d, hd, hk⟩
  unfold shareOut
  rw [hp.queued_iff, ← hw]
  simp only [List.mem_append, List.mem_flatMap, or_assoc]

theorem nodup_shareOut (h : RepAt m.pool q asl sf) {out : List Pid} (hp : Placed q out) (hout : out.Nodup) :
    (shareOut q asl m.pool.sKey out).Nodup := by
  have hwait : (asl.flatMap fun d => q.waiting (m.pool.sKey d)).Nodup := by
    refine List.nodup_flatMap.mpr ⟨fun d _ => h.waiting_nodup _, ?_⟩
    refine (List.pairwise_map.mp h.keys).imp fun hne p hp hp' => ?_
    exact hne (h.waiting_unique hp hp')
  have hmem : ∀ {p}, p ∈ asl.flatMap (fun d => q.waiting (m.pool.sKey d)) → ∃ k, p ∈ q.waiting k := by
    intro p hm
    obtain ⟨d, -, hd⟩ := List.mem_flatMap.mp hm
    exact ⟨_, hd⟩
  unfold shareOut
  refine List.Nodup.append (List.Nodup.append (List.Nodup.append h.free_nodup h.ready_nodup ?_) hwait ?_) hout ?_
  · exact fun p hf hr => h.ready_not_free hr hf
  · intro p hm hw
    obtain ⟨k, hk⟩ := hmem hw
    rcases List.mem_append.mp hm with hf | hr
    · exact h.waiting_not_free hk hf
    · exact h.waiting_not_ready hk hr
  · intro p hm ho
    refine hp.outside p ho ((hp.queued_iff p).mpr ?_)
    rcases List.mem_append.mp hm with hm | hw
    · exact (List.mem_append.mp hm).imp_right Or.inl
    · exact Or.inr (Or.inr (hmem hw))

/-- A sound pool is a partition, with the current process for the PCB in no list. -/
theorem sound_partition (h : Sound m.pool q m.currentProc.toList) : Partition m := by
  obtain ⟨asl, sf, hrep⟩ := h.rep
  have hasl : activeSemds m = asl := by
    unfold activeSemds
    rw [hrep.members_asl]
    exact filterMap_semd asl
  have hprocQ : ∀ d ∈ asl, pcbsIn m (.sProcQ d) = q.waiting (m.pool.sKey d) := by
    intro d hd
    unfold pcbsIn
    rw [hrep.members_procQ hd]
    exact filterMap_pcb _
  have halive : ∀ p, Alive m p ↔ ∃ cs, q.kids p = some cs := by
    intro p
    unfold Alive
    rw [h.rep.freeList_eq]
    exact (h.tree.alive p).symm
  have hout : m.currentProc.toList.Nodup := by
    cases m.currentProc <;> simp
  refine
    { free := by rw [h.rep.freeList_eq]; exact hrep.members_free
      ready := by rw [h.rep.readyList_eq]; exact hrep.members_ready
      active := by rw [hasl]; exact hrep.members_asl
      waiting := fun d hd => ?_
      places := ?_
      children := fun p hp => ?_
      forest := h.rep.child_eq ▸ h.tree.forest
      alive := fun p c hc => ?_ }
  · rw [hasl] at hd
    rw [hprocQ d hd]
    exact hrep.members_procQ hd
  · rw [h.rep.freeList_eq, h.rep.readyList_eq, hasl, List.flatMap_congr hprocQ]
    refine (List.perm_ext_iff_of_nodup (nodup_shareOut hrep h.placed hout) List.nodup_range).mpr fun p => ?_
    rw [mem_shareOut hrep h.placed, List.mem_range]
    exact ⟨fun hp => hp.elim (h.placed.small p) (h.placed.outSmall p), h.placed.covered p⟩
  · obtain ⟨cs, hk⟩ := (halive p).mp hp
    rw [h.rep.childList_eq hk]
    refine ⟨hrep.members_kids hk, hrep.kids_nodup hk, fun c => ?_⟩
    rw [← h.rep.child_iff]
    refine ⟨fun hc => ⟨cs, hk, hc⟩, fun hc => ?_⟩
    obtain ⟨cs', hk', hc⟩ := hc
    rw [hk] at hk'
    cases hk'
    exact hc
  · rw [← h.rep.child_iff] at hc
    obtain ⟨cs, hk, -⟩ := id hc
    exact ⟨(halive p).mpr ⟨cs, hk⟩, (halive c).mpr ((h.tree.alive c).mpr (h.tree.child_alive p c hc))⟩

end

/-- At every exit of the kernel, in the lawful runs. -/
theorem partition {s : KState T} (h : Run cfg (Lawful cfg) s) : Partition s.m := by
  obtain ⟨q, hb⟩ := run_between id h
  exact sound_partition hb.sound

/-! ## Killing one's parent -/

/-- The child has asked GETPID for the pid of its parent. -/
def parentKnown : KState .umps := after demo childRuns (syscall childRuns 8 0x100 0x104 0)

/-- The child has terminated the parent. -/
def orphaned : KState .umps := after demo parentKnown (syscall parentKnown 3 (parentKnown.m.mem 0x104) 0 0)

/-- A valid run after which the current process is free. -/
theorem partition_fails : ¬ ∀ s : KState .umps, Run demo (ValidEntry demo) s → Partition s.m := by
  intro h
  have hknown : Run demo (ValidEntry demo) parentKnown :=
    run_after (run_mono And.left run_childRuns) (by decide +kernel) (by decide +kernel)
  have hrun : Run demo (ValidEntry demo) orphaned := run_after hknown (by decide +kernel) (by decide +kernel)
  have hnd := (h orphaned hrun).places.nodup_iff.mpr List.nodup_range
  have hcur : orphaned.m.currentProc = some 18 := by decide +kernel
  have hfree : 18 ∈ freeList orphaned.m := by decide +kernel
  rw [hcur] at hnd
  refine (List.nodup_append.mp hnd).2.2 18 ?_ 18 List.mem_cons_self rfl
  exact List.mem_append_left _ (List.mem_append_left _ hfree)

/-- In `childRuns` nobody has terminated an ancestor. -/
theorem partition_childRuns : Run demo (Lawful demo) childRuns ∧ Partition childRuns.m := by
  have h : Run demo (Lawful demo) childRuns := run_mono And.right run_childRuns
  exact ⟨h, partition h⟩

end Bikaya.Results
