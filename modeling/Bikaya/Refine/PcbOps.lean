import Bikaya.Refine.Rep

/-!
# `pcb.c` on represented pools

One lemma for each function: from a pool that represents `q` it returns, and the new pool represents the
`Queues` that the function is for. The pool is otherwise unchanged (its `pcbs` are given exactly).
-/

namespace Bikaya.Refine
open Bikaya.Lib Bikaya.Model Bikaya.Spec

variable {T : Target}

/-- The `p_sib.next` fields are the same: the loop of `kill_tree` reads one after its PCB was freed. -/
def SibFrame (l l' : Links Node) : Prop := ∀ c, l'.next (.pSib c) = l.next (.pSib c)

theorem SibFrame.trans {l₁ l₂ l₃ : Links Node} (h : SibFrame l₁ l₂) (h' : SibFrame l₂ l₃) : SibFrame l₁ l₃ :=
  fun c => (h' c).trans (h c)

/-- The node belongs to the process tree. -/
def OfTree (n : Node) : Prop := ∃ p, n = .pChild p ∨ n = .pSib p

/-- Only links of the process tree differ. -/
def TreeOnly (l l' : Links Node) : Prop := ∀ n, ¬ OfTree n → l'.next n = l.next n ∧ l'.prev n = l.prev n

theorem OfTree.of_mem {p : Pid} {cs : List Pid} {n : Node} (hn : n ∈ Node.pChild p :: cs.map .pSib) : OfTree n := by
  rcases List.mem_cons.mp hn with rfl | hn
  · exact ⟨p, Or.inl rfl⟩
  · obtain ⟨c, -, rfl⟩ := List.mem_map.mp hn
    exact ⟨c, Or.inr rfl⟩

theorem TreeOnly.splice (l : Links Node) {x p n : Node} (hx : OfTree x) (hp : OfTree p) (hn : OfTree n) :
    TreeOnly l (l.splice x p n) := by
  intro y hy
  have hyx : y ≠ x := fun e => hy (e ▸ hx)
  have hyp : y ≠ p := fun e => hy (e ▸ hp)
  have hyn : y ≠ n := fun e => hy (e ▸ hn)
  rw [Links.next_splice, Links.prev_splice, if_neg hyp, if_neg hyx, if_neg hyx, if_neg hyn]
  exact ⟨rfl, rfl⟩

theorem TreeOnly.cut (l : Links Node) {p n : Node} (hp : OfTree p) (hn : OfTree n) : TreeOnly l (l.cut p n) := by
  intro y hy
  have hyp : y ≠ p := fun e => hy (e ▸ hp)
  have hyn : y ≠ n := fun e => hy (e ▸ hn)
  rw [Links.next_cut, Links.prev_cut, if_neg hyp, if_neg hyn]
  exact ⟨rfl, rfl⟩

namespace RepAt
variable {pool : Pool T} {q : Queues} {asl sf : List Nat} (h : RepAt pool q asl sf)
include h

/-- Changes of the fields that are not redundant with a list. -/
theorem setPcbs {pcbs : Pid → Pcb T} (hp : ∀ p, (pcbs p).pParent = (pool.pcbs p).pParent)
    (hk : ∀ p, (pcbs p).pSemkey = (pool.pcbs p).pSemkey) : RepAt { pool with pcbs := pcbs } q asl sf :=
  { h with
    semkey := fun k p hm => (hk p).trans (h.semkey k p hm)
    parent := fun p c => by rw [hp c]; exact h.parent p c
    freeParent := fun p hm => (hp p).trans (h.freeParent p hm) }

/-- Another content of a queue. -/
theorem setQueue {l : Links Node} {hd : QHead} {xs : List Pid}
    (R : Rings l (Function.update (q.rings asl sf pool.sKey) hd.node (some (xs.map .pNext))))
    (hs : ∀ p ∈ xs, p < pcbObjects) : RepAt { pool with links := l } (q.setQueue hd xs) asl sf :=
  { semkey := fun k p hp => h.semkey k p (by rwa [Queues.setQueue_waiting] at hp)
    parent := fun p c => by rw [← h.parent p c, Queues.Child, Queues.setQueue_kids]; rfl
    freeKids := fun p hp => by
      rw [Queues.setQueue_kids]
      exact h.freeKids p (by rwa [Queues.setQueue_free] at hp)
    freeParent := fun p hp => h.freeParent p (by rwa [Queues.setQueue_free] at hp)
    small := fun p hp => by
      rcases Queues.queued_setQueue q hd xs p hp with hp | hp
      · exact hs p hp
      · exact h.small p hp
    smallKids := fun p c hc => h.smallKids p c (by rwa [Queues.Child, Queues.setQueue_kids] at hc)
    rings := by rw [rings_queue] at R; exact R
    semds := h.semds
    keys := h.keys
    active := fun k => by rw [Queues.setQueue_waiting]; exact h.active k }

/-- Another ready queue. -/
theorem setReady {l : Links Node} {xs : List Pid}
    (R : Rings l (Function.update (q.rings asl sf pool.sKey) .readyQueue (some (xs.map .pNext))))
    (hs : ∀ p ∈ xs, p < pcbObjects) : RepAt { pool with links := l } { q with ready := xs } asl sf :=
  h.setQueue (show Rings l (Function.update (q.rings asl sf pool.sKey) QHead.ready.node (some (xs.map .pNext))) from R) hs

theorem ready_small {p : Pid} (hp : p ∈ q.ready) : p < pcbObjects := h.small p (Or.inr (Or.inl hp))

end RepAt

namespace Rep
variable {pool : Pool T} {q : Queues}

theorem setPcbs (h : Rep pool q) {pcbs : Pid → Pcb T} (hp : ∀ p, (pcbs p).pParent = (pool.pcbs p).pParent)
    (hk : ∀ p, (pcbs p).pSemkey = (pool.pcbs p).pSemkey) : Rep { pool with pcbs := pcbs } q := by
  obtain ⟨asl, sf, h⟩ := h
  exact ⟨asl, sf, h.setPcbs hp hk⟩

/-- Changes of one PCB that keep `p_parent` and `p_semkey`. -/
theorem modifyPcb (h : Rep pool q) (p : Pid) {f : Pcb T → Pcb T} (hp : ∀ x, (f x).pParent = x.pParent)
    (hk : ∀ x, (f x).pSemkey = x.pSemkey) :
    Rep { pool with pcbs := Function.update pool.pcbs p (f (pool.pcbs p)) } q := by
  refine h.setPcbs (fun r => ?_) (fun r => ?_)
  · by_cases hr : r = p
    · subst hr; rw [Function.update_self, hp]
    · rw [Function.update_of_ne hr]
  · by_cases hr : r = p
    · subst hr; rw [Function.update_self, hk]
    · rw [Function.update_of_ne hr]

/-! ## The ready queue -/

theorem listEmpty_ready (h : Rep pool q) : listEmpty pool.links .readyQueue = q.ready.isEmpty := by
  obtain ⟨asl, sf, h⟩ := h
  rw [listEmpty_eq h.rings (h := .readyQueue) rfl]
  cases q.ready <;> rfl

theorem insertReady (h : Rep pool q) {p : Pid} (hp : ¬ q.Queued p) (hs : p < pcbObjects) :
    ∃ l, pcbInsertInQueue .readyQueue p pool = .ret () { pool with links := l } ∧
      Rep { pool with links := l }
        { q with ready := insertPrio (fun x => (pool.pcbs x).priority) p q.ready } := by
  obtain ⟨asl, sf, h⟩ := h
  obtain ⟨l, hl, R⟩ := pcbInsertInQueue_ring h.rings (h := .readyQueue) rfl (RepAt.fresh_pNext hp) h.ready_short
  refine ⟨l, hl, asl, sf, h.setReady R fun r hr => ?_⟩
  rcases (mem_insertPrio _ p).mp hr with rfl | hr
  · exact hs
  · exact h.ready_small hr

theorem removeReady_cons (h : Rep pool q) {p : Pid} {xs : List Pid} (he : q.ready = p :: xs) :
    ∃ l, pcbRemoveFromQueue .readyQueue pool = .ret (some p) { pool with links := l } ∧
      Rep { pool with links := l } { q with ready := xs } := by
  obtain ⟨asl, sf, h⟩ := h
  have hring : q.rings asl sf pool.sKey .readyQueue = some ((p :: xs).map .pNext) := by simp only [Queues.rings, he]
  obtain ⟨l, hl, R⟩ := pcbRemoveFromQueue_cons h.rings hring
  refine ⟨l, hl, asl, sf, h.setReady R fun r hr => h.ready_small ?_⟩
  rw [he]
  exact List.mem_cons_of_mem _ hr

/-! ## The free list -/

theorem isFree (h : Rep pool q) (p : Pid) : pcbIsFree p pool = .ret (decide (p ∈ q.free)) pool := by
  obtain ⟨asl, sf, h⟩ := h
  exact pcbIsFree_ring h.rings rfl h.free_short

theorem alloc_nil (h : Rep pool q) (he : q.free = []) : pcbAlloc pool = .ret none pool := by
  obtain ⟨asl, sf, h⟩ := h
  exact pcbAlloc_nil h.rings (by simp [Queues.rings, he])

/-- `pcb_alloc` takes the first free PCB and clears it. -/
theorem alloc_cons (h : Rep pool q) {p : Pid} {xs : List Pid} (he : q.free = p :: xs) :
    ∃ l, pcbAlloc pool = .ret (some p)
        { pool with links := l, pcbs := Function.update pool.pcbs p Pcb.zero } ∧
      Rep { pool with links := l, pcbs := Function.update pool.pcbs p Pcb.zero } (q.alloc p) := by
  obtain ⟨asl, sf, h⟩ := h
  have hfree : p ∈ q.free := by rw [he]; exact List.mem_cons_self
  have hring : q.rings asl sf pool.sKey .pcbFree = some ((p :: xs).map .pNext) := by simp [Queues.rings, he]
  obtain ⟨l, hl, R⟩ := pcbAlloc_cons h.rings hring rfl (RepAt.fresh_pChild (h.freeKids p hfree))
    (h.fresh_pSib (h.freeParent p hfree))
  rw [rings_free] at R
  refine ⟨l, hl, asl, sf, ?_⟩
  have hq : q.alloc p = ({ q with free := xs } : Queues).setKids p (some []) := by
    simp [Queues.alloc, he]
  have hnc : ∀ r, ¬ q.Child r p := by
    intro r hr
    have := (h.parent r p).mp hr
    rw [h.freeParent p hfree] at this
    cases this
  have hchild : ∀ r c, (q.alloc p).Child r c ↔ q.Child r c := by
    intro r c
    by_cases hr : r = p
    · subst hr
      simp [Queues.Child, Queues.alloc, Queues.setKids, h.freeKids r hfree]
    · simp [Queues.Child, Queues.alloc, Queues.setKids, hr]
  have hnd := h.free_nodup
  rw [he] at hnd
  have hmem : ∀ r ∈ xs, r ∈ q.free ∧ r ≠ p := by
    intro r hr
    refine ⟨by rw [he]; exact List.mem_cons_of_mem _ hr, fun e => ?_⟩
    subst e
    exact (List.nodup_cons.mp hnd).1 hr
  refine { h with
    rings := by
      rw [hq, ← rings_kids]
      exact R
    semkey := fun k r hr => ?_
    parent := fun r c => ?_
    freeKids := fun r hr => ?_
    freeParent := fun r hr => ?_
    small := ?_
    smallKids := fun r c hc => h.smallKids r c ((hchild r c).mp hc) }
  · have hne : r ≠ p := fun e => h.waiting_not_free (e ▸ hr : p ∈ q.waiting k) hfree
    simp only [Function.update_of_ne hne]
    exact h.semkey k r hr
  · rw [hchild]
    by_cases hc : c = p
    · subst hc
      simp only [Function.update_self, Pcb.zero]
      exact ⟨fun hh => absurd hh (hnc r), fun hh => by cases hh⟩
    · simp only [Function.update_of_ne hc]
      exact h.parent r c
  · rw [hq] at hr ⊢
    simp only [Queues.setKids, Function.update_of_ne (hmem r hr).2]
    exact h.freeKids r (hmem r hr).1
  · rw [hq] at hr
    simp only [Function.update_of_ne (hmem r hr).2]
    exact h.freeParent r (hmem r hr).1
  · rw [hq]
    rintro r (hr | hr | hr | hr)
    · exact h.small r (Or.inl (hmem r hr).1)
    · exact h.small r (Or.inr (Or.inl hr))
    · exact h.small r (Or.inr (Or.inr (Or.inl hr)))
    · exact h.small r (Or.inr (Or.inr (Or.inr hr)))

/-! ## The process tree -/

/-- `pcb_insert_child` of a PCB without a parent. -/
theorem insertChild (h : Rep pool q) {parent p : Pid} {cs : List Pid} (hk : q.kids parent = some cs)
    (hpar : (pool.pcbs p).pParent = none) (hs : p < pcbObjects) (hf : p ∉ q.free) :
    ∃ l, pcbInsertChild parent p pool = .ret () { pool with
        links := l, pcbs := Function.update pool.pcbs p { pool.pcbs p with pParent := some parent } } ∧
      Rep { pool with
        links := l, pcbs := Function.update pool.pcbs p { pool.pcbs p with pParent := some parent } }
        (q.adopt parent p) ∧ TreeOnly pool.links l := by
  obtain ⟨asl, sf, h⟩ := h
  have hring : q.rings asl sf pool.sKey (.pChild parent) = some (cs.map .pSib) := by
    simp [Queues.rings, hk]
  obtain ⟨l, hl, hsp, R⟩ := listAddTail_ring_head h.rings hring (h.fresh_pSib hpar)
  have hnc : ∀ r, ¬ q.Child r p := fun r hr => by
    have := (h.parent r p).mp hr
    rw [hpar] at this
    cases this
  have hchild : ∀ r c, (q.adopt parent p).Child r c ↔ q.Child r c ∨ (r = parent ∧ c = p) := by
    intro r c
    by_cases hr : r = parent
    · subst hr
      simp [Queues.Child, Queues.adopt, Queues.setKids, hk]
    · simp [Queues.Child, Queues.adopt, Queues.setKids, hr]
  have hq : q.adopt parent p = q.setKids parent (some (cs ++ [p])) := by simp [Queues.adopt, hk]
  refine ⟨l, ?_, ⟨asl, sf, { h with
    rings := by
      rw [hq, ← rings_kids]
      simpa using R
    semkey := fun k r hr => ?_
    parent := fun r c => ?_
    freeKids := fun r hr => ?_
    freeParent := fun r hr => ?_
    smallKids := fun r c hc => ?_ }⟩,
    hsp ▸ .splice _ ⟨p, Or.inr rfl⟩ (.of_mem (lastOf_mem _ _)) ⟨parent, Or.inl rfl⟩⟩
  · unfold pcbInsertChild
    rw [bind_ret (onLinks_ret hl)]
    rfl
  · by_cases he : r = p
    · subst he; simpa using h.semkey k r hr
    · simpa [he] using h.semkey k r hr
  · rw [hchild, h.parent r c]
    by_cases hc : c = p
    · subst hc
      simp [hpar, eq_comm]
    · simp [hc]
  · have hne : r ≠ parent := by
      rintro rfl
      rw [h.freeKids r hr] at hk
      cases hk
    simpa [Queues.adopt, Queues.setKids, hne] using h.freeKids r hr
  · have hne : r ≠ p := fun e => hf (e ▸ hr)
    simpa [hne] using h.freeParent r hr
  · rcases (hchild r c).mp hc with hc | ⟨-, rfl⟩
    · exact h.smallKids r c hc
    · exact hs

theorem findAndRemoveChild_none {p : Pid} (hpar : (pool.pcbs p).pParent = none) :
    pcbFindAndRemoveChild p pool = .ret none pool := by
  unfold pcbFindAndRemoveChild
  rw [bind_ret (rfl : Exec.read pool = .ret pool pool), hpar]
  rfl

theorem ring_kids {asl sf : List Nat} {key : Nat → Key} {p : Pid} {cs : List Pid} (hk : q.kids p = some cs) :
    q.rings asl sf key (.pChild p) = some (cs.map .pSib) := by
  simp only [Queues.rings, hk, Option.map_some]

theorem hasNoChildren (h : Rep pool q) {p : Pid} {cs : List Pid} (hk : q.kids p = some cs) :
    pcbHasNoChildren p pool = .ret cs.isEmpty pool := by
  obtain ⟨asl, sf, h⟩ := h
  unfold pcbHasNoChildren
  rw [bind_ret (rfl : Exec.read pool = .ret pool pool), listEmpty_eq h.rings (ring_kids hk), List.isEmpty_map]
  rfl

theorem removeChild_nil (h : Rep pool q) {p : Pid} (hk : q.kids p = some []) :
    pcbRemoveChild p pool = .ret none pool := by
  obtain ⟨asl, sf, h⟩ := h
  unfold pcbRemoveChild
  rw [bind_ret (rfl : Exec.read pool = .ret pool pool), listNext_eq h.rings (ring_kids hk)]
  rfl

/-- `pcb_remove_child` detaches the first child as `pcb_find_and_remove_child` does. -/
theorem removeChild_cons (h : Rep pool q) {p c : Pid} {cs : List Pid} (hk : q.kids p = some (c :: cs)) :
    pcbRemoveChild p pool = pcbFindAndRemoveChild c pool := by
  obtain ⟨asl, sf, h⟩ := h
  have hpar := (h.parent p c).mp ⟨_, hk, List.mem_cons_self⟩
  unfold pcbRemoveChild pcbFindAndRemoveChild
  rw [bind_ret (rfl : Exec.read pool = .ret pool pool), bind_ret (rfl : Exec.read pool = .ret pool pool),
    listNext_eq h.rings (ring_kids hk), hpar]
  rfl

end Rep

/-! ## What `kill_tree` does with a PCB -/

namespace RepAt
variable {pool : Pool T} {q : Queues} {asl sf : List Nat} (h : RepAt pool q asl sf)
include h

/-- `pcb_find_and_remove` on the ready queue, whether the PCB is in it or not. -/
theorem findAndRemoveReady (p : Pid) :
    ∃ l r, pcbFindAndRemove .readyQueue p pool = .ret r { pool with links := l } ∧
      RepAt { pool with links := l } { q with ready := q.ready.erase p } asl sf ∧ SibFrame pool.links l := by
  by_cases hp : p ∈ q.ready
  · obtain ⟨l, hl, R, hf⟩ := pcbFindAndRemove_mem h.rings (h := .readyQueue) rfl h.ready_short hp
    exact ⟨l, _, hl, h.setReady R fun r hr => h.ready_small (List.mem_of_mem_erase hr),
      fun c => hf _ (by simp)⟩
  · refine ⟨pool.links, none, pcbFindAndRemove_not_mem h.rings (h := .readyQueue) rfl h.ready_short hp,
      ?_, fun c => rfl⟩
    rw [List.erase_of_not_mem hp]
    exact h

/-- Freeing a PCB that is in no queue and has neither parent nor children. -/
theorem free {p : Pid} (hp : ¬ q.Queued p) (hs : p < pcbObjects)
    (hk : q.kids p = some []) (hpar : (pool.pcbs p).pParent = none) :
    ∃ l, pcbFree p pool = .ret () { pool with links := l } ∧
      RepAt { pool with links := l } (q.release p) asl sf ∧ SibFrame pool.links l := by
  obtain ⟨l, hl, rfl, R⟩ := listAdd_ring h.rings (h := .pcbFree) rfl (RepAt.fresh_pNext hp)
  refine ⟨_, onLinks_ret hl, { h with
    parent := fun r c => ?_
    freeKids := fun r hr => ?_
    freeParent := fun r hr => ?_
    small := ?_
    smallKids := ?_
    rings := ?_ }, fun c => by simp⟩
  · rw [← h.parent r c]
    by_cases he : r = p
    · subst he; simp [Queues.Child, Queues.release, Queues.setKids, hk]
    · simp [Queues.Child, Queues.release, Queues.setKids, he]
  · rcases List.mem_cons.mp hr with rfl | hr
    · simp [Queues.release, Queues.setKids]
    · by_cases he : r = p
      · subst he; simp [Queues.release, Queues.setKids]
      · simp only [Queues.release, Queues.setKids, Function.update_of_ne he]
        exact h.freeKids r hr
  · rcases List.mem_cons.mp hr with rfl | hr
    · exact hpar
    · exact h.freeParent r hr
  · rintro r (hr | hr | hr | hr)
    · rcases List.mem_cons.mp hr with rfl | hr
      · exact hs
      · exact h.small r (Or.inl hr)
    · exact h.small r (Or.inr (Or.inl hr))
    · exact h.small r (Or.inr (Or.inr (Or.inl hr)))
    · exact h.small r (Or.inr (Or.inr (Or.inr hr)))
  · rintro r c ⟨cs, hcs, hc⟩
    by_cases he : r = p
    · subst he; simp [Queues.release, Queues.setKids] at hcs
    · simp only [Queues.release, Queues.setKids, Function.update_of_ne he] at hcs
      exact h.smallKids r c ⟨cs, hcs, hc⟩
  · rw [← List.map_cons, rings_free] at R
    refine R.mono fun n xs hn => ?_
    rw [Queues.release, ← rings_kids] at hn
    by_cases he : n = .pChild p
    · subst he; simp at hn
    · rwa [Function.update_of_ne he] at hn

/-- `pcb_find_and_remove_child` of a child; its own `p_sib.next` stays as it was. -/
theorem findAndRemoveChild_some {parent p : Pid} (hpar : (pool.pcbs p).pParent = some parent) :
    ∃ l, pcbFindAndRemoveChild p pool = .ret (some p) { pool with
        links := l, pcbs := Function.update pool.pcbs p { pool.pcbs p with pParent := none } } ∧
      RepAt { pool with
        links := l, pcbs := Function.update pool.pcbs p { pool.pcbs p with pParent := none } }
        (q.orphan parent p) asl sf ∧
      l.next (.pSib p) = pool.links.next (.pSib p) ∧ TreeOnly pool.links l := by
  obtain ⟨cs, hk, hm⟩ := (h.parent parent p).mpr hpar
  obtain ⟨as, bs, rfl⟩ := List.append_of_mem hm
  have hnd := h.kids_nodup hk
  have hpas : p ∉ as := fun hm => (List.nodup_append.mp hnd).2.2 p hm p List.mem_cons_self rfl
  have hpbs : p ∉ bs := (List.nodup_cons.mp (List.nodup_append.mp hnd).2.1).1
  have hring : q.rings asl sf pool.sKey (.pChild parent) = some (as.map .pSib ++ .pSib p :: bs.map .pSib) := by
    simp [Queues.rings, hk]
  obtain ⟨l, hl, hcut, R⟩ := listDel_ring h.rings hring
  have herase : (as ++ p :: bs).erase p = as ++ bs := by
    rw [List.erase_append_right _ hpas, List.erase_cons_head]
  have hq : q.orphan parent p = q.setKids parent (some (as ++ bs)) := by
    simp [Queues.orphan, hk, herase]
  have hchild : ∀ r c, (q.orphan parent p).Child r c ↔ q.Child r c ∧ c ≠ p := by
    intro r c
    rw [hq]
    by_cases hr : r = parent
    · subst hr
      simp only [Queues.Child, Queues.setKids, Function.update_self, hk, Option.some.injEq, exists_eq_left',
        List.mem_append, List.mem_cons]
      constructor
      · rintro (hc | hc)
        · exact ⟨Or.inl hc, fun e => hpas (e ▸ hc)⟩
        · exact ⟨Or.inr (Or.inr hc), fun e => hpbs (e ▸ hc)⟩
      · rintro ⟨hc | hc | hc, hne⟩
        · exact Or.inl hc
        · exact absurd hc hne
        · exact Or.inr hc
    · simp only [Queues.Child, Queues.setKids, Function.update_of_ne hr]
      refine ⟨fun hc => ⟨hc, ?_⟩, fun hc => hc.1⟩
      rintro rfl
      exact hr (Option.some.inj (((h.parent r c).mp hc).symm.trans hpar))
  refine ⟨l, ?_, { h with
    rings := by
      rw [hq, ← rings_kids]
      simpa using R
    semkey := fun k r hr => ?_
    parent := fun r c => ?_
    freeKids := fun r hr => ?_
    freeParent := fun r hr => ?_
    smallKids := fun r c hc => h.smallKids r c ((hchild r c).mp hc).1 }, ?_, ?_⟩
  · unfold pcbFindAndRemoveChild
    rw [bind_ret (rfl : Exec.read pool = .ret pool pool), hpar]
    exact (bind_ret (onLinks_ret hl)).trans rfl
  · by_cases he : r = p
    · subst he; simpa using h.semkey k r hr
    · simpa [he] using h.semkey k r hr
  · rw [hchild, h.parent r c]
    by_cases hc : c = p
    · subst hc
      simp
    · simp [hc]
  · have hne : r ≠ parent := by
      rintro rfl
      rw [h.freeKids r hr] at hk
      cases hk
    rw [hq]
    simpa [Queues.setKids, hne] using h.freeKids r hr
  · by_cases he : r = p
    · subst he; simp
    · simpa [he] using h.freeParent r hr
  · rw [hcut]
    refine pool.links.next_cut_of_not_mem fun hmem => ?_
    simp only [List.mem_cons, reduceCtorEq, List.mem_map, Node.pSib.injEq, exists_eq_right, false_or] at hmem
    exact hpas hmem
  · rw [hcut]
    refine .cut _ (.of_mem (lastOf_mem _ _)) ?_
    have hfirst := firstOf_mem_append (Node.pChild parent) (as.map .pSib) (bs.map .pSib)
    rw [← List.map_append] at hfirst
    exact .of_mem hfirst

end RepAt
end Bikaya.Refine
