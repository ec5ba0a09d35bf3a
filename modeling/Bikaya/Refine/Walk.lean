import Bikaya.Lib.Prio
import Bikaya.Model.Asl

/-!
# The list operations and loops, run on rings

Each operation of `pcb.c` and `asl.c` on a list of PCBs, as an equation for its run on a pool whose links
form a family of rings. The family stays arbitrary here, so the same lemma serves the ready queue, the
semaphore queues and any other queue.
-/

namespace Bikaya.Refine
open Bikaya.Lib Bikaya.Model

variable {T : Target}

theorem lt_walkFuel {n : Nat} (h : n < 2 ^ 32) : n < walkFuel := by
  unfold walkFuel
  exact h

theorem onLinks_ret {f : Links Node → Option (Links Node)} {p : Pool T} {l : Links Node}
    (h : f p.links = some l) : PM.onLinks f p = .ret () { p with links := l } := by
  simp only [PM.onLinks, h]

/-! ## Searching -/

/-- A search along a segment finds the first member that passes the test. -/
theorem searchFrom_seg {l : Links Node} {h : Node} {test : Node → Option Bool} {good : Node → Bool} :
    ∀ {xs : List Node} {a : Node} {fuel : Nat}, l.Seg a xs h → h ∉ xs → xs.length < fuel →
      (∀ x ∈ xs, test x = some (good x)) →
      searchFrom l h test fuel (l.next a) = .ok (xs.find? good) := by
  intro xs
  induction xs with
  | nil =>
    intro a fuel hs _ hf _
    obtain ⟨n, rfl⟩ := Nat.exists_eq_add_one_of_ne_zero (by simp at hf; omega : fuel ≠ 0)
    rw [hs.1]
    simp [searchFrom]
  | cons x xs ih =>
    intro a fuel hs hh hf ht
    obtain ⟨n, rfl⟩ := Nat.exists_eq_add_one_of_ne_zero (by simp at hf; omega : fuel ≠ 0)
    have hx : x ≠ h := fun e => hh (e ▸ List.mem_cons_self)
    rw [hs.1.1]
    simp only [searchFrom, if_neg hx, ht x List.mem_cons_self]
    cases hg : good x with
    | true => simp [hg]
    | false =>
      have := @ih x n hs.2 (fun hm => hh (List.mem_cons_of_mem _ hm))
        (by simp only [List.length_cons] at hf; omega) (fun y hy => ht y (List.mem_cons_of_mem _ hy))
      simp [hg, this]

section Rings
variable {pool : Pool T} {ρ : Node → Option (List Node)} (R : Rings pool.links ρ)
include R

/-- A search through a ring. -/
theorem listSearch_ring {h : Node} {xs : List Node} {test : Pool T → Node → Option Bool} (good : Node → Bool)
    (hh : ρ h = some xs) (hlen : xs.length < walkFuel) (ht : ∀ x ∈ xs, test pool x = some (good x)) :
    listSearch h test pool = .ret (xs.find? good) pool := by
  simp only [listSearch, searchFrom_seg (R.seg hh) (List.nodup_cons.mp (R.nodup hh)).1 hlen ht]

/-- Looking for a PCB in a ring of PCBs. -/
theorem listSearch_isEntry {h : Node} {xs : List Pid} (p : Pid) (hh : ρ h = some (xs.map .pNext))
    (hlen : xs.length < walkFuel) :
    listSearch h (isEntry p) pool = .ret (if p ∈ xs then some (.pNext p) else none) pool := by
  rw [listSearch_ring R (fun n => decide (n = .pNext p)) hh (by simpa using hlen)
    (fun x _ => rfl)]
  congr 1
  clear hh hlen
  induction xs with
  | nil => rfl
  | cons x xs ih =>
    by_cases hx : x = p
    · subst hx; simp
    · simp [hx, ih, Ne.symm hx]

/-! ## Queues -/

/-- `pcb_insert_in_queue` is a stable insertion. -/
theorem pcbInsertInQueue_ring {h : Node} {xs : List Pid} {p : Pid} (hh : ρ h = some (xs.map .pNext))
    (hp : Fresh ρ (.pNext p)) (hlen : xs.length < walkFuel) :
    ∃ l, pcbInsertInQueue h p pool = .ret () { pool with links := l } ∧
      Rings l (Function.update ρ h
        (some ((insertPrio (fun x => (pool.pcbs x).priority) p xs).map .pNext))) := by
  obtain ⟨as, bs, h1, h2, -, -, h5⟩ := insertPrio_eq (fun x => (pool.pcbs x).priority) p xs
  have hfind : (xs.map Node.pNext).find?
      (fun n => (n.pcb?.map fun it => decide ((pool.pcbs it).priority < (pool.pcbs p).priority)).getD false) =
      bs.head?.map .pNext := by
    rw [← h5, List.find?_map]
    rfl
  have hempty := listEmpty_eq R hh
  cases xs with
  | nil =>
    obtain ⟨l, hl, -, R'⟩ := listAddTail_ring_head R hh hp
    refine ⟨l, ?_, by simpa [insertPrio] using R'⟩
    unfold pcbInsertInQueue
    rw [bind_ret (rfl : Exec.read pool = .ret pool pool), if_pos (by simpa using hempty), onLinks_ret hl]
  | cons x ys =>
    have htest : ∀ n ∈ (x :: ys).map Node.pNext, lowerThan p pool n =
        some ((n.pcb?.map fun it => decide ((pool.pcbs it).priority < (pool.pcbs p).priority)).getD false) := by
      intro n hn
      obtain ⟨y, -, rfl⟩ := List.mem_map.mp hn
      rfl
    have hsearch := listSearch_ring R _ hh (by simpa using hlen) htest
    rw [hfind] at hsearch
    unfold pcbInsertInQueue
    rw [bind_ret (rfl : Exec.read pool = .ret pool pool), if_neg (by simp [hempty]), bind_ret hsearch]
    rw [h2]
    cases bs with
    | nil =>
      obtain ⟨l, hl, -, R'⟩ := listAddTail_ring_head R hh hp
      refine ⟨l, onLinks_ret hl, ?_⟩
      rw [List.append_nil] at h1
      simpa [← h1] using R'
    | cons b bs =>
      rw [h1, List.map_append, List.map_cons] at hh
      obtain ⟨l, hl, -, R'⟩ := listAddTail_ring_member R hh hp
      exact ⟨l, onLinks_ret hl, by simpa using R'⟩

/-- `pcb_is_queue_empty`. -/
theorem pcbIsQueueEmpty_ring {h : Node} {xs : List Pid} (hh : ρ h = some (xs.map .pNext)) :
    pcbIsQueueEmpty h pool = .ret xs.isEmpty pool := by
  unfold pcbIsQueueEmpty
  rw [bind_ret (rfl : Exec.read pool = .ret pool pool), listEmpty_eq R hh, List.isEmpty_map]
  rfl

/-- `pcb_queue_head`. -/
theorem pcbQueueHead_ring {h : Node} {xs : List Pid} (hh : ρ h = some (xs.map .pNext)) :
    pcbQueueHead h pool = .ret xs.head? pool := by
  unfold pcbQueueHead
  rw [bind_ret (rfl : Exec.read pool = .ret pool pool), listNext_eq R hh]
  cases xs <;> rfl

/-- `list_del` of a member of a ring of PCBs. -/
theorem delete_ring {h : Node} {xs : List Pid} {p : Pid} (hh : ρ h = some (xs.map .pNext)) (hp : p ∈ xs) :
    ∃ l, PM.onLinks (fun l => listDel l (.pNext p)) pool = .ret () { pool with links := l } ∧
      Rings l (Function.update ρ h (some ((xs.erase p).map .pNext))) ∧
      ∀ y, y ∉ h :: xs.map .pNext → l.next y = pool.links.next y := by
  obtain ⟨as, bs, rfl⟩ := List.append_of_mem hp
  have hnd : (as ++ p :: bs).Nodup := by
    have := (List.nodup_cons.mp (R.nodup hh)).2
    exact List.Nodup.of_map _ this
  have hpas : p ∉ as := fun hm => (List.nodup_append.mp hnd).2.2 p hm p List.mem_cons_self rfl
  rw [List.map_append, List.map_cons] at hh
  obtain ⟨l, hl, rfl, R'⟩ := listDel_ring R hh
  refine ⟨_, onLinks_ret hl, ?_, fun y hy => ?_⟩
  · rwa [List.erase_append_right _ hpas, List.erase_cons_head, List.map_append]
  · refine pool.links.next_cut_of_not_mem fun hm => hy ?_
    rw [List.map_append, ← List.cons_append]
    exact List.mem_append_left _ hm

/-- `pcb_remove_from_queue` takes the first member, if any. -/
theorem pcbRemoveFromQueue_nil {h : Node} (hh : ρ h = some (([] : List Pid).map .pNext)) :
    pcbRemoveFromQueue h pool = .ret none pool := by
  unfold pcbRemoveFromQueue
  rw [bind_ret (pcbQueueHead_ring R hh)]
  rfl

theorem pcbRemoveFromQueue_cons {h : Node} {p : Pid} {xs : List Pid}
    (hh : ρ h = some ((p :: xs).map .pNext)) :
    ∃ l, pcbRemoveFromQueue h pool = .ret (some p) { pool with links := l } ∧
      Rings l (Function.update ρ h (some (xs.map .pNext))) := by
  obtain ⟨l, hl, R', -⟩ := delete_ring R hh List.mem_cons_self
  refine ⟨l, ?_, by simpa using R'⟩
  unfold pcbRemoveFromQueue
  rw [bind_ret (pcbQueueHead_ring R hh)]
  exact bind_ret hl

/-- `pcb_find_and_remove` of a PCB that is not in the queue. -/
theorem pcbFindAndRemove_not_mem {h : Node} {p : Pid} {xs : List Pid} (hh : ρ h = some (xs.map .pNext))
    (hlen : xs.length < walkFuel) (hp : p ∉ xs) : pcbFindAndRemove h p pool = .ret none pool := by
  unfold pcbFindAndRemove
  rw [bind_ret (listSearch_isEntry R p hh hlen), if_neg hp]
  rfl

theorem pcbFindAndRemove_mem {h : Node} {p : Pid} {xs : List Pid} (hh : ρ h = some (xs.map .pNext))
    (hlen : xs.length < walkFuel) (hp : p ∈ xs) :
    ∃ l, pcbFindAndRemove h p pool = .ret (some p) { pool with links := l } ∧
      Rings l (Function.update ρ h (some ((xs.erase p).map .pNext))) ∧
      ∀ y, y ∉ h :: xs.map .pNext → l.next y = pool.links.next y := by
  obtain ⟨l, hl, R', hf⟩ := delete_ring R hh hp
  refine ⟨l, ?_, R', hf⟩
  unfold pcbFindAndRemove
  rw [bind_ret (listSearch_isEntry R p hh hlen), if_pos hp]
  exact bind_ret hl

/-- `pcb_is_free`. -/
theorem pcbIsFree_ring {p : Pid} {xs : List Pid} (hh : ρ .pcbFree = some (xs.map .pNext))
    (hlen : xs.length < walkFuel) : pcbIsFree p pool = .ret (decide (p ∈ xs)) pool := by
  unfold pcbIsFree
  rw [bind_ret (listSearch_isEntry R p hh hlen)]
  by_cases hp : p ∈ xs <;> simp [hp] <;> rfl

/-- `pcb_alloc` without a free PCB. -/
theorem pcbAlloc_nil (hh : ρ .pcbFree = some []) : pcbAlloc pool = .ret none pool := by
  unfold pcbAlloc
  rw [bind_ret (rfl : Exec.read pool = .ret pool pool), listNext_eq R hh]
  rfl

/-- `pcb_alloc` takes the first free PCB and clears it; its child list is a new ring. -/
theorem pcbAlloc_cons {p : Pid} {xs : List Pid} (hh : ρ .pcbFree = some ((p :: xs).map .pNext))
    (hn : ρ (.pNext p) = none) (hc : Fresh ρ (.pChild p)) (hs : Fresh ρ (.pSib p)) :
    ∃ l, pcbAlloc pool = .ret (some p) { pool with links := l, pcbs := Function.update pool.pcbs p Pcb.zero } ∧
      Rings l (Function.update (Function.update ρ .pcbFree (some (xs.map .pNext))) (.pChild p) (some [])) := by
  have hring : ρ .pcbFree = some ([] ++ Node.pNext p :: xs.map .pNext) := hh
  obtain ⟨l, hl, -, R'⟩ := listDel_ring R hring
  rw [List.nil_append] at R'
  have hfn : Fresh (Function.update ρ .pcbFree (some (xs.map .pNext))) (.pNext p) := R.fresh_of_cut hring hn
  have hfc : Fresh (Function.update ρ .pcbFree (some (xs.map .pNext))) (.pChild p) := hc.update (by simp)
  have hfs : Fresh (Function.update ρ .pcbFree (some (xs.map .pNext))) (.pSib p) := hs.update (by simp)
  -- `memset` and `INIT_LIST_HEAD` only write links of the three nodes of `p`
  let l₁ := clearNode (clearNode (clearNode l (.pNext p)) (.pChild p)) (.pSib p)
  let l₂ := initListHead (initListHead (initListHead l₁ (.pChild p)) (.pNext p)) (.pSib p)
  refine ⟨l₂, ?_, (R'.loop hfc).frame fun y hy => ?_⟩
  · unfold pcbAlloc
    rw [bind_ret (rfl : Exec.read pool = .ret pool pool), listNext_eq R hring]
    simp only [List.nil_append, List.head?_cons]
    rw [bind_ret (onLinks_ret hl)]
    rfl
  · have h1 : y ≠ .pNext p := by
      rintro rfl
      exact hy (hfn.update (by simp))
    have h3 : y ≠ .pSib p := by
      rintro rfl
      exact hy (hfs.update (by simp))
    by_cases h2 : y = .pChild p
    · subst h2
      simp [l₂, l₁, clearNode, initListHead]
    · simp [l₂, l₁, clearNode, initListHead, h1, h2, h3]

/-- `asl_semd`. -/
theorem aslSemd_ring {ds : List Nat} (key : Key) (hh : ρ .asl = some (ds.map .sNext))
    (hlen : ds.length < walkFuel) :
    aslSemd key pool = .ret (ds.find? fun d => decide (pool.sKey d = key)) pool := by
  have htest : ∀ n ∈ ds.map Node.sNext, hasKey key pool n =
      some ((n.semd?.map fun d => decide (pool.sKey d = key)).getD false) := by
    intro n hn
    obtain ⟨d, -, rfl⟩ := List.mem_map.mp hn
    rfl
  have hsearch := listSearch_ring R _ hh (by simpa using hlen) htest
  have hfind : (ds.map Node.sNext).find?
      (fun n => (n.semd?.map fun d => decide (pool.sKey d = key)).getD false) =
      (ds.find? fun d => decide (pool.sKey d = key)).map .sNext := by
    rw [List.find?_map]
    rfl
  rw [hfind] at hsearch
  unfold aslSemd
  rw [bind_ret hsearch]
  cases ds.find? fun d => decide (pool.sKey d = key) <;> rfl

end Rings
end Bikaya.Refine
