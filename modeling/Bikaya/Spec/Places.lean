import Bikaya.Lib.Forest
import Bikaya.Spec.Queues

/-!
# Where the PCBs are

* `Apart q` : no PCB is twice in the lists of `q`, neither in one list nor in two;
* `Placed q out` : every PCB of the table is in a list of `q` or in `out` (held by the code that runs);
* `Tree q` : the children lists are a forest of exactly the PCBs that are not free.

A move between two lists is a `Placed.lift` and a `Placed.drop`.
-/

namespace Bikaya.Spec
open Bikaya.Lib Bikaya.Model

structure Apart (q : Queues) : Prop where
  free_nodup : q.free.Nodup
  ready_nodup : q.ready.Nodup
  waiting_nodup : ∀ k, (q.waiting k).Nodup
  ready_not_free : ∀ {p}, p ∈ q.ready → p ∉ q.free
  waiting_not_free : ∀ {p k}, p ∈ q.waiting k → p ∉ q.free
  waiting_not_ready : ∀ {p k}, p ∈ q.waiting k → p ∉ q.ready
  waiting_unique : ∀ {p k k'}, p ∈ q.waiting k → p ∈ q.waiting k' → k = k'

structure Placed (q : Queues) (out : List Pid) : Prop where
  heads : ∀ n, q.heads n = none
  covered : ∀ p < maxProc, q.Queued p ∨ p ∈ out
  small : ∀ p, q.Queued p → p < maxProc
  outSmall : ∀ p ∈ out, p < maxProc
  outside : ∀ p ∈ out, ¬ q.Queued p

structure Tree (q : Queues) : Prop where
  forest : IsForest q.Child
  alive : ∀ p, (∃ cs, q.kids p = some cs) ↔ p < maxProc ∧ p ∉ q.free
  child_alive : ∀ p c, q.Child p c → c < maxProc ∧ c ∉ q.free

namespace Placed
variable {q q' : Queues} {out : List Pid} {p : Pid}

/-- `p` leaves the lists. -/
theorem lift (h : Placed q out) (hp : q.Queued p) (hheads : q'.heads = q.heads)
    (hq : ∀ r, q'.Queued r ↔ q.Queued r ∧ r ≠ p) : Placed q' (p :: out) where
  heads n := by rw [hheads]; exact h.heads n
  covered r hr := by
    by_cases he : r = p
    · exact Or.inr (he ▸ List.mem_cons_self)
    · exact (h.covered r hr).imp (fun hr => (hq r).mpr ⟨hr, he⟩) (List.mem_cons_of_mem _)
  small r hr := h.small r ((hq r).mp hr).1
  outSmall r hr := (List.mem_cons.mp hr).elim (fun e => e ▸ h.small p hp) (h.outSmall r)
  outside r hr hr' := by
    rcases List.mem_cons.mp hr with he | hr
    · exact ((hq r).mp hr').2 he
    · exact h.outside r hr ((hq r).mp hr').1

/-- `p` joins the lists. -/
theorem drop (h : Placed q (p :: out)) (hp : p ∉ out) (hheads : q'.heads = q.heads)
    (hq : ∀ r, q'.Queued r ↔ q.Queued r ∨ r = p) : Placed q' out where
  heads n := by rw [hheads]; exact h.heads n
  covered r hr := by
    rcases h.covered r hr with hr | hr
    · exact Or.inl ((hq r).mpr (Or.inl hr))
    · exact (List.mem_cons.mp hr).imp (fun he => (hq r).mpr (Or.inr he)) id
  small r hr := ((hq r).mp hr).elim (h.small r) (fun he => he ▸ h.outSmall p List.mem_cons_self)
  outSmall r hr := h.outSmall r (List.mem_cons_of_mem _ hr)
  outside r hr hr' := by
    rcases (hq r).mp hr' with hr' | he
    · exact h.outside r (List.mem_cons_of_mem _ hr) hr'
    · exact hp (he ▸ hr)

/-- Only membership in the lists matters. -/
theorem congr (h : Placed q out) (hheads : q'.heads = q.heads) (hq : ∀ r, q'.Queued r ↔ q.Queued r) :
    Placed q' out where
  heads n := by rw [hheads]; exact h.heads n
  covered r hr := (h.covered r hr).imp_left (hq r).mpr
  small r hr := h.small r ((hq r).mp hr)
  outSmall := h.outSmall
  outside r hr hr' := h.outside r hr ((hq r).mp hr')

theorem queued_iff (h : Placed q out) (r : Pid) :
    q.Queued r ↔ r ∈ q.free ∨ r ∈ q.ready ∨ ∃ k, r ∈ q.waiting k := by
  refine ⟨fun hr => ?_, fun hr => ?_⟩
  · rcases hr with hr | hr | hr | ⟨n, xs, hn, -⟩
    · exact Or.inl hr
    · exact Or.inr (Or.inl hr)
    · exact Or.inr (Or.inr hr)
    · rw [h.heads n] at hn
      cases hn
  · rcases hr with hr | hr | hr
    · exact Or.inl hr
    · exact Or.inr (Or.inl hr)
    · exact Or.inr (Or.inr (Or.inl hr))

end Placed

/-! ## Membership after each move -/

section Moves
variable {q : Queues} {p : Pid}

theorem queued_enqueue (prio : Pid → Int) (r : Pid) : (q.enqueue prio p).Queued r ↔ q.Queued r ∨ r = p := by
  simp only [Queues.Queued, Queues.enqueue, mem_insertPrio]
  by_cases he : r = p <;> simp [he]

theorem queued_setWaiting_insert (prio : Pid → Int) (k : Key) (r : Pid) :
    (q.setWaiting k (insertPrio prio p (q.waiting k))).Queued r ↔ q.Queued r ∨ r = p := by
  have hw : (∃ k', r ∈ (q.setWaiting k (insertPrio prio p (q.waiting k))).waiting k') ↔
      (∃ k', r ∈ q.waiting k') ∨ r = p := by
    constructor
    · rintro ⟨k', hr⟩
      by_cases hk : k' = k
      · subst hk
        simp only [Queues.setWaiting, Function.update_self, mem_insertPrio] at hr
        exact hr.symm.imp_left fun hr => ⟨k', hr⟩
      · simp only [Queues.setWaiting, Function.update_of_ne hk] at hr
        exact Or.inl ⟨k', hr⟩
    · rintro (⟨k', hr⟩ | he)
      · refine ⟨k', ?_⟩
        by_cases hk : k' = k
        · subst hk
          simp [Queues.setWaiting, hr]
        · simpa [Queues.setWaiting, hk] using hr
      · exact ⟨k, by simp [Queues.setWaiting, he]⟩
  unfold Queues.Queued
  rw [hw]
  simp only [Queues.setWaiting]
  by_cases he : r = p <;> simp [he]

theorem queued_alloc_iff (r : Pid) : (q.alloc p).Queued r ↔ ({ q with free := q.free.tail } : Queues).Queued r :=
  Iff.rfl

/-- Burying moves a PCB to the free list. -/
theorem queued_bury (r : Pid) : (q.bury p).Queued r ↔ q.Queued r ∨ r = p := by
  simp only [Queues.Queued, Queues.bury, List.mem_cons]
  by_cases hr : r = p
  · simp [hr]
  · simp [hr, List.mem_erase_of_ne hr]

variable (h : Apart q)
include h

theorem queued_pop_free {xs : List Pid} (hf : q.free = p :: xs) (hh : ∀ n, q.heads n = none) (r : Pid) :
    (q.alloc p).Queued r ↔ q.Queued r ∧ r ≠ p := by
  have hnd := h.free_nodup
  rw [hf, List.nodup_cons] at hnd
  have hp : p ∈ q.free := hf ▸ List.mem_cons_self
  rw [queued_alloc_iff]
  simp only [Queues.Queued, hf, List.tail_cons, List.mem_cons, hh]
  constructor
  · rintro (hr | hr | ⟨k, hr⟩ | ⟨n, xs, hn, -⟩)
    · exact ⟨Or.inl (Or.inr hr), fun e => hnd.1 (e ▸ hr)⟩
    · exact ⟨Or.inr (Or.inl hr), fun e => h.ready_not_free hr (e ▸ hp)⟩
    · exact ⟨Or.inr (Or.inr (Or.inl ⟨k, hr⟩)), fun e => h.waiting_not_free hr (e ▸ hp)⟩
    · cases hn
  · rintro ⟨(he | hr) | hr, hne⟩
    · exact absurd he hne
    · exact Or.inl hr
    · exact Or.inr hr

theorem queued_pop_ready {xs : List Pid} (hr : q.ready = p :: xs) (hh : ∀ n, q.heads n = none) (r : Pid) :
    ({ q with ready := xs } : Queues).Queued r ↔ q.Queued r ∧ r ≠ p := by
  have hnd := h.ready_nodup
  rw [hr, List.nodup_cons] at hnd
  have hp : p ∈ q.ready := hr ▸ List.mem_cons_self
  simp only [Queues.Queued, hr, List.mem_cons, hh]
  constructor
  · rintro (hm | hm | ⟨k, hm⟩ | ⟨n, xs, hn, -⟩)
    · exact ⟨Or.inl hm, fun e => h.ready_not_free hp (e ▸ hm)⟩
    · exact ⟨Or.inr (Or.inl (Or.inr hm)), fun e => hnd.1 (e ▸ hm)⟩
    · exact ⟨Or.inr (Or.inr (Or.inl ⟨k, hm⟩)), fun e => h.waiting_not_ready hm (e ▸ hp)⟩
    · cases hn
  · rintro ⟨hm | (he | hm) | hm, hne⟩
    · exact Or.inl hm
    · exact absurd he hne
    · exact Or.inr (Or.inl hm)
    · exact Or.inr (Or.inr hm)

theorem queued_pop_waiting {k : Key} {xs : List Pid} (hk : q.waiting k = p :: xs) (hh : ∀ n, q.heads n = none)
    (r : Pid) : (q.setWaiting k xs).Queued r ↔ q.Queued r ∧ r ≠ p := by
  have hnd := h.waiting_nodup k
  rw [hk, List.nodup_cons] at hnd
  have hp : p ∈ q.waiting k := hk ▸ List.mem_cons_self
  have hw : (∃ k', r ∈ (q.setWaiting k xs).waiting k') ↔ (∃ k', r ∈ q.waiting k') ∧ r ≠ p := by
    constructor
    · rintro ⟨k', hr⟩
      by_cases he : k' = k
      · subst he
        simp only [Queues.setWaiting, Function.update_self] at hr
        exact ⟨⟨k', hk ▸ List.mem_cons_of_mem _ hr⟩, fun e => hnd.1 (e ▸ hr)⟩
      · simp only [Queues.setWaiting, Function.update_of_ne he] at hr
        exact ⟨⟨k', hr⟩, fun e => he (h.waiting_unique (e ▸ hr) hp)⟩
    · rintro ⟨⟨k', hr⟩, hne⟩
      refine ⟨k', ?_⟩
      by_cases he : k' = k
      · subst he
        rw [hk] at hr
        simpa [Queues.setWaiting, hne] using hr
      · simpa [Queues.setWaiting, he] using hr
  unfold Queues.Queued
  rw [hw]
  simp only [Queues.setWaiting, hh]
  constructor
  · rintro (hm | hm | hm | ⟨n, xs, hn, -⟩)
    · exact ⟨Or.inl hm, fun e => h.waiting_not_free hp (e ▸ hm)⟩
    · exact ⟨Or.inr (Or.inl hm), fun e => h.waiting_not_ready hp (e ▸ hm)⟩
    · exact ⟨Or.inr (Or.inr (Or.inl hm.1)), hm.2⟩
    · cases hn
  · rintro ⟨hm | hm | hm | ⟨n, xs, hn, -⟩, hne⟩
    · exact Or.inl hm
    · exact Or.inr (Or.inl hm)
    · exact Or.inr (Or.inr (Or.inl ⟨hm, hne⟩))
    · cases hn

end Moves

/-! ## The tree after each change -/

namespace Tree
variable {q : Queues} (h : Tree q) {p : Pid}
include h

/-- Changes of the queues, the free list excepted. -/
theorem congr {q' : Queues} (hk : q'.kids = q.kids) (hf : ∀ p, p ∈ q'.free ↔ p ∈ q.free) : Tree q' := by
  have hc : q'.Child = q.Child := by
    unfold Queues.Child
    rw [hk]
  exact ⟨hc ▸ h.forest, fun p => by rw [hk, hf]; exact h.alive p, fun p c hpc => by
    rw [hf]; exact h.child_alive p c (hc ▸ hpc)⟩

theorem kids_of_free (hp : p ∈ q.free) : q.kids p = none := by
  cases hk : q.kids p with
  | none => rfl
  | some cs => exact absurd hp ((h.alive p).mp ⟨cs, hk⟩).2

/-- A new root. -/
theorem alloc {xs : List Pid} (hf : q.free = p :: xs) (hnd : q.free.Nodup) (hs : p < maxProc) :
    Tree (q.alloc p) := by
  have hp : p ∈ q.free := hf ▸ List.mem_cons_self
  rw [hf, List.nodup_cons] at hnd
  have hchild : ∀ r c, (q.alloc p).Child r c ↔ q.Child r c := by
    intro r c
    by_cases hr : r = p
    · subst hr
      simp [Queues.Child, Queues.alloc, Queues.setKids, h.kids_of_free hp]
    · simp [Queues.Child, Queues.alloc, Queues.setKids, hr]
  have hfree : (q.alloc p).free = xs := by simp [Queues.alloc, Queues.setKids, hf]
  refine ⟨h.forest.mono fun r c hc => (hchild r c).mp hc, fun r => ?_, fun r c hc => ?_⟩
  · rw [hfree]
    by_cases hr : r = p
    · subst hr
      simp [Queues.alloc, Queues.setKids, hs, hnd.1]
    · have := h.alive r
      rw [hf, List.mem_cons] at this
      simpa [Queues.alloc, Queues.setKids, hr] using this
  · have hc' := h.child_alive r c ((hchild r c).mp hc)
    rw [hf, List.mem_cons] at hc'
    rw [hfree]
    exact ⟨hc'.1, fun hm => hc'.2 (Or.inr hm)⟩

omit h in
theorem child_adopt {parent : Pid} {cs : List Pid} (hk : q.kids parent = some cs) (r c : Pid) :
    (q.adopt parent p).Child r c ↔ q.Child r c ∨ (r = parent ∧ c = p) := by
  by_cases hr : r = parent
  · subst hr
    simp [Queues.Child, Queues.adopt, Queues.setKids, hk]
  · simp [Queues.Child, Queues.adopt, Queues.setKids, hr]

omit h in
/-- Nothing is below a leaf. -/
theorem not_desc_leaf {parent : Pid} (hleaf : q.kids p = some []) (hne : parent ≠ p) : ¬ Desc q.Child p parent := by
  intro hd
  rcases Relation.ReflTransGen.cases_head hd with he | ⟨c, ⟨cs, hcs, hc⟩, -⟩
  · exact hne he.symm
  · rw [hleaf] at hcs
    cases hcs
    cases hc

/-- A root gets a parent that is not below it. -/
theorem adopt {parent : Pid} (hpar : parent < maxProc ∧ parent ∉ q.free) (hp : p < maxProc ∧ p ∉ q.free)
    (hroot : ∀ r, ¬ q.Child r p) (hnot : ¬ Desc q.Child p parent) : Tree (q.adopt parent p) := by
  obtain ⟨cs, hk⟩ := (h.alive parent).mpr hpar
  refine ⟨h.forest.attach hroot hnot fun a d had => (child_adopt hk a d).mp had, fun r => ?_, fun r c hc => ?_⟩
  · rw [show (q.adopt parent p).free = q.free from rfl, ← h.alive r]
    by_cases hr : r = parent
    · subst hr
      simp [Queues.adopt, Queues.setKids, hk]
    · simp [Queues.adopt, Queues.setKids, hr]
  · rcases (child_adopt hk r c).mp hc with hc | ⟨-, rfl⟩
    · exact h.child_alive r c hc
    · exact hp

/-- A root without children is freed. -/
theorem release (hleaf : q.kids p = some []) (hroot : ∀ r, ¬ q.Child r p) : Tree (q.release p) := by
  have hchild : ∀ r c, (q.release p).Child r c → q.Child r c := by
    rintro r c ⟨cs, hcs, hc⟩
    by_cases hr : r = p
    · subst hr
      simp [Queues.release, Queues.setKids] at hcs
    · simp only [Queues.release, Queues.setKids, Function.update_of_ne hr] at hcs
      exact ⟨cs, hcs, hc⟩
  refine ⟨h.forest.mono hchild, fun r => ?_, fun r c hc => ?_⟩
  · by_cases hr : r = p
    · subst hr
      simp [Queues.release, Queues.setKids]
    · have := h.alive r
      simpa [Queues.release, Queues.setKids, hr] using this
  · have hc := hchild r c hc
    obtain ⟨hlt, hf⟩ := h.child_alive r c hc
    have hne : c ≠ p := fun e => hroot r (e ▸ hc)
    exact ⟨hlt, by simpa [Queues.release, Queues.setKids, hne] using hf⟩

omit h in
theorem child_bury {r c : Pid} (hnd : ∀ cs, q.kids r = some cs → cs.Nodup) :
    (q.bury p).Child r c ↔ q.Child r c ∧ r ≠ p ∧ c ≠ p := by
  by_cases hr : r = p
  · subst hr
    simp [Queues.Child, Queues.bury]
  · simp only [Queues.Child, Queues.bury, if_neg hr, Option.map_eq_some_iff]
    constructor
    · rintro ⟨_, ⟨cs, hcs, rfl⟩, hc⟩
      rw [(hnd cs hcs).mem_erase_iff] at hc
      exact ⟨⟨cs, hcs, hc.2⟩, hr, hc.1⟩
    · rintro ⟨⟨cs, hcs, hc⟩, -, hne⟩
      exact ⟨_, ⟨cs, hcs, rfl⟩, ((hnd cs hcs).mem_erase_iff).mpr ⟨hne, hc⟩⟩

/-- A leaf dies. -/
theorem bury (hnd : ∀ r cs, q.kids r = some cs → cs.Nodup) : Tree (q.bury p) := by
  have hchild := fun r c => child_bury (q := q) (p := p) (r := r) (c := c) (hnd r)
  refine ⟨h.forest.mono fun r c hc => ((hchild r c).mp hc).1, fun r => ?_, fun r c hc => ?_⟩
  · by_cases hr : r = p
    · subst hr
      simp [Queues.bury]
    · have := h.alive r
      simpa [Queues.bury, hr] using this
  · obtain ⟨hc, -, hne⟩ := (hchild r c).mp hc
    obtain ⟨hs, hf⟩ := h.child_alive r c hc
    exact ⟨hs, by simpa [Queues.bury, hne] using hf⟩

end Tree
end Bikaya.Spec
