import Bikaya.Refine.Init
import Bikaya.Spec.PcbSets

/-!
# `pcb.c` refines a pool and stable priority queues

Two steps. One operation on the lists is one on the sets (`Sorted.step`), and one operation of `pcb.c` on the
links is one on the lists (`PcbRel.step`). `PcbRun` is any sequence of operations after `pcb_init`, and
`pcbRun_refines` what holds in each.
-/

namespace Bikaya.Spec.PcbLists.Sorted
open Bikaya.Lib Bikaya.Model

/-! ## Lists and sets -/

variable {L : PcbLists} {m : PcbSets} (S : L.Sorted m)
include S

theorem queue_mem_iff {h : QHead} {xs ys : List Pid} (hx : L.queue h = some xs) (hy : m.arrivals h = some ys) (p : Pid) :
    p ∈ xs ↔ p ∈ ys :=
  (S.stable h xs ys hx hy).perm.mem_iff

theorem exists_queue {h : QHead} (hh : ∃ ys, m.arrivals h = some ys) :
    ∃ ys xs, m.arrivals h = some ys ∧ L.queue h = some xs ∧ StablySorted m.prio ys xs := by
  obtain ⟨ys, hy⟩ := hh
  have hs := S.initialised h
  rw [hy] at hs
  obtain ⟨xs, hx⟩ := Option.isSome_iff_exists.mp hs
  exact ⟨ys, xs, hy, hx, S.stable h xs ys hx hy⟩

theorem not_inQueue {p : Pid} (hp : ¬ m.InQueue p) {h : QHead} {xs : List Pid} (hx : L.queue h = some xs) : p ∉ xs := by
  intro hm
  have hs := S.initialised h
  rw [hx] at hs
  obtain ⟨ys, hy⟩ := Option.isSome_iff_exists.mp hs.symm
  exact hp ⟨h, ys, hy, (S.queue_mem_iff hx hy p).mp hm⟩

theorem allocated_subset : m.allocated ⊆ Finset.range maxProc := fun p hp => Finset.mem_range.mpr (S.allocated_lt p hp)

/-- The PCBs of the table are all in use exactly when none is free. -/
theorem free_eq_nil_iff : L.free = [] ↔ m.allocated.card = maxProc := by
  have hsub := S.allocated_subset
  constructor
  · intro he
    have hall : m.allocated = Finset.range maxProc := by
      refine Finset.Subset.antisymm hsub fun p hp => ?_
      by_contra hn
      have := (S.mem_free p).mpr ⟨Finset.mem_range.mp hp, hn⟩
      rw [he] at this
      cases this
    rw [hall, Finset.card_range]
  · intro hc
    have hall := Finset.eq_of_subset_of_card_le hsub (by rw [hc, Finset.card_range])
    refine List.eq_nil_iff_forall_not_mem.mpr fun p hp => ?_
    obtain ⟨hlt, hn⟩ := (S.mem_free p).mp hp
    rw [hall] at hn
    exact hn (Finset.mem_range.mpr hlt)

/-- Another content of an initialised or a new queue. -/
theorem setQueue {h : QHead} {xs ys : List Pid} (hs : StablySorted m.prio ys xs) (hnd : xs.Nodup)
    (hal : ∀ p ∈ xs, p ∈ m.allocated) :
    (L.setQueue h (some xs)).Sorted { m with arrivals := Function.update m.arrivals h (some ys) } where
  free_nodup := S.free_nodup
  mem_free := S.mem_free
  allocated_lt := S.allocated_lt
  initialised k := by
    by_cases hk : k = h
    · subst hk; simp [PcbLists.setQueue]
    · simpa [PcbLists.setQueue, hk] using S.initialised k
  nodup k zs hz := by
    by_cases hk : k = h
    · subst hk
      simp only [PcbLists.setQueue, Function.update_self, Option.some.injEq] at hz
      exact hz ▸ hnd
    · simp only [PcbLists.setQueue, Function.update_of_ne hk] at hz
      exact S.nodup k zs hz
  allocated k zs hz := by
    by_cases hk : k = h
    · subst hk
      simp only [PcbLists.setQueue, Function.update_self, Option.some.injEq] at hz
      exact hz ▸ hal
    · simp only [PcbLists.setQueue, Function.update_of_ne hk] at hz
      exact S.allocated k zs hz
  stable k zs ws hz hw := by
    by_cases hk : k = h
    · subst hk
      simp only [PcbLists.setQueue, Function.update_self, Option.some.injEq] at hz hw
      exact hz ▸ hw ▸ hs
    · simp only [PcbLists.setQueue, Function.update_of_ne hk] at hz hw
      exact S.stable k zs ws hz hw

/-- Other priorities for PCBs that are in no queue. -/
theorem setPrio {p : Pid} (v : Int) (hp : ∀ h xs, L.queue h = some xs → p ∉ xs) :
    L.Sorted { m with prio := Function.update m.prio p v } :=
  { S with
    stable := fun h xs ys hx hy => (S.stable h xs ys hx hy).congr fun x hm =>
      Function.update_of_ne (fun e : x = p => hp h xs hx (e ▸ hm)) _ _ }

theorem alloc {p : Pid} {xs : List Pid} (he : L.free = p :: xs) :
    ({ L with free := xs } : PcbLists).Sorted
      { m with allocated := insert p m.allocated, prio := Function.update m.prio p 0 } := by
  have hfree : p ∈ L.free := by rw [he]; exact List.mem_cons_self
  obtain ⟨hlt, hn⟩ := (S.mem_free p).mp hfree
  have hnd := S.free_nodup
  rw [he, List.nodup_cons] at hnd
  have S' := S.setPrio 0 (p := p) fun h xs hx hm => hn (S.allocated h xs hx p hm)
  exact { S' with
    free_nodup := hnd.2
    mem_free := fun r => by
      have hr := S.mem_free r
      rw [he, List.mem_cons] at hr
      rw [Finset.mem_insert]
      by_cases hrp : r = p
      · subst hrp
        exact ⟨fun hm => absurd hm hnd.1, fun hm => absurd (Or.inl rfl) hm.2⟩
      · simpa [hrp] using hr
    allocated_lt := fun r hr => (Finset.mem_insert.mp hr).elim (fun e => e.symm ▸ hlt) (S.allocated_lt r)
    allocated := fun h xs hx r hr => Finset.mem_insert_of_mem (S.allocated h xs hx r hr) }

theorem free {p : Pid} (hp : p ∈ m.allocated) (hq : ¬ m.InQueue p) :
    ({ L with free := p :: L.free } : PcbLists).Sorted { m with allocated := m.allocated.erase p } :=
  { S with
    free_nodup := List.nodup_cons.mpr ⟨fun hm => ((S.mem_free p).mp hm).2 hp, S.free_nodup⟩
    mem_free := fun r => by
      rw [List.mem_cons, Finset.mem_erase, S.mem_free r]
      by_cases hr : r = p
      · subst hr
        simp [S.allocated_lt r hp]
      · simp [hr]
    allocated_lt := fun r hr => S.allocated_lt r (Finset.mem_of_mem_erase hr)
    allocated := fun h xs hx r hr => Finset.mem_erase.mpr
      ⟨fun e => S.not_inQueue hq hx (e ▸ hr), S.allocated h xs hx r hr⟩ }

theorem isHead {h : QHead} (hh : ∃ ys, m.arrivals h = some ys) : m.IsHead h (L.first h) := by
  obtain ⟨ys, xs, hy, hx, hs⟩ := S.exists_queue hh
  unfold PcbLists.first
  rw [hx]
  cases xs with
  | nil =>
    rw [hs.perm.symm.eq_nil] at hy
    exact hy
  | cons p xs => exact ⟨ys, hy, hs.head_first⟩

/-- One operation on the lists is one on the sets. -/
theorem step {op : PcbOp} (hop : m.Allowed op) :
    m.Right op (L.step m.prio op).1 ∧ (L.step m.prio op).2.Sorted (m.next op (L.step m.prio op).1) := by
  cases op with
  | alloc =>
    cases he : L.free with
    | nil =>
      simp only [PcbLists.step, he, List.head?_nil, List.tail_nil]
      refine ⟨S.free_eq_nil_iff.mp he, ?_⟩
      rw [← he]
      exact S
    | cons p xs =>
      simp only [PcbLists.step, he, List.head?_cons, List.tail_cons]
      have hle := Finset.card_le_card S.allocated_subset
      have hne : m.allocated.card ≠ maxProc := fun hc => by
        rw [S.free_eq_nil_iff.mpr hc] at he
        cases he
      rw [Finset.card_range] at hle
      exact ⟨⟨lt_of_le_of_ne hle hne, (S.mem_free p).mp (he ▸ List.mem_cons_self)⟩, S.alloc he⟩
  | free p => exact ⟨trivial, S.free hop.1 hop.2⟩
  | setPriority p v => exact ⟨trivial, S.setPrio v fun h xs hx => S.not_inQueue hop.2 hx⟩
  | makeEmptyQueue h =>
    exact ⟨trivial, S.setQueue StablySorted.nil List.nodup_nil (fun p hp => absurd hp List.not_mem_nil)⟩
  | isQueueEmpty h =>
    obtain ⟨ys, xs, hy, hx, hs⟩ := S.exists_queue hop
    refine ⟨?_, S⟩
    simp only [PcbSets.Right, PcbLists.step, hx, hy, Option.some.injEq, decide_eq_true_eq]
    exact ⟨fun he => (he ▸ hs.perm).symm.eq_nil, fun he => (he ▸ hs.perm).eq_nil⟩
  | insertInQueue h p =>
    obtain ⟨hh, hal, hq⟩ := hop
    obtain ⟨ys, xs, hy, hx, hs⟩ := S.exists_queue hh
    refine ⟨trivial, ?_⟩
    simp only [PcbLists.step, PcbSets.next, PcbSets.setArrivals, hx, hy, Option.map_some]
    refine S.setQueue hs.insert ?_ fun r hr => ?_
    · exact (insertPrio_perm _ p xs).nodup_iff.mpr (List.nodup_cons.mpr ⟨S.not_inQueue hq hx, S.nodup h xs hx⟩)
    · rcases (mem_insertPrio _ p).mp hr with rfl | hr
      · exact hal
      · exact S.allocated h xs hx r hr
  | queueHead h => exact ⟨S.isHead hop, S⟩
  | removeFromQueue h =>
    refine ⟨S.isHead hop, ?_⟩
    obtain ⟨ys, xs, hy, hx, hs⟩ := S.exists_queue hop
    cases xs with
    | nil =>
      simp only [PcbLists.step, PcbLists.first, hx, Option.bind_some, List.head?_nil, Option.map_some, List.tail_nil,
        PcbSets.next]
      have hL : L.setQueue h (some []) = L := by
        unfold PcbLists.setQueue
        rw [← hx, Function.update_eq_self]
      rw [hL]
      exact S
    | cons p xs =>
      simp only [PcbLists.step, PcbLists.first, hx, Option.bind_some, List.head?_cons, Option.map_some, List.tail_cons,
        PcbSets.next, PcbSets.setArrivals, hy]
      have hnd := S.nodup h _ hx
      have he := hs.erase (p := p) hnd
      rw [List.erase_cons_head] at he
      exact S.setQueue he (List.nodup_cons.mp hnd).2 fun r hr => S.allocated h _ hx r (List.mem_cons_of_mem _ hr)
  | findAndRemove h p =>
    obtain ⟨ys, xs, hy, hx, hs⟩ := S.exists_queue hop
    simp only [PcbLists.step, PcbSets.next, PcbSets.setArrivals, PcbSets.Right, hx, hy, Option.getD_some, Option.map_some,
      Option.some.injEq, exists_eq_left', forall_eq']
    refine ⟨?_, S.setQueue (hs.erase (S.nodup h xs hx)) ((S.nodup h xs hx).sublist List.erase_sublist)
      fun r hr => S.allocated h xs hx r (List.mem_of_mem_erase hr)⟩
    rw [← S.queue_mem_iff hx hy p]
    by_cases hp : p ∈ xs <;> simp [hp]
  | isFree p =>
    refine ⟨?_, S⟩
    simp only [PcbSets.Right, PcbLists.step, decide_eq_true_eq, S.mem_free p]
    exact ⟨fun hp => hp.2, fun hp => ⟨hop, hp⟩⟩

end Bikaya.Spec.PcbLists.Sorted

namespace Bikaya.Refine
open Bikaya.Lib Bikaya.Model Bikaya.Spec

variable {T : Target}

/-! ## Links and lists -/

/-- The operation of `pcb.c`. -/
def pcbExec : PcbOp → PM T PcbResult
  | .alloc => do
    let r ← pcbAlloc
    pure (.pcb r)
  | .free p => do
    pcbFree p
    pure .void
  | .setPriority p v => do
    PM.modifyPcb p fun x => { x with priority := v }
    pure .void
  | .makeEmptyQueue h => do
    pcbMakeEmptyQueue h.node
    pure .void
  | .isQueueEmpty h => do
    let b ← pcbIsQueueEmpty h.node
    pure (.bool b)
  | .insertInQueue h p => do
    pcbInsertInQueue h.node p
    pure .void
  | .queueHead h => do
    let r ← pcbQueueHead h.node
    pure (.pcb r)
  | .removeFromQueue h => do
    let r ← pcbRemoveFromQueue h.node
    pure (.pcb r)
  | .findAndRemove h p => do
    let r ← pcbFindAndRemove h.node p
    pure (.pcb r)
  | .isFree p => do
    let b ← pcbIsFree p
    pure (.bool b)

theorem QHead.node_injective : Function.Injective QHead.node := by
  intro h k he
  cases h <;> cases k <;> cases he <;> rfl

theorem QHead.rings_node (L : PcbLists) (h : QHead) : L.rings h.node = (L.queue h).map (List.map .pNext) := by
  cases h <;> rfl

theorem queue_ring {L : PcbLists} {h : QHead} {xs : List Pid} (hx : L.queue h = some xs) :
    L.rings h.node = some (xs.map .pNext) := by
  rw [QHead.rings_node, hx]
  rfl

theorem rings_setQueue (L : PcbLists) (h : QHead) (xs : List Pid) :
    Function.update L.rings h.node (some (xs.map .pNext)) = (L.setQueue h (some xs)).rings := by
  funext n
  cases h <;> cases n <;> simp [QHead.node, PcbLists.rings, PcbLists.setQueue]
  next i j => by_cases hj : j = i <;> simp [hj, PcbLists.rings]

theorem rings_setFree (L : PcbLists) (xs : List Pid) :
    Function.update L.rings .pcbFree (some (xs.map .pNext)) = ({ L with free := xs } : PcbLists).rings := by
  funext n
  cases n <;> simp [PcbLists.rings]

/-- A node of the rings is a sentinel or the `p_next` of a listed PCB. -/
theorem mem_pcbRings {L : PcbLists} {n x : Node} {xs : List Node} (hn : L.rings n = some xs) (hx : x ∈ n :: xs) :
    x = .pcbFree ∨ (∃ h : QHead, x = h.node ∧ ∃ ys, L.queue h = some ys) ∨
      ∃ p, x = .pNext p ∧ (p ∈ L.free ∨ ∃ h xs, L.queue h = some xs ∧ p ∈ xs) := by
  have hqueue : ∀ h : QHead, L.rings h.node = some xs → x ∈ xs →
      ∃ p, x = .pNext p ∧ (p ∈ L.free ∨ ∃ h xs, L.queue h = some xs ∧ p ∈ xs) := by
    intro h hh hm
    rw [QHead.rings_node] at hh
    obtain ⟨ys, hys, rfl⟩ := Option.map_eq_some_iff.mp hh
    obtain ⟨p, hp, rfl⟩ := List.mem_map.mp hm
    exact ⟨p, rfl, Or.inr ⟨h, ys, hys, hp⟩⟩
  cases n with
  | pcbFree =>
    cases hn
    rcases List.mem_cons.mp hx with rfl | hx
    · exact Or.inl rfl
    · obtain ⟨p, hp, rfl⟩ := List.mem_map.mp hx
      exact Or.inr (Or.inr ⟨p, rfl, Or.inl hp⟩)
  | readyQueue =>
    rcases List.mem_cons.mp hx with rfl | hx
    · obtain ⟨ys, hys, -⟩ := Option.map_eq_some_iff.mp hn
      exact Or.inr (Or.inl ⟨.ready, rfl, ys, hys⟩)
    · exact Or.inr (Or.inr (hqueue .ready hn hx))
  | head i =>
    rcases List.mem_cons.mp hx with rfl | hx
    · obtain ⟨ys, hys, -⟩ := Option.map_eq_some_iff.mp hn
      exact Or.inr (Or.inl ⟨.head i, rfl, ys, hys⟩)
    · exact Or.inr (Or.inr (hqueue (.head i) hn hx))
  | semdFree => cases hn
  | asl => cases hn
  | pNext p => cases hn
  | pChild p => cases hn
  | pSib p => cases hn
  | sNext d => cases hn
  | sProcQ d => cases hn

/-- Nodes of another kind can be linked. -/
theorem pcbRings_fresh {L : PcbLists} {x : Node} (hf : x ≠ .pcbFree) (hh : ∀ h : QHead, x ≠ h.node)
    (hp : ∀ p, x ≠ .pNext p) : Fresh L.rings x := by
  intro n xs hn hm
  rcases mem_pcbRings hn hm with he | ⟨h, he, -⟩ | ⟨p, he, -⟩
  · exact hf he
  · exact hh h he
  · exact hp p he

/-- The links of `pool` are exactly the rings of `L`, and `L` holds the sets of `m`. -/
structure PcbRel (pool : Pool T) (m : PcbSets) (L : PcbLists) : Prop where
  rings : Rings pool.links L.rings
  sorted : L.Sorted m
  prio : ∀ p ∈ m.allocated, (pool.pcbs p).priority = m.prio p

theorem short {xs : List Pid} (hnd : xs.Nodup) (h : ∀ p ∈ xs, p < maxProc) : xs.length < walkFuel :=
  lt_of_le_of_lt (length_le_of_nodup_lt hnd h) (lt_walkFuel (by decide))

namespace PcbRel
variable {pool : Pool T} {m : PcbSets} {L : PcbLists} (R : PcbRel pool m L)
include R

theorem queue_short {h : QHead} {xs : List Pid} (hx : L.queue h = some xs) : xs.length < walkFuel :=
  short (R.sorted.nodup h xs hx) fun p hp => R.sorted.allocated_lt p (R.sorted.allocated h xs hx p hp)

theorem free_short : L.free.length < walkFuel :=
  short R.sorted.free_nodup fun p hp => ((R.sorted.mem_free p).mp hp).1

/-- An allocated PCB in no queue can be linked into one. -/
theorem fresh {p : Pid} (hp : p ∈ m.allocated) (hq : ¬ m.InQueue p) : Fresh L.rings (.pNext p) := by
  intro n xs hn hm
  rcases mem_pcbRings hn hm with he | ⟨h, he, -⟩ | ⟨r, he, hr⟩
  · cases he
  · cases h <;> cases he
  · cases he
    rcases hr with hf | ⟨h, xs, hx, hm⟩
    · exact ((R.sorted.mem_free p).mp hf).2 hp
    · exact R.sorted.not_inQueue hq hx hm

/-- A sentinel that is not initialised can get an empty queue. -/
theorem fresh_head {h : QHead} (hh : ∀ ys, m.arrivals h ≠ some ys) : Fresh L.rings h.node := by
  intro n xs hn hm
  rcases mem_pcbRings hn hm with he | ⟨k, he, ys, hys⟩ | ⟨r, he, -⟩
  · cases h <;> cases he
  · have hs := R.sorted.initialised h
    rw [QHead.node_injective he, hys] at hs
    obtain ⟨zs, hz⟩ := Option.isSome_iff_exists.mp hs.symm
    exact hh zs (QHead.node_injective he ▸ hz)
  · cases h <;> cases he

/-- Insertion by the priorities of the PCBs is insertion by those of the sets. -/
theorem insertPrio_eq {h : QHead} {p : Pid} {xs : List Pid} (hx : L.queue h = some xs) (hp : p ∈ m.allocated) :
    insertPrio (fun r => (pool.pcbs r).priority) p xs = insertPrio m.prio p xs :=
  insertPrio_congr m.prio p (R.prio p hp) fun r hr => R.prio r (R.sorted.allocated h xs hx r hr)

/-! ## One operation -/

theorem alloc : ∃ pool', pcbExec .alloc pool = .ret (L.step m.prio .alloc).1 pool' ∧
    PcbRel pool' (m.next .alloc (L.step m.prio .alloc).1) (L.step m.prio .alloc).2 ∧
    ((L.step m.prio .alloc).1 = .pcb none → pool' = pool) := by
  have hS := (R.sorted.step (show m.Allowed .alloc from trivial)).2
  cases he : L.free with
  | nil =>
    simp only [PcbLists.step, he, List.head?_nil, List.tail_nil] at hS ⊢
    refine ⟨pool, map_ret PcbResult.pcb (pcbAlloc_nil R.rings (by simp [PcbLists.rings, he])), ⟨?_, hS, R.prio⟩,
      fun _ => rfl⟩
    rw [← he]
    exact R.rings
  | cons p xs =>
    simp only [PcbLists.step, he, List.head?_cons, List.tail_cons] at hS ⊢
    have hfree : L.rings .pcbFree = some ((p :: xs).map .pNext) := by simp [PcbLists.rings, he]
    have hsib : Fresh L.rings (.pSib p) := pcbRings_fresh (by simp) (fun h => by cases h <;> simp [QHead.node]) (by simp)
    have hchild : Fresh L.rings (.pChild p) :=
      pcbRings_fresh (by simp) (fun h => by cases h <;> simp [QHead.node]) (by simp)
    obtain ⟨l, hl, hrings⟩ := pcbAlloc_cons R.rings hfree rfl hchild hsib
    refine ⟨_, map_ret PcbResult.pcb hl, ⟨?_, hS, fun r hr => ?_⟩, fun hc => by cases hc⟩
    · rw [rings_setFree] at hrings
      refine hrings.mono fun n ys hn => ?_
      rw [Function.update_of_ne (by rintro rfl; cases hn)]
      exact hn
    · simp only [PcbSets.next, Finset.mem_insert] at hr ⊢
      by_cases hrp : r = p
      · subst hrp
        simp [Pcb.zero]
      · simp only [Function.update_of_ne hrp]
        exact R.prio r (hr.resolve_left hrp)

theorem findAndRemove {h : QHead} (p : Pid) (hop : m.Allowed (.findAndRemove h p)) :
    ∃ pool', pcbExec (.findAndRemove h p) pool = .ret (L.step m.prio (.findAndRemove h p)).1 pool' ∧
      PcbRel pool' (m.next (.findAndRemove h p) (L.step m.prio (.findAndRemove h p)).1)
        (L.step m.prio (.findAndRemove h p)).2 ∧
      ((L.step m.prio (.findAndRemove h p)).1 = .pcb none → pool' = pool) := by
  have hS := (R.sorted.step hop).2
  obtain ⟨ys, xs, hy, hx, hs⟩ := R.sorted.exists_queue hop
  simp only [PcbLists.step, hx, Option.getD_some, Option.map_some] at hS ⊢
  by_cases hp : p ∈ xs
  · rw [if_pos hp] at hS ⊢
    obtain ⟨l, hl, hrings, -⟩ := pcbFindAndRemove_mem R.rings (queue_ring hx) (R.queue_short hx) hp
    rw [rings_setQueue] at hrings
    exact ⟨_, map_ret PcbResult.pcb hl, ⟨hrings, hS, R.prio⟩, fun hc => by cases hc⟩
  · rw [if_neg hp] at hS ⊢
    refine ⟨pool, map_ret PcbResult.pcb (pcbFindAndRemove_not_mem R.rings (queue_ring hx) (R.queue_short hx) hp),
      ⟨?_, hS, R.prio⟩,
      fun _ => rfl⟩
    rw [List.erase_of_not_mem hp, ← rings_setQueue, ← queue_ring hx, Function.update_eq_self]
    exact R.rings

theorem removeFromQueue {h : QHead} (hop : m.Allowed (.removeFromQueue h)) :
    ∃ pool', pcbExec (.removeFromQueue h) pool = .ret (L.step m.prio (.removeFromQueue h)).1 pool' ∧
      PcbRel pool' (m.next (.removeFromQueue h) (L.step m.prio (.removeFromQueue h)).1)
        (L.step m.prio (.removeFromQueue h)).2 ∧
      ((L.step m.prio (.removeFromQueue h)).1 = .pcb none → pool' = pool) := by
  have hS := (R.sorted.step hop).2
  obtain ⟨ys, xs, hy, hx, hs⟩ := R.sorted.exists_queue hop
  cases xs with
  | nil =>
    simp only [PcbLists.step, PcbLists.first, hx, Option.bind_some, List.head?_nil, Option.map_some, List.tail_nil] at hS ⊢
    refine ⟨pool, map_ret PcbResult.pcb (pcbRemoveFromQueue_nil R.rings (queue_ring hx)), ⟨?_, hS, R.prio⟩, fun _ => rfl⟩
    rw [← rings_setQueue, ← queue_ring hx, Function.update_eq_self]
    exact R.rings
  | cons p xs =>
    simp only [PcbLists.step, PcbLists.first, hx, Option.bind_some, List.head?_cons, Option.map_some, List.tail_cons]
      at hS ⊢
    obtain ⟨l, hl, hrings⟩ := pcbRemoveFromQueue_cons R.rings (queue_ring hx)
    rw [rings_setQueue] at hrings
    exact ⟨_, map_ret PcbResult.pcb hl, ⟨hrings, hS, R.prio⟩, fun hc => by cases hc⟩

/-- One operation of `pcb.c` is one on the lists. -/
theorem step {op : PcbOp} (hop : m.Allowed op) :
    ∃ pool', pcbExec op pool = .ret (L.step m.prio op).1 pool' ∧
      PcbRel pool' (m.next op (L.step m.prio op).1) (L.step m.prio op).2 ∧
      (op.Reads ∨ (L.step m.prio op).1 = .pcb none → pool' = pool) := by
  have hS := (R.sorted.step hop).2
  cases op with
  | alloc =>
    obtain ⟨pool', hrun, hrel, hnone⟩ := R.alloc
    exact ⟨pool', hrun, hrel, fun hr => hnone (hr.resolve_left id)⟩
  | free p =>
    obtain ⟨l, hl, -, hrings⟩ := listAdd_ring R.rings (h := .pcbFree) rfl (R.fresh hop.1 hop.2)
    rw [← List.map_cons, rings_setFree] at hrings
    refine ⟨_, map_ret (fun _ => PcbResult.void) (onLinks_ret hl), ⟨hrings, hS, ?_⟩,
      fun hr => by rcases hr with hr | hr <;> cases hr⟩
    exact fun r hr => R.prio r (Finset.mem_of_mem_erase hr)
  | setPriority p v =>
    refine ⟨_, map_ret (fun _ => PcbResult.void) rfl, ⟨R.rings, hS, fun r hr => ?_⟩,
      fun hr => by rcases hr with hr | hr <;> cases hr⟩
    change (Function.update pool.pcbs p _ r).priority = Function.update m.prio p v r
    by_cases hrp : r = p
    · subst hrp
      rw [Function.update_self, Function.update_self]
    · rw [Function.update_of_ne hrp, Function.update_of_ne hrp]
      exact R.prio r hr
  | makeEmptyQueue h =>
    refine ⟨_, map_ret (fun _ => PcbResult.void) rfl, ⟨?_, hS, R.prio⟩, fun hr => by rcases hr with hr | hr <;> cases hr⟩
    change Rings (pool.links.loop h.node) (L.setQueue h (some [])).rings
    rw [← rings_setQueue]
    by_cases hh : ∃ ys, m.arrivals h = some ys
    · obtain ⟨ys, xs, hy, hx, hs⟩ := R.sorted.exists_queue hh
      rw [hop ys hy] at hs
      rw [hs.perm.eq_nil] at hx
      rw [List.map_nil, ← List.map_nil, ← queue_ring hx, Function.update_eq_self]
      exact R.rings.loop_empty (queue_ring hx)
    · exact R.rings.loop (R.fresh_head fun ys hy => hh ⟨ys, hy⟩)
  | isQueueEmpty h =>
    obtain ⟨ys, xs, hy, hx, hs⟩ := R.sorted.exists_queue hop
    refine ⟨pool, ?_, ⟨R.rings, hS, R.prio⟩, fun _ => rfl⟩
    have he : decide (L.queue h = some []) = xs.isEmpty := by
      rw [hx]
      cases xs <;> simp
    simp only [PcbLists.step, he]
    exact map_ret PcbResult.bool (pcbIsQueueEmpty_ring R.rings (queue_ring hx))
  | insertInQueue h p =>
    obtain ⟨hh, hal, hq⟩ := hop
    obtain ⟨ys, xs, hy, hx, hs⟩ := R.sorted.exists_queue hh
    obtain ⟨l, hl, hrings⟩ := pcbInsertInQueue_ring R.rings (queue_ring hx) (R.fresh hal hq) (R.queue_short hx)
    rw [R.insertPrio_eq hx hal, rings_setQueue] at hrings
    simp only [PcbLists.step, hx, Option.map_some] at hS ⊢
    exact ⟨_, map_ret (fun _ => PcbResult.void) hl, ⟨hrings, hS, R.prio⟩, fun hr => by rcases hr with hr | hr <;> cases hr⟩
  | queueHead h =>
    obtain ⟨ys, xs, hy, hx, hs⟩ := R.sorted.exists_queue hop
    refine ⟨pool, ?_, ⟨R.rings, hS, R.prio⟩, fun _ => rfl⟩
    simp only [PcbLists.step, PcbLists.first, hx, Option.bind_some]
    exact map_ret PcbResult.pcb (pcbQueueHead_ring R.rings (queue_ring hx))
  | removeFromQueue h =>
    obtain ⟨pool', hrun, hrel, hnone⟩ := R.removeFromQueue hop
    exact ⟨pool', hrun, hrel, fun hr => hnone (hr.resolve_left id)⟩
  | findAndRemove h p =>
    obtain ⟨pool', hrun, hrel, hnone⟩ := R.findAndRemove p hop
    exact ⟨pool', hrun, hrel, fun hr => hnone (hr.resolve_left id)⟩
  | isFree p =>
    exact ⟨pool, map_ret PcbResult.bool (pcbIsFree_ring R.rings rfl R.free_short), ⟨R.rings, hS, R.prio⟩, fun _ => rfl⟩

end PcbRel

/-! ## Runs -/

/-- What `pcb_init` builds. -/
def initLists : PcbLists where
  free := (List.range maxProc).reverse
  queue := fun h => if h = .ready then some [] else none

theorem initLists_sorted : initLists.Sorted PcbSets.initial where
  free_nodup := List.nodup_reverse.mpr List.nodup_range
  mem_free p := by simp [initLists, PcbSets.initial]
  allocated_lt p hp := by simp [PcbSets.initial] at hp
  initialised h := by cases h <;> simp [initLists, PcbSets.initial]
  nodup h xs hx := by cases h <;> simp [initLists] at hx; subst hx; exact List.nodup_nil
  allocated h xs hx := by cases h <;> simp [initLists] at hx; subst hx; simp
  stable h xs ys hx hy := by
    cases h <;> simp [initLists] at hx
    subst hx
    simp only [PcbSets.initial, if_true, Option.some.injEq] at hy
    exact hy ▸ StablySorted.nil

theorem pcbInit_rel : ∃ pool : Pool T, pcbInit Pool.static = .ret () pool ∧ PcbRel pool PcbSets.initial initLists := by
  obtain ⟨pool, hrun, -, R⟩ := pcbInit_rings (static_rings (T := T))
  refine ⟨pool, hrun, R.mono fun n xs hn => ?_, initLists_sorted, fun p hp => by simp [PcbSets.initial] at hp⟩
  cases n <;> simp [PcbLists.rings, initLists, Queues.rings, blank] at hn ⊢ <;> exact hn

/-- The states of `pcb.c` after `pcb_init` and any sequence of allowed operations. -/
inductive PcbRun : Pool T → PcbSets → Prop
  | init {pool : Pool T} : pcbInit Pool.static = .ret () pool → PcbRun pool PcbSets.initial
  | step {pool pool' : Pool T} {m : PcbSets} {op : PcbOp} {r : PcbResult} : PcbRun pool m → m.Allowed op →
      pcbExec op pool = .ret r pool' → PcbRun pool' (m.next op r)

theorem PcbRun.rel {pool : Pool T} {m : PcbSets} (h : PcbRun pool m) : ∃ L, PcbRel pool m L := by
  induction h with
  | init hrun =>
    obtain ⟨pool, hrun', R⟩ := pcbInit_rel (T := T)
    cases hrun.symm.trans hrun'
    exact ⟨_, R⟩
  | step _ hop hrun ih =>
    obtain ⟨L, R⟩ := ih
    obtain ⟨pool', hrun', R', -⟩ := R.step hop
    cases hrun.symm.trans hrun'
    exact ⟨_, R'⟩

/-- After any sequence of operations the links are the disjoint rings of lists that hold the sets, and every
operation that may come next returns what the sets say; one that only reads or finds nothing changes nothing. -/
theorem pcbRun_refines {pool : Pool T} {m : PcbSets} (h : PcbRun pool m) :
    (∃ L, PcbRel pool m L) ∧ ∀ op, m.Allowed op → ∃ r pool', pcbExec op pool = .ret r pool' ∧ m.Right op r ∧
      (op.Reads ∨ r = .pcb none → pool' = pool) := by
  obtain ⟨L, R⟩ := h.rel
  refine ⟨⟨L, R⟩, fun op hop => ?_⟩
  obtain ⟨pool', hrun, -, hsame⟩ := R.step hop
  exact ⟨_, pool', hrun, (R.sorted.step hop).1, hsame⟩

/-- A PCB is allocated, joins the ready queue, and may be removed. -/
theorem pcbRun_refines_ready : ∃ (pool : Pool .umps) (m : PcbSets), PcbRun pool m ∧ m.allocated = {19} ∧
    m.arrivals .ready = some [19] ∧ (∃ L, PcbRel pool m L) ∧
    ∃ r pool', pcbExec (.removeFromQueue .ready) pool = .ret r pool' ∧ m.Right (.removeFromQueue .ready) r := by
  have halloc : PcbSets.initial.Allowed .alloc := trivial
  obtain ⟨pool₀, hrun₀, R₀⟩ := pcbInit_rel (T := .umps)
  obtain ⟨pool₁, hrun₁, R₁, -⟩ := R₀.step halloc
  have hins : PcbSets.Allowed (PcbSets.initial.next .alloc (.pcb (some 19))) (.insertInQueue .ready 19) := by
    refine ⟨⟨[], rfl⟩, Finset.mem_insert_self 19 ∅, ?_⟩
    rintro ⟨h, xs, hx, hm⟩
    cases h <;> simp [PcbSets.next, PcbSets.initial] at hx
    subst hx
    cases hm
  obtain ⟨pool₂, hrun₂, -, -⟩ := R₁.step hins
  have hrun := ((PcbRun.init hrun₀).step halloc hrun₁).step hins hrun₂
  obtain ⟨hrel, hops⟩ := pcbRun_refines hrun
  obtain ⟨r, pool', hrun', hright, -⟩ := hops (.removeFromQueue .ready) ⟨_, rfl⟩
  exact ⟨pool₂, _, hrun, rfl, rfl, hrel, r, pool', hrun', hright⟩

end Bikaya.Refine
