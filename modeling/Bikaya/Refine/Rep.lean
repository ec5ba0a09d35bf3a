import Bikaya.Refine.Walk
import Bikaya.Spec.Queues

/-!
# The lists a pool represents

`RepAt pool q asl sf` : the links of `pool` are exactly the lists of `q`, with the descriptors `asl` active
and `sf` free, and the redundant fields (`p_semkey`, `p_parent`: `Fields`; `s_key`) agree with them. `Rep`
hides the descriptors. Here: what the relation says about one PCB, and how an update of one ring is an update of `q`.
-/

namespace Bikaya.Refine
open Bikaya.Lib Bikaya.Model Bikaya.Spec

variable {T : Target}

/-- What the lists of `q` say about the fields of the PCBs. -/
structure Fields (pool : Pool T) (q : Queues) : Prop where
  semkey : ∀ k p, p ∈ q.waiting k → (pool.pcbs p).pSemkey = k
  parent : ∀ p c, q.Child p c ↔ (pool.pcbs c).pParent = some p
  freeKids : ∀ p ∈ q.free, q.kids p = none
  freeParent : ∀ p ∈ q.free, (pool.pcbs p).pParent = none
  small : ∀ p, q.Queued p → p < pcbObjects
  smallKids : ∀ p c, q.Child p c → c < pcbObjects

structure RepAt (pool : Pool T) (q : Queues) (asl sf : List Nat) : Prop extends Fields pool q where
  rings : Rings pool.links (q.rings asl sf pool.sKey)
  semds : (asl ++ sf).Perm (List.range maxProc)
  keys : (asl.map pool.sKey).Nodup
  active : ∀ k, q.waiting k ≠ [] ↔ k ∈ asl.map pool.sKey

def Rep (pool : Pool T) (q : Queues) : Prop := ∃ asl sf, RepAt pool q asl sf

theorem maxProc_lt : maxProc < pcbObjects := by decide

theorem pcbObjects_lt : pcbObjects < walkFuel := lt_walkFuel (by decide)

/-! ## Updates of one ring -/

section Updates
variable (q : Queues) (asl sf : List Nat) (key : Nat → Key)

theorem rings_free (xs : List Pid) : Function.update (q.rings asl sf key) .pcbFree (some (xs.map .pNext)) =
    ({ q with free := xs } : Queues).rings asl sf key := by
  funext n
  cases n <;> simp [Queues.rings]

theorem rings_queue (h : QHead) (xs : List Pid) :
    Function.update (q.rings asl sf key) h.node (some (xs.map .pNext)) = (q.setQueue h xs).rings asl sf key := by
  funext n
  cases h <;> cases n <;> simp [QHead.node, Queues.rings, Queues.setQueue]
  next i j => by_cases hj : j = i <;> simp [hj, Queues.rings]

theorem rings_kids (p : Pid) (cs : Option (List Pid)) :
    Function.update (q.rings asl sf key) (.pChild p) (cs.map (List.map .pSib)) =
    (q.setKids p cs).rings asl sf key := by
  funext n
  cases n with
  | pChild r =>
    by_cases h : r = p
    · subst h; simp [Queues.rings, Queues.setKids]
    · simp [Queues.rings, Queues.setKids, h]
  | _ => simp [Queues.rings, Queues.setKids]

/-- The waiting list of an active key. -/
theorem rings_waiting {d : Nat} (hd : d ∈ asl) (hkeys : (asl.map key).Nodup) (xs : List Pid) :
    Function.update (q.rings asl sf key) (.sProcQ d) (some (xs.map .pNext)) =
    (q.setWaiting (key d) xs).rings asl sf key := by
  funext n
  cases n with
  | sProcQ e =>
    by_cases h : e = d
    · subst h; simp [Queues.rings, Queues.setWaiting, hd]
    · by_cases he : e ∈ asl
      · have hne : key e ≠ key d := fun hk => h (List.inj_on_of_nodup_map hkeys he hd hk)
        simp [Queues.rings, Queues.setWaiting, h, he, hne]
      · simp [Queues.rings, h, he]
  | _ => simp [Queues.rings, Queues.setWaiting]

end Updates

/-- What it takes to be a node of the rings. -/
theorem mem_rings {q : Queues} {asl sf : List Nat} {key : Nat → Key} {n x : Node} {xs : List Node}
    (hn : q.rings asl sf key n = some xs) (hx : x ∈ n :: xs) :
    match x with
    | .pNext p => q.Queued p
    | .pSib p => ∃ r, q.Child r p
    | .pChild p => ∃ cs, q.kids p = some cs
    | .sNext d => d ∈ asl ∨ d ∈ sf
    | .sProcQ d => d ∈ asl ∨ d ∈ sf
    | _ => True := by
  cases n with
  | pcbFree =>
    cases hn
    rcases List.mem_cons.mp hx with rfl | hx
    · trivial
    · obtain ⟨p, hp, rfl⟩ := List.mem_map.mp hx
      exact Or.inl hp
  | readyQueue =>
    cases hn
    rcases List.mem_cons.mp hx with rfl | hx
    · trivial
    · obtain ⟨p, hp, rfl⟩ := List.mem_map.mp hx
      exact Or.inr (Or.inl hp)
  | semdFree =>
    cases hn
    rcases List.mem_cons.mp hx with rfl | hx
    · trivial
    · obtain ⟨d, hd, rfl⟩ := List.mem_map.mp hx
      exact Or.inr hd
  | asl =>
    cases hn
    rcases List.mem_cons.mp hx with rfl | hx
    · trivial
    · obtain ⟨d, hd, rfl⟩ := List.mem_map.mp hx
      exact Or.inl hd
  | head i =>
    obtain ⟨ys, hys, rfl⟩ := Option.map_eq_some_iff.mp hn
    rcases List.mem_cons.mp hx with rfl | hx
    · trivial
    · obtain ⟨p, hp, rfl⟩ := List.mem_map.mp hx
      exact Or.inr (Or.inr (Or.inr ⟨i, ys, hys, hp⟩))
  | pChild r =>
    obtain ⟨ys, hys, rfl⟩ := Option.map_eq_some_iff.mp hn
    rcases List.mem_cons.mp hx with rfl | hx
    · exact ⟨ys, hys⟩
    · obtain ⟨p, hp, rfl⟩ := List.mem_map.mp hx
      exact ⟨r, ys, hys, hp⟩
  | sProcQ d =>
    simp only [Queues.rings] at hn
    split at hn
    next hd =>
      cases hn
      rcases List.mem_cons.mp hx with rfl | hx
      · exact Or.inl hd
      · obtain ⟨p, hp, rfl⟩ := List.mem_map.mp hx
        exact Or.inr (Or.inr (Or.inl ⟨_, hp⟩))
    next =>
      split at hn
      next hd =>
        cases hn
        rw [List.mem_singleton] at hx
        subst hx
        exact Or.inr hd
      next => cases hn
  | pNext r => cases hn
  | pSib r => cases hn
  | sNext r => cases hn

/-- A sentinel is no member of a list. -/
theorem head_not_mem {q : Queues} {asl sf : List Nat} {key : Nat → Key} {n : Node} {xs : List Node} (h : QHead)
    (hn : q.rings asl sf key n = some xs) : h.node ∉ xs := by
  intro hx
  cases n with
  | sProcQ d =>
    simp only [Queues.rings] at hn
    split at hn
    · cases hn
      cases h <;> simp [QHead.node] at hx
    · split at hn
      · cases hn
        cases hx
      · cases hn
  | head i =>
    obtain ⟨ys, -, rfl⟩ := Option.map_eq_some_iff.mp hn
    cases h <;> simp [QHead.node] at hx
  | pChild p =>
    obtain ⟨ys, -, rfl⟩ := Option.map_eq_some_iff.mp hn
    cases h <;> simp [QHead.node] at hx
  | _ => cases hn <;> cases h <;> simp [QHead.node] at hx

theorem rings_node {q : Queues} {asl sf : List Nat} {key : Nat → Key} (h : QHead) :
    q.rings asl sf key h.node = (q.queue h).map (List.map .pNext) := by
  cases h <;> rfl

theorem ring_queue {q : Queues} {asl sf : List Nat} {key : Nat → Key} {h : QHead} {xs : List Pid}
    (hx : q.queue h = some xs) : q.rings asl sf key h.node = some (xs.map .pNext) := by
  rw [rings_node, hx]
  rfl

/-- A sentinel that is not initialised can get an empty queue. -/
theorem fresh_head {q : Queues} {asl sf : List Nat} {key : Nat → Key} {h : QHead} (hh : q.queue h = none) :
    Fresh (q.rings asl sf key) h.node := by
  intro n xs hn hm
  rcases List.mem_cons.mp hm with rfl | hm
  · rw [rings_node, hh] at hn
    cases hn
  · exact head_not_mem h hn hm

namespace RepAt
variable {pool : Pool T} {q : Queues} {asl sf : List Nat}

theorem ring_asl {d : Nat} (hd : d ∈ asl) :
    q.rings asl sf pool.sKey (.sProcQ d) = some ((q.waiting (pool.sKey d)).map .pNext) := by
  simp [Queues.rings, hd]

section
variable (h : RepAt pool q asl sf)
include h

/-! ## Descriptors -/

theorem semds_nodup : (asl ++ sf).Nodup := h.semds.nodup_iff.mpr List.nodup_range

theorem asl_lt {d : Nat} (hd : d ∈ asl) : d < maxProc :=
  List.mem_range.mp (h.semds.mem_iff.mp (List.mem_append_left _ hd))

theorem asl_short : asl.length < walkFuel := by
  have h1 : asl.length ≤ maxProc :=
    length_le_of_nodup_lt (List.nodup_append.mp h.semds_nodup).1 (fun d hd => h.asl_lt hd)
  exact lt_of_le_of_lt h1 (lt_walkFuel (by decide))

theorem sf_short : sf.length < walkFuel := by
  have h1 : sf.length ≤ maxProc :=
    length_le_of_nodup_lt (List.nodup_append.mp h.semds_nodup).2.1
      fun d hd => List.mem_range.mp (h.semds.subset (List.mem_append_right _ hd))
  exact lt_of_le_of_lt h1 (lt_walkFuel (by decide))

/-- The descriptor of an active key. -/
theorem exists_semd {k : Key} (hk : q.waiting k ≠ []) : ∃ d ∈ asl, pool.sKey d = k :=
  List.mem_map.mp ((h.active k).mp hk)

/-! ## PCBs -/

theorem free_nodup : q.free.Nodup :=
  List.Nodup.of_map _ (List.nodup_cons.mp (h.rings.nodup (h := .pcbFree) rfl)).2

theorem ready_nodup : q.ready.Nodup :=
  List.Nodup.of_map _ (List.nodup_cons.mp (h.rings.nodup (h := .readyQueue) rfl)).2

theorem waiting_nodup (k : Key) : (q.waiting k).Nodup := by
  by_cases hk : q.waiting k = []
  · rw [hk]; exact List.nodup_nil
  · obtain ⟨d, hd, rfl⟩ := h.exists_semd hk
    exact List.Nodup.of_map _ (List.nodup_cons.mp (h.rings.nodup (ring_asl hd))).2

theorem kids_nodup {p : Pid} {cs : List Pid} (hk : q.kids p = some cs) : cs.Nodup :=
  List.Nodup.of_map _ (List.nodup_cons.mp (h.rings.nodup (h := .pChild p) (by simp only [Queues.rings, hk]; rfl))).2

theorem waiting_unique {k k' : Key} {p : Pid} (hp : p ∈ q.waiting k) (hp' : p ∈ q.waiting k') : k = k' := by
  rw [← h.semkey k p hp, h.semkey k' p hp']

theorem ready_not_free {p : Pid} (hp : p ∈ q.ready) : p ∉ q.free := by
  intro hf
  have := h.rings.head_unique (h := .readyQueue) (k := .pcbFree) rfl rfl
    (List.mem_map_of_mem hp) (List.mem_map_of_mem hf)
  cases this

theorem waiting_not_free {p : Pid} {k : Key} (hp : p ∈ q.waiting k) : p ∉ q.free := by
  intro hf
  obtain ⟨d, hd, rfl⟩ := h.exists_semd (List.ne_nil_of_mem hp)
  have := h.rings.head_unique (k := .pcbFree) (ring_asl hd) rfl
    (List.mem_map_of_mem hp) (List.mem_map_of_mem hf)
  cases this

theorem waiting_not_ready {p : Pid} {k : Key} (hp : p ∈ q.waiting k) : p ∉ q.ready := by
  intro hf
  obtain ⟨d, hd, rfl⟩ := h.exists_semd (List.ne_nil_of_mem hp)
  have := h.rings.head_unique (k := .readyQueue) (ring_asl hd) rfl
    (List.mem_map_of_mem hp) (List.mem_map_of_mem hf)
  cases this

theorem free_short : q.free.length < walkFuel :=
  lt_of_le_of_lt (length_le_of_nodup_lt h.free_nodup fun p hp => h.small p (Or.inl hp)) pcbObjects_lt

theorem ready_short : q.ready.length < walkFuel :=
  lt_of_le_of_lt (length_le_of_nodup_lt h.ready_nodup fun p hp => h.small p (Or.inr (Or.inl hp))) pcbObjects_lt

theorem waiting_short (k : Key) : (q.waiting k).length < walkFuel :=
  lt_of_le_of_lt (length_le_of_nodup_lt (h.waiting_nodup k)
    fun p hp => h.small p (Or.inr (Or.inr (Or.inl ⟨k, hp⟩)))) pcbObjects_lt

theorem kids_short {p : Pid} {cs : List Pid} (hk : q.kids p = some cs) : cs.length < walkFuel :=
  lt_of_le_of_lt (length_le_of_nodup_lt (h.kids_nodup hk) fun c hc => h.smallKids p c ⟨cs, hk, hc⟩) pcbObjects_lt

end

/-- A PCB in no queue can be linked into one. -/
theorem fresh_pNext {p : Pid} (hp : ¬ q.Queued p) : Fresh (q.rings asl sf pool.sKey) (.pNext p) :=
  fun _ _ hn hm => hp (mem_rings hn hm)

/-- A PCB without a parent can be linked into a child list. -/
theorem fresh_pSib (h : RepAt pool q asl sf) {p : Pid} (hp : (pool.pcbs p).pParent = none) :
    Fresh (q.rings asl sf pool.sKey) (.pSib p) := by
  intro n xs hn hm
  obtain ⟨r, hr⟩ := mem_rings hn hm
  have := (h.parent r p).mp hr
  rw [hp] at this
  cases this

/-- A PCB whose `p_child` is not initialised can get an empty child list. -/
theorem fresh_pChild {key : Nat → Key} {p : Pid} (hp : q.kids p = none) : Fresh (q.rings asl sf key) (.pChild p) := by
  intro n xs hn hm
  obtain ⟨cs, hcs⟩ := mem_rings hn hm
  rw [hp] at hcs
  cases hcs

end RepAt
end Bikaya.Refine
