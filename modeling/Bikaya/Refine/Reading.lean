import Bikaya.Refine.KillTree
import Bikaya.Spec.Reading

/-!
# The lists that are read are the lists that are held

A walk over the links of a pool that holds the lists of `q` finds the lists of `q`. `active_filter` and
`recycled_iff` say which descriptors leave the ASL when waiters are removed.
-/

namespace Bikaya.Refine
open Bikaya.Lib Bikaya.Model Bikaya.Spec

variable {T : Target}

theorem membersFrom_seg {l : Links Node} {h : Node} : ∀ {xs : List Node} {a : Node} {fuel : Nat},
    l.Seg a xs h → h ∉ xs → xs.length < fuel → membersFrom l h fuel (l.next a) = some xs := by
  intro xs
  induction xs with
  | nil =>
    intro a fuel hs _ hf
    obtain ⟨n, rfl⟩ := Nat.exists_eq_add_one_of_ne_zero (Nat.ne_of_gt (Nat.lt_of_le_of_lt (Nat.zero_le _) hf))
    rw [hs.1]
    exact if_pos rfl
  | cons x xs ih =>
    intro a fuel hs hh hf
    obtain ⟨n, rfl⟩ := Nat.exists_eq_add_one_of_ne_zero (Nat.ne_of_gt (Nat.lt_of_le_of_lt (Nat.zero_le _) hf))
    rw [List.mem_cons, not_or] at hh
    rw [hs.1.1]
    have hrest := @ih x n hs.2 hh.2 (by simp only [List.length_cons] at hf; omega)
    unfold membersFrom
    rw [if_neg fun he => hh.1 he.symm, hrest]
    rfl

/-- A ring of the links is read as it is. -/
theorem members_ring {l : Links Node} {ρ : Node → Option (List Node)} (R : Rings l ρ) {h : Node} {xs : List Node}
    (hh : ρ h = some xs) (hlen : xs.length < walkFuel) : members l h = some xs :=
  membersFrom_seg (R.seg hh) (List.nodup_cons.mp (R.nodup hh)).1 hlen

/-- A walk that comes back has met the members. -/
theorem walkFrom_members {l : Links Node} {h : Node} : ∀ {n : Nat} {a : Option Node} {xs : List Node},
    membersFrom l h n a = some xs → walkFrom l h n a = xs := by
  intro n
  induction n with
  | zero =>
    intro a xs hm
    cases hm
  | succ n ih =>
    intro a xs hm
    cases a with
    | none => cases hm
    | some x =>
      unfold membersFrom at hm
      unfold walkFrom
      split at hm
      next hx =>
        rw [if_pos hx]
        exact Option.some.inj hm
      next hx =>
        rw [if_neg hx]
        obtain ⟨ys, hys, rfl⟩ := Option.map_eq_some_iff.mp hm
        rw [ih hys]

theorem filterMap_pcb (xs : List Pid) : (xs.map Node.pNext).filterMap Node.pcb? = xs := by
  rw [List.filterMap_map]
  exact List.filterMap_some

theorem filterMap_semd (ds : List Nat) : (ds.map Node.sNext).filterMap Node.semd? = ds := by
  rw [List.filterMap_map]
  exact List.filterMap_some

theorem filterMap_child (cs : List Pid) : (cs.map Node.pSib).filterMap Node.child? = cs := by
  rw [List.filterMap_map]
  exact List.filterMap_some

namespace RepAt
variable {pool : Pool T} {q : Queues} {asl sf : List Nat} (h : RepAt pool q asl sf)
include h

theorem members_free : members pool.links .pcbFree = some (q.free.map .pNext) :=
  members_ring h.rings rfl (by rw [List.length_map]; exact h.free_short)

theorem members_ready : members pool.links .readyQueue = some (q.ready.map .pNext) :=
  members_ring h.rings rfl (by rw [List.length_map]; exact h.ready_short)

theorem members_asl : members pool.links .asl = some (asl.map .sNext) :=
  members_ring h.rings rfl (by rw [List.length_map]; exact h.asl_short)

theorem members_semdFree : members pool.links .semdFree = some (sf.map .sNext) :=
  members_ring h.rings rfl (by rw [List.length_map]; exact h.sf_short)

theorem members_procQ {d : Nat} (hd : d ∈ asl) :
    members pool.links (.sProcQ d) = some ((q.waiting (pool.sKey d)).map .pNext) :=
  members_ring h.rings (ring_asl hd) (by rw [List.length_map]; exact h.waiting_short _)

/-- Nobody waits in the queue of a free descriptor. -/
theorem members_procQ_free {d : Nat} (hd : d ∈ sf) : members pool.links (.sProcQ d) = some [] := by
  have hda : d ∉ asl := fun ha => (List.nodup_append.mp h.semds_nodup).2.2 d ha d hd rfl
  exact members_ring h.rings (by simp [Queues.rings, hda, hd]) (lt_walkFuel (by decide))

theorem members_kids {p : Pid} {cs : List Pid} (hk : q.kids p = some cs) :
    members pool.links (.pChild p) = some (cs.map .pSib) :=
  members_ring h.rings (by simp [Queues.rings, hk]) (by rw [List.length_map]; exact h.kids_short hk)

end RepAt

namespace RepAt
variable {m : Machine T} {q : Queues} {asl sf : List Nat} (h : RepAt m.pool q asl sf)
include h

theorem activeSemds_eq : activeSemds m = asl := by
  unfold activeSemds
  rw [h.members_asl]
  exact filterMap_semd asl

theorem freeSemds_eq : freeSemds m = sf := by
  unfold freeSemds
  rw [h.members_semdFree]
  exact filterMap_semd sf

end RepAt

namespace Rep
variable {m : Machine T} {q : Queues} (h : Rep m.pool q)
include h

theorem freeList_eq : freeList m = q.free := by
  obtain ⟨asl, sf, h⟩ := h
  unfold freeList pcbsIn
  rw [h.members_free]
  exact filterMap_pcb q.free

/-- A walk over the free list meets its members. -/
theorem onFreeWalk_iff (p : Pid) : OnFreeWalk m p ↔ p ∈ freeList m := by
  rw [h.freeList_eq]
  obtain ⟨asl, sf, h⟩ := h
  unfold OnFreeWalk
  rw [walkFrom_members h.members_free, List.mem_map]
  constructor
  · intro hm
    obtain ⟨r, hr, he⟩ := hm
    exact Node.pNext.inj he ▸ hr
  · exact fun hp => ⟨p, hp, rfl⟩

theorem readyList_eq : readyList m = q.ready := by
  obtain ⟨asl, sf, h⟩ := h
  unfold readyList pcbsIn
  rw [h.members_ready]
  exact filterMap_pcb q.ready

theorem waitingList_eq (key : Key) : waitingList m key = q.waiting key := by
  obtain ⟨asl, sf, h⟩ := h
  unfold waitingList
  rw [h.activeSemds_eq]
  cases hf : asl.find? fun d => decide (m.pool.sKey d = key) with
  | none =>
    by_contra hne
    obtain ⟨d, hd, hdk⟩ := h.exists_semd (k := key) fun he => hne he.symm
    exact absurd (decide_eq_true hdk) (List.find?_eq_none.mp hf d hd)
  | some d =>
    have hdk := List.find?_some hf
    rw [decide_eq_true_eq] at hdk
    subst hdk
    dsimp only
    unfold pcbsIn
    rw [h.members_procQ (List.mem_of_find?_eq_some hf)]
    exact filterMap_pcb _

theorem childList_eq {p : Pid} {cs : List Pid} (hk : q.kids p = some cs) : childList m p = cs := by
  obtain ⟨asl, sf, h⟩ := h
  unfold childList
  rw [h.members_kids hk]
  exact filterMap_child cs

theorem child_iff (p c : Pid) : q.Child p c ↔ ParentOf m p c := h.parent_iff p c

theorem child_eq : q.Child = ParentOf m := funext fun p => funext fun c => propext (h.child_iff p c)

end Rep

/-! ## Descriptors -/

section
variable {m m' : Machine T} {q q' : Queues}

/-- An active descriptor is one whose key has waiters. -/
theorem active_filter (h : Rep m.pool q) (h' : Rep m'.pool q') (hkey : m'.pool.sKey = m.pool.sKey)
    (hsub : (activeSemds m').Sublist (activeSemds m)) :
    activeSemds m' = (activeSemds m).filter fun d => decide (waitingList m' (m.pool.sKey d) ≠ []) := by
  rw [funext h'.waitingList_eq]
  obtain ⟨asl, sf, h⟩ := h
  obtain ⟨asl', sf', h'⟩ := h'
  rw [h.activeSemds_eq, h'.activeSemds_eq] at hsub
  rw [h.activeSemds_eq, h'.activeSemds_eq]
  have hmem : ∀ d ∈ asl, d ∈ asl' ↔ q'.waiting (m.pool.sKey d) ≠ [] := by
    intro d hd
    rw [h'.active, hkey]
    refine ⟨List.mem_map_of_mem, fun hm => ?_⟩
    obtain ⟨e, he, hek⟩ := List.mem_map.mp hm
    exact List.inj_on_of_nodup_map h.keys (hsub.subset he) hd hek ▸ he
  have hnd := (List.nodup_append.mp h.semds_nodup).1
  have hle := hsub.filter fun d => decide (q'.waiting (m.pool.sKey d) ≠ [])
  rw [List.filter_eq_self.mpr fun d hd => decide_eq_true ((hmem d (hsub.subset hd)).mp hd)] at hle
  apply hle.eq_of_length
  apply List.Perm.length_eq
  apply (List.perm_ext_iff_of_nodup (hnd.sublist hsub) (hnd.filter _)).mpr
  intro d
  rw [List.mem_filter, decide_eq_true_eq]
  exact ⟨fun hd => ⟨hsub.subset hd, (hmem d (hsub.subset hd)).mp hd⟩, fun hd => (hmem d hd.1).mpr hd.2⟩

/-- A descriptor leaves the ASL for the free list when its key has no more waiters. -/
theorem recycled_iff (h : Rep m.pool q) (h' : Rep m'.pool q')
    (hactive : activeSemds m' = (activeSemds m).filter fun d => decide (waitingList m' (m.pool.sKey d) ≠ []))
    (hsuf : freeSemds m <:+ freeSemds m') :
    ∃ ds, freeSemds m' = ds ++ freeSemds m ∧
      ∀ d, d ∈ ds ↔ d ∈ activeSemds m ∧ waitingList m' (m.pool.sKey d) = [] := by
  obtain ⟨ds, hds⟩ := hsuf
  refine ⟨ds, hds.symm, fun d => ?_⟩
  obtain ⟨asl, sf, h⟩ := h
  obtain ⟨asl', sf', h'⟩ := h'
  rw [h.activeSemds_eq, h'.activeSemds_eq] at hactive
  rw [h.freeSemds_eq, h'.freeSemds_eq] at hds
  rw [h.activeSemds_eq]
  have hnd := h.semds_nodup
  have hnd' := h'.semds_nodup
  have hall : d ∈ asl ∨ d ∈ sf ↔ d ∈ asl' ∨ d ∈ sf' := by
    rw [← List.mem_append, ← List.mem_append, h.semds.mem_iff, h'.semds.mem_iff]
  have hin : d ∈ asl' ↔ d ∈ asl ∧ waitingList m' (m.pool.sKey d) ≠ [] := by
    rw [hactive, List.mem_filter, decide_eq_true_eq]
  have hsf' : d ∈ sf' ↔ d ∈ ds ∨ d ∈ sf := by
    rw [← hds, List.mem_append]
  have hdisj : d ∈ asl → d ∉ sf := fun ha hs => (List.nodup_append.mp hnd).2.2 d ha d hs rfl
  have hdisj' : d ∈ asl' → d ∉ sf' := fun ha hs => (List.nodup_append.mp hnd').2.2 d ha d hs rfl
  have hdisj'' : d ∈ ds → d ∉ sf := by
    intro hd hs
    have hnds := (List.nodup_append.mp hnd').2.1
    rw [← hds] at hnds
    exact (List.nodup_append.mp hnds).2.2 d hd d hs rfl
  tauto

end

end Bikaya.Refine
