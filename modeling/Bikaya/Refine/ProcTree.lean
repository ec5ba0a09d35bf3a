import Bikaya.Refine.AslMap
import Bikaya.Refine.PcbSets
import Bikaya.Refine.Reading
import Bikaya.Refine.UnblockTree
import Bikaya.Spec.ProcTree

/-!
# The tree operations of `pcb.c` refine an ordered forest

`TreeRel` relates a pool to a `PcbTree` through all the lists that the links hold (`Rep`). Every operation of `pcb.c`
and `asl.c` keeps it: the tree operations (`TreeRel.treeStep`), those on the pool and the queues
(`TreeRel.pcbStep`) and those on the semaphores (`TreeRel.aslStep`). `TreeRun` is any sequence of them after the
initialisation, and `treeRun_refines` what holds in each.
-/

namespace Bikaya.Refine
open Bikaya.Lib Bikaya.Model Bikaya.Spec

variable {T : Target}

/-- The operation of the code. -/
def treeExec : TreeOp → PM T TreeResult
  | .insertChild parent p => do
    pcbInsertChild parent p
    pure (.pcb .void)
  | .removeChild p => do
    let r ← pcbRemoveChild p
    pure (.pcb (.pcb r))
  | .findAndRemoveChild p => do
    let r ← pcbFindAndRemoveChild p
    pure (.pcb (.pcb r))
  | .hasNoChildren p => do
    let b ← pcbHasNoChildren p
    pure (.pcb (.bool b))
  | .pcb op => do
    let r ← pcbExec op
    pure (.pcb r)
  | .asl op => do
    let r ← aslExec op
    pure (.asl r)
  | .findAndRemoveBlockedChild p => do
    aslFindAndRemoveBlockedChild walkFuel p
    pure (.pcb .void)

/-- The child lists are disjoint circular lists of exactly the PCBs with that parent, and there is no cycle. -/
structure TreeLinks (pool : Pool T) (t : PcbTree) : Prop where
  rings : ∃ ρ, Rings pool.links ρ ∧ ∀ p ∈ t.sets.allocated, ρ (.pChild p) = some ((t.kids p).map .pSib)
  parent : ∀ p c, c ∈ t.kids p ↔ (pool.pcbs c).pParent = some p
  forest : IsForest t.Child

/-- Only links through `p_child` and `p_sib`, and `p_parent`, may differ. -/
structure TreeFrame (pool pool' : Pool T) : Prop where
  links : TreeOnly pool.links pool'.links
  pcbs : ∀ p, { pool'.pcbs p with pParent := none } = { pool.pcbs p with pParent := none }
  sKey : pool'.sKey = pool.sKey

theorem TreeFrame.refl (pool : Pool T) : TreeFrame pool pool := ⟨fun _ _ => ⟨rfl, rfl⟩, fun _ => rfl, rfl⟩

theorem TreeFrame.setParent {pool : Pool T} {l : Links Node} (hl : TreeOnly pool.links l) (p : Pid) (r : Option Pid) :
    TreeFrame pool { pool with
      links := l, pcbs := Function.update pool.pcbs p { pool.pcbs p with pParent := r } } := by
  refine ⟨hl, fun x => ?_, rfl⟩
  by_cases hx : x = p
  · subst hx
    simp only [Function.update_self]
  · simp only [Function.update_of_ne hx]

/-- The links hold the lists of `q`, which hold the tree. -/
structure TreeRel (pool : Pool T) (t : PcbTree) (q : Queues) : Prop where
  rep : Rep pool q
  tree : Tree q
  sorted : q.lists.Sorted t.sets
  prio : ∀ p ∈ t.sets.allocated, (pool.pcbs p).priority = t.sets.prio p
  kids : ∀ p ∈ t.sets.allocated, q.kids p = some (t.kids p)
  noKids : ∀ p, p ∉ t.sets.allocated → t.kids p = []
  waits : ∀ k p, p ∈ q.waiting k → p ∈ t.sets.allocated
  descending : ∀ k, Descending t.sets.prio (q.waiting k)

namespace TreeRel
variable {pool : Pool T} {t : PcbTree} {q : Queues} (h : TreeRel pool t q)
include h

theorem allocated_iff (p : Pid) : p ∈ t.sets.allocated ↔ p < maxProc ∧ p ∉ q.free := by
  have hf : p ∈ q.free ↔ p < maxProc ∧ p ∉ t.sets.allocated := h.sorted.mem_free p
  rw [hf]
  constructor
  · exact fun hp => ⟨h.sorted.allocated_lt p hp, fun hn => hn.2 hp⟩
  · rintro ⟨hlt, hn⟩
    by_contra hp
    exact hn ⟨hlt, hp⟩

theorem kids_none {p : Pid} (hp : p ∉ t.sets.allocated) : q.kids p = none := by
  cases hk : q.kids p with
  | none => rfl
  | some cs => exact absurd ((h.allocated_iff p).mpr ((h.tree.alive p).mp ⟨cs, hk⟩)) hp

theorem child_iff (p c : Pid) : q.Child p c ↔ c ∈ t.kids p := by
  by_cases hp : p ∈ t.sets.allocated
  · simp [Queues.Child, h.kids p hp]
  · simp [Queues.Child, h.kids_none hp, h.noKids p hp]

theorem child_eq : q.Child = t.Child := funext fun p => funext fun c => propext (h.child_iff p c)

theorem parent_iff (p c : Pid) : c ∈ t.kids p ↔ (pool.pcbs c).pParent = some p := by
  rw [← h.child_iff]
  exact h.rep.parent_iff p c

theorem parent_none {p : Pid} : (pool.pcbs p).pParent = none ↔ ∀ r, p ∉ t.kids r := by
  rw [Option.eq_none_iff_forall_ne_some]
  exact forall_congr' fun r => not_congr (h.parent_iff r p).symm

theorem links : TreeLinks pool t where
  rings := by
    obtain ⟨asl, sf, hr⟩ := h.rep
    exact ⟨_, hr.rings, fun p hp => by simp [Queues.rings, h.kids p hp]⟩
  parent := h.parent_iff
  forest := h.child_eq ▸ h.tree.forest

/-- Being in a semaphore queue, as it is read and as it is held. -/
theorem inSemQueue_iff (p : Pid) : InSemQueue pool.links p ↔ ∃ k, p ∈ q.waiting k := by
  obtain ⟨asl, sf, hr⟩ := h.rep
  have hmem : ∀ (k : Key), Node.pNext p ∈ (q.waiting k).map Node.pNext ↔ p ∈ q.waiting k := fun k => by simp
  constructor
  · rintro ⟨d, hd, xs, hxs, hp⟩
    rcases List.mem_append.mp (hr.semds.mem_iff.mpr (List.mem_range.mpr hd)) with ha | hs
    · rw [hr.members_procQ ha] at hxs
      cases hxs
      exact ⟨_, (hmem _).mp hp⟩
    · rw [hr.members_procQ_free hs] at hxs
      cases hxs
      cases hp
  · rintro ⟨k, hp⟩
    obtain ⟨d, hd, rfl⟩ := hr.exists_semd (List.ne_nil_of_mem hp)
    exact ⟨d, hr.asl_lt hd, _, hr.members_procQ hd, (hmem _).mpr hp⟩

/-! ## The tree operations -/

theorem prio_setParent (p : Pid) (r : Option Pid) (x : Pid) (hx : x ∈ t.sets.allocated) :
    (Function.update pool.pcbs p { pool.pcbs p with pParent := r } x).priority = t.sets.prio x := by
  rw [← h.prio x hx]
  by_cases he : x = p
  · subst he
    rw [Function.update_self]
  · rw [Function.update_of_ne he]

theorem insertChild {parent p : Pid} (hop : t.Allowed pool.links (.insertChild parent p)) :
    ∃ pool', treeExec (.insertChild parent p) pool = .ret (.pcb .void) pool' ∧
      TreeRel pool' (t.next (.insertChild parent p) (.pcb .void)) (q.adopt parent p) ∧ TreeFrame pool pool' := by
  obtain ⟨hpar, hp, hroot, hnot⟩ := hop
  obtain ⟨hlt, hfree⟩ := (h.allocated_iff p).mp hp
  obtain ⟨l, hl, hrep, honly⟩ := h.rep.insertChild (h.kids parent hpar) (h.parent_none.mpr hroot)
    (lt_trans hlt maxProc_lt) hfree
  have hchild : ∀ r, ¬ q.Child r p := fun r hr => hroot r ((h.child_iff r p).mp hr)
  rw [← h.child_eq] at hnot
  refine ⟨_, map_ret (fun _ => TreeResult.pcb .void) hl, ?_, .setParent honly p (some parent)⟩
  exact
    { rep := hrep
      tree := h.tree.adopt ((h.allocated_iff parent).mp hpar) ⟨hlt, hfree⟩ hchild hnot
      sorted := h.sorted
      prio := h.prio_setParent p (some parent)
      kids := fun r hr => by
        by_cases he : r = parent
        · subst he
          simp [Queues.adopt, Queues.setKids, PcbTree.next, h.kids r hpar]
        · simpa [Queues.adopt, Queues.setKids, PcbTree.next, he] using h.kids r hr
      noKids := fun r hr => by
        have he : r ≠ parent := fun e => hr (e ▸ hpar)
        simpa [PcbTree.next, he] using h.noKids r hr
      waits := h.waits
      descending := h.descending }

/-- `p` is taken from its parent. -/
theorem detach {parent p : Pid} (hp : p ∈ t.kids parent) :
    ∃ pool', pcbFindAndRemoveChild p pool = .ret (some p) pool' ∧
      TreeRel pool' { t with kids := fun r => (t.kids r).erase p } (q.orphan parent p) ∧ TreeFrame pool pool' := by
  obtain ⟨asl, sf, hr⟩ := h.rep
  obtain ⟨l, hl, hrep, -, honly⟩ := hr.findAndRemoveChild_some ((h.parent_iff parent p).mp hp)
  have hpar : parent ∈ t.sets.allocated := by
    by_contra hn
    rw [h.noKids parent hn] at hp
    cases hp
  have hother : ∀ r, r ≠ parent → p ∉ t.kids r := by
    intro r hne hm
    rw [h.parent_iff] at hm hp
    exact hne (Option.some.inj (hm.symm.trans hp))
  have hsub : ∀ a c, (q.orphan parent p).Child a c → q.Child a c := by
    rintro a c ⟨cs, hcs, hc⟩
    by_cases he : a = parent
    · subst he
      simp only [Queues.orphan, Queues.setKids, Function.update_self, h.kids a hpar, Option.map_some,
        Option.some.injEq] at hcs
      exact ⟨_, h.kids a hpar, List.mem_of_mem_erase (hcs ▸ hc)⟩
    · simp only [Queues.orphan, Queues.setKids, Function.update_of_ne he] at hcs
      exact ⟨cs, hcs, hc⟩
  refine ⟨_, hl, ?_, .setParent honly p none⟩
  exact
    { rep := ⟨asl, sf, hrep⟩
      tree :=
        { forest := h.tree.forest.mono hsub
          alive := fun r => by
            rw [show (q.orphan parent p).free = q.free from rfl, ← h.tree.alive r]
            by_cases he : r = parent
            · subst he
              simp [Queues.orphan, Queues.setKids]
            · simp [Queues.orphan, Queues.setKids, he]
          child_alive := fun a c hc => h.tree.child_alive a c (hsub a c hc) }
      sorted := h.sorted
      prio := h.prio_setParent p none
      kids := fun r hr => by
        by_cases he : r = parent
        · subst he
          simp [Queues.orphan, Queues.setKids, h.kids r hpar]
        · simpa [Queues.orphan, Queues.setKids, he, List.erase_of_not_mem (hother r he)] using h.kids r hr
      noKids := fun r hr => by simp [h.noKids r hr]
      waits := h.waits
      descending := h.descending }

theorem findAndRemoveChild (p : Pid) :
    ∃ r pool' q', treeExec (.findAndRemoveChild p) pool = .ret (.pcb (.pcb r)) pool' ∧
      t.Right (.findAndRemoveChild p) (.pcb (.pcb r)) ∧
      TreeRel pool' (t.next (.findAndRemoveChild p) (.pcb (.pcb r))) q' ∧ TreeFrame pool pool' ∧
      (r = none → pool' = pool) := by
  cases hpar : (pool.pcbs p).pParent with
  | none =>
    have hroot := h.parent_none.mp hpar
    have ht : t.next (.findAndRemoveChild p) (.pcb (.pcb none)) = t := by
      simp only [PcbTree.next]
      congr 1
      exact funext fun r => List.erase_of_not_mem (hroot r)
    refine ⟨none, pool, q, map_ret (fun r => TreeResult.pcb (.pcb r)) (Rep.findAndRemoveChild_none hpar),
      Or.inr ⟨rfl, hroot⟩, ?_, .refl pool, fun _ => rfl⟩
    rw [ht]
    exact h
  | some parent =>
    have hp := (h.parent_iff parent p).mpr hpar
    obtain ⟨pool', hrun, hrel, hframe⟩ := h.detach hp
    exact ⟨some p, pool', _, map_ret (fun r => TreeResult.pcb (.pcb r)) hrun, Or.inl ⟨rfl, parent, hp⟩, hrel, hframe,
      fun hc => by cases hc⟩

theorem removeChild {p : Pid} (hop : p ∈ t.sets.allocated) :
    ∃ r pool' q', treeExec (.removeChild p) pool = .ret (.pcb (.pcb r)) pool' ∧
      t.Right (.removeChild p) (.pcb (.pcb r)) ∧ TreeRel pool' (t.next (.removeChild p) (.pcb (.pcb r))) q' ∧
      TreeFrame pool pool' ∧ (r = none → pool' = pool) := by
  have hk := h.kids p hop
  cases hc : t.kids p with
  | nil =>
    rw [hc] at hk
    have ht : t.next (.removeChild p) (.pcb (.pcb none)) = t := by
      simp only [PcbTree.next, hc, List.tail_nil]
      congr 1
      rw [← hc, Function.update_eq_self]
    refine ⟨none, pool, q, map_ret (fun r => TreeResult.pcb (.pcb r)) (h.rep.removeChild_nil hk), ?_, ?_, .refl pool,
      fun _ => rfl⟩
    · simp only [PcbTree.Right, hc, List.head?_nil]
    · rw [ht]
      exact h
  | cons c cs =>
    have hcp : c ∈ t.kids p := hc ▸ List.mem_cons_self
    rw [hc] at hk
    obtain ⟨pool', hrun, hrel, hframe⟩ := h.detach hcp
    rw [← h.rep.removeChild_cons hk] at hrun
    have ht : t.next (.removeChild p) (.pcb (.pcb (some c))) = { t with kids := fun r => (t.kids r).erase c } := by
      simp only [PcbTree.next]
      congr 1
      funext r
      by_cases he : r = p
      · subst he
        rw [Function.update_self, hc, List.erase_cons_head, List.tail_cons]
      · have hn : c ∉ t.kids r := fun hm => he (by
          rw [h.parent_iff] at hm hcp
          exact Option.some.inj (hm.symm.trans hcp))
        rw [Function.update_of_ne he, List.erase_of_not_mem hn]
    refine ⟨some c, pool', q.orphan p c, map_ret (fun r => TreeResult.pcb (.pcb r)) hrun, ?_, ?_, hframe,
      fun hn => by cases hn⟩
    · simp only [PcbTree.Right, hc, List.head?_cons]
    · rw [ht]
      exact hrel

theorem hasNoChildren {p : Pid} (hop : p ∈ t.sets.allocated) :
    ∃ b, treeExec (.hasNoChildren p) pool = .ret (.pcb (.bool b)) pool ∧
      t.Right (.hasNoChildren p) (.pcb (.bool b)) := by
  refine ⟨_, map_ret (fun b => TreeResult.pcb (.bool b)) (h.rep.hasNoChildren (h.kids p hop)), ?_⟩
  simp only [PcbTree.Right, List.isEmpty_iff]

/-! ## The pool and the queues -/

theorem pcbRel : PcbRel pool t.sets q.lists where
  rings := by
    obtain ⟨asl, sf, hr⟩ := h.rep
    refine hr.rings.mono fun n xs hn => ?_
    cases n <;> first | exact hn | cases hn
  sorted := h.sorted
  prio := h.prio

/-- An operation that leaves the waiting lists alone and does to the lists of `pcb.c` what it should. -/
theorem ofLists {op : PcbOp} {r : PcbResult} {pool' : Pool T} {q' : Queues} (hop : t.sets.Allowed op)
    (hrun : pcbExec op pool = .ret r pool') (hrep : Rep pool' q') (htree : Tree q')
    (hlists : q'.lists = (q.lists.step t.sets.prio op).2) (hwaiting : q'.waiting = q.waiting)
    (hkids : ∀ p ∈ (t.sets.next op r).allocated, q'.kids p = some (t.kids p))
    (hno : ∀ p, p ∉ (t.sets.next op r).allocated → t.kids p = [])
    (hkeep : ∀ k p, p ∈ q.waiting k → p ∈ (t.sets.next op r).allocated ∧ (t.sets.next op r).prio p = t.sets.prio p) :
    ∃ r pool' q', treeExec (.pcb op) pool = .ret (.pcb r) pool' ∧ t.sets.Right op r ∧
      TreeRel pool' (t.next (.pcb op) (.pcb r)) q' ∧ (op.Reads ∨ r = .pcb none → pool' = pool) := by
  obtain ⟨pool₁, hrun₁, R₁, hsame⟩ := h.pcbRel.step hop
  have hS := h.sorted.step hop
  cases hrun.symm.trans hrun₁
  refine ⟨_, pool', q', map_ret TreeResult.pcb hrun₁, hS.1, ?_, hsame⟩
  exact
    { rep := hrep
      tree := htree
      sorted := by rw [hlists]; exact hS.2
      prio := R₁.prio
      kids := hkids
      noKids := hno
      waits := fun k p hp => (hkeep k p (hwaiting ▸ hp)).1
      descending := fun k => by
        rw [hwaiting]
        refine (h.descending k).imp_of_mem fun {x y} hx hy hxy => ?_
        simp only [PcbTree.next, (hkeep k x hx).2, (hkeep k y hy).2]
        exact hxy }

/-- An operation that gives one queue another content. -/
theorem ofQueue {asl sf : List Nat} {op : PcbOp} {r : PcbResult} {l : Links Node} {hd : QHead} {xs : List Pid}
    (hop : t.sets.Allowed op) (hrun : pcbExec op pool = .ret r { pool with links := l }) (hr : RepAt pool q asl sf)
    (R : Rings l (Function.update (q.rings asl sf pool.sKey) hd.node (some (xs.map .pNext))))
    (hlists : (q.lists.step t.sets.prio op).2 = q.lists.setQueue hd (some xs))
    (hal : (t.sets.next op r).allocated = t.sets.allocated) (hprio : (t.sets.next op r).prio = t.sets.prio)
    (hxs : ∀ p ∈ xs, p ∈ t.sets.allocated) :
    ∃ r pool' q', treeExec (.pcb op) pool = .ret (.pcb r) pool' ∧ t.sets.Right op r ∧
      TreeRel pool' (t.next (.pcb op) (.pcb r)) q' ∧ (op.Reads ∨ r = .pcb none → pool' = pool) := by
  have hsmall : ∀ p ∈ xs, p < pcbObjects := fun p hp => lt_trans (h.sorted.allocated_lt p (hxs p hp)) maxProc_lt
  have htree : Tree (q.setQueue hd xs) :=
    h.tree.congr (Queues.setQueue_kids q hd xs) fun p => by rw [Queues.setQueue_free]
  refine h.ofLists hop hrun ⟨asl, sf, hr.setQueue R hsmall⟩ htree ?_ (Queues.setQueue_waiting q hd xs) ?_ ?_ ?_
  · rw [hlists]
    exact q.lists_setQueue hd xs
  · rw [hal, Queues.setQueue_kids]
    exact h.kids
  · rw [hal]
    exact h.noKids
  · rw [hal, hprio]
    exact fun k p hp => ⟨h.waits k p hp, rfl⟩

/-- A PCB that may join a queue is in none. -/
theorem not_queued {p : Pid} (hp : p ∈ t.sets.allocated) (hq : ¬ t.sets.InQueue p) (hw : ¬ InSemQueue pool.links p) :
    ¬ q.Queued p := by
  rw [Queues.queued_iff]
  rintro (hf | ⟨hd, xs, hx, hm⟩ | hk)
  · exact ((h.allocated_iff p).mp hp).2 hf
  · exact h.sorted.not_inQueue hq hx hm
  · exact hw ((h.inSemQueue_iff p).mpr hk)

theorem alloc : ∃ r pool' q', treeExec (.pcb .alloc) pool = .ret (.pcb r) pool' ∧ t.sets.Right .alloc r ∧
    TreeRel pool' (t.next (.pcb .alloc) (.pcb r)) q' ∧ (PcbOp.alloc.Reads ∨ r = .pcb none → pool' = pool) := by
  cases he : q.free with
  | nil =>
    have hlists : q.lists = (q.lists.step t.sets.prio .alloc).2 := by
      simp [PcbLists.step, Queues.lists, he]
    exact h.ofLists trivial (map_ret PcbResult.pcb (h.rep.alloc_nil he)) h.rep h.tree hlists rfl h.kids h.noKids
      fun k p hp => ⟨h.waits k p hp, rfl⟩
  | cons p xs =>
    obtain ⟨l, hl, hrep⟩ := h.rep.alloc_cons he
    have hfree : p ∈ q.free := he ▸ List.mem_cons_self
    obtain ⟨hlt, hn⟩ := (h.sorted.mem_free p).mp hfree
    have hq : q.alloc p = ({ q with free := xs } : Queues).setKids p (some []) := by simp [Queues.alloc, he]
    refine h.ofLists trivial (map_ret PcbResult.pcb hl) hrep (h.tree.alloc he h.sorted.free_nodup hlt) ?_ rfl ?_ ?_ ?_
    · rw [hq]
      simp only [PcbLists.step, Queues.lists, he, List.tail_cons]
      rfl
    · intro r hr
      rw [hq]
      by_cases hrp : r = p
      · subst hrp
        simp [Queues.setKids, h.noKids r hn]
      · simp only [Queues.setKids, Function.update_of_ne hrp]
        exact h.kids r ((Finset.mem_insert.mp hr).resolve_left hrp)
    · exact fun r hr => h.noKids r fun hm => hr (Finset.mem_insert_of_mem hm)
    · intro k r hr
      have hal := h.waits k r hr
      refine ⟨Finset.mem_insert_of_mem hal, Function.update_of_ne ?_ _ _⟩
      rintro rfl
      exact hn hal

theorem free {p : Pid} (hop : t.Allowed pool.links (.pcb (.free p))) :
    ∃ r pool' q', treeExec (.pcb (.free p)) pool = .ret (.pcb r) pool' ∧ t.sets.Right (.free p) r ∧
      TreeRel pool' (t.next (.pcb (.free p)) (.pcb r)) q' ∧
      ((PcbOp.free p).Reads ∨ r = .pcb none → pool' = pool) := by
  obtain ⟨⟨hp, hq⟩, hw, hleaf, hroot⟩ := hop
  obtain ⟨asl, sf, hr⟩ := h.rep
  have hnq := h.not_queued hp hq hw
  have hk := h.kids p hp
  rw [hleaf] at hk
  obtain ⟨l, hl, hrep, -⟩ := hr.free hnq (lt_trans (h.sorted.allocated_lt p hp) maxProc_lt) hk (h.parent_none.mpr hroot)
  have htree := h.tree.release hk fun r hc => hroot r ((h.child_iff r p).mp hc)
  refine h.ofLists ⟨hp, hq⟩ (map_ret (fun _ => PcbResult.void) hl) ⟨asl, sf, hrep⟩ htree rfl rfl ?_ ?_ ?_
  · intro r hr
    obtain ⟨hne, hr⟩ := Finset.mem_erase.mp hr
    simp only [Queues.release, Queues.setKids, Function.update_of_ne hne]
    exact h.kids r hr
  · intro r hr
    by_cases he : r = p
    · subst he
      exact hleaf
    · exact h.noKids r fun hm => hr (Finset.mem_erase.mpr ⟨he, hm⟩)
  · intro k r hr
    refine ⟨Finset.mem_erase.mpr ⟨?_, h.waits k r hr⟩, rfl⟩
    rintro rfl
    exact hw ((h.inSemQueue_iff r).mpr ⟨k, hr⟩)

/-- One operation on the pool and the queues. -/
theorem pcbStep {op : PcbOp} (hop : t.Allowed pool.links (.pcb op)) :
    ∃ r pool' q', treeExec (.pcb op) pool = .ret (.pcb r) pool' ∧ t.sets.Right op r ∧
      TreeRel pool' (t.next (.pcb op) (.pcb r)) q' ∧ (op.Reads ∨ r = .pcb none → pool' = pool) := by
  have hkeep : ∀ k p, p ∈ q.waiting k → p ∈ t.sets.allocated ∧ t.sets.prio p = t.sets.prio p :=
    fun k p hp => ⟨h.waits k p hp, rfl⟩
  obtain ⟨asl, sf, hr⟩ := h.rep
  cases op with
  | alloc => exact h.alloc
  | free p => exact h.free hop
  | setPriority p v =>
    obtain ⟨hop, hw⟩ := hop
    have hrep := h.rep.modifyPcb p (f := fun x => { x with priority := v }) (fun _ => rfl) fun _ => rfl
    refine h.ofLists hop (map_ret (fun _ => PcbResult.void) rfl) hrep h.tree rfl rfl h.kids h.noKids fun k r hr => ?_
    refine ⟨h.waits k r hr, Function.update_of_ne ?_ _ _⟩
    rintro rfl
    exact hw ((h.inSemQueue_iff r).mpr ⟨k, hr⟩)
  | makeEmptyQueue hd =>
    have hnone : ∀ p ∈ ([] : List Pid), p ∈ t.sets.allocated := fun p hp => absurd hp List.not_mem_nil
    have hring : Rings (pool.links.loop hd.node)
        (Function.update (q.rings asl sf pool.sKey) hd.node (some (([] : List Pid).map .pNext))) := by
      cases hx : q.queue hd with
      | none => exact hr.rings.loop (fresh_head hx)
      | some xs =>
        obtain ⟨ys, hy⟩ : ∃ ys, t.sets.arrivals hd = some ys := by
          have hs := h.sorted.initialised hd
          rw [show q.lists.queue hd = some xs from hx] at hs
          exact Option.isSome_iff_exists.mp hs.symm
        have hxs := (h.sorted.stable hd xs ys hx hy).perm
        rw [hop ys hy] at hxs
        rw [hxs.eq_nil] at hx
        rw [List.map_nil, ← List.map_nil, ← ring_queue hx, Function.update_eq_self]
        exact hr.rings.loop_empty (ring_queue hx)
    exact h.ofQueue hop (map_ret (fun _ => PcbResult.void) rfl) hr hring rfl rfl rfl hnone
  | isQueueEmpty hd =>
    obtain ⟨ys, xs, hy, hx, hs⟩ := h.sorted.exists_queue hop
    have hrun := pcbIsQueueEmpty_ring h.pcbRel.rings (queue_ring hx)
    exact h.ofLists hop (map_ret PcbResult.bool hrun) h.rep h.tree rfl rfl h.kids h.noKids hkeep
  | insertInQueue hd p =>
    obtain ⟨⟨hh, hal, hq⟩, hw⟩ := hop
    obtain ⟨ys, xs, hy, hx, hs⟩ := h.sorted.exists_queue hh
    obtain ⟨l, hl, R⟩ := pcbInsertInQueue_ring hr.rings (ring_queue hx) (RepAt.fresh_pNext (h.not_queued hal hq hw))
      (h.pcbRel.queue_short hx)
    rw [h.pcbRel.insertPrio_eq hx hal] at R
    refine h.ofQueue ⟨hh, hal, hq⟩ (map_ret (fun _ => PcbResult.void) hl) hr R ?_ rfl rfl fun r hm => ?_
    · simp only [PcbLists.step, hx, Option.map_some]
    · rcases (mem_insertPrio _ p).mp hm with rfl | hm
      · exact hal
      · exact h.sorted.allocated hd xs hx r hm
  | queueHead hd =>
    obtain ⟨ys, xs, hy, hx, hs⟩ := h.sorted.exists_queue hop
    have hrun := pcbQueueHead_ring h.pcbRel.rings (queue_ring hx)
    exact h.ofLists hop (map_ret PcbResult.pcb hrun) h.rep h.tree rfl rfl h.kids h.noKids hkeep
  | removeFromQueue hd =>
    obtain ⟨ys, xs, hy, hx, hs⟩ := h.sorted.exists_queue hop
    cases xs with
    | nil =>
      have hrun := pcbRemoveFromQueue_nil h.pcbRel.rings (queue_ring hx)
      refine h.ofLists hop (map_ret PcbResult.pcb hrun) h.rep h.tree ?_ rfl h.kids h.noKids hkeep
      simp only [PcbLists.step, hx, Option.map_some, List.tail_nil, PcbLists.setQueue]
      rw [← hx, Function.update_eq_self]
    | cons p xs =>
      obtain ⟨l, hl, R⟩ := pcbRemoveFromQueue_cons hr.rings (ring_queue hx)
      refine h.ofQueue hop (map_ret PcbResult.pcb hl) hr R ?_ rfl rfl fun r hm => ?_
      · simp only [PcbLists.step, hx, Option.map_some, List.tail_cons]
      · exact h.sorted.allocated hd _ hx r (List.mem_cons_of_mem _ hm)
  | findAndRemove hd p =>
    obtain ⟨ys, xs, hy, hx, hs⟩ := h.sorted.exists_queue hop
    by_cases hp : p ∈ xs
    · obtain ⟨l, hl, R, -⟩ := pcbFindAndRemove_mem hr.rings (ring_queue hx) (h.pcbRel.queue_short hx) hp
      refine h.ofQueue hop (map_ret PcbResult.pcb hl) hr R ?_ rfl rfl fun r hm => ?_
      · simp only [PcbLists.step, hx, Option.map_some]
      · exact h.sorted.allocated hd xs hx r (List.mem_of_mem_erase hm)
    · have hrun := pcbFindAndRemove_not_mem h.pcbRel.rings (queue_ring hx) (h.pcbRel.queue_short hx) hp
      refine h.ofLists hop (map_ret PcbResult.pcb hrun) h.rep h.tree ?_ rfl h.kids h.noKids hkeep
      simp only [PcbLists.step, hx, Option.map_some, List.erase_of_not_mem hp, PcbLists.setQueue]
      rw [← hx, Function.update_eq_self]
  | isFree p =>
    have hrun := h.rep.isFree p
    exact h.ofLists hop (map_ret PcbResult.bool hrun) h.rep h.tree rfl rfl h.kids h.noKids hkeep

/-! ## The semaphores -/

/-- Other waiting lists, of the same PCBs. -/
theorem setWaiting {pool' : Pool T} {waiting : Key → List Pid} (hrep : Rep pool' { q with waiting := waiting })
    (hprio : ∀ p, (pool'.pcbs p).priority = (pool.pcbs p).priority)
    (hwaits : ∀ k p, p ∈ waiting k → p ∈ t.sets.allocated)
    (hdesc : ∀ k, Descending (Pool.prio pool) (waiting k)) : TreeRel pool' t { q with waiting := waiting } where
  rep := hrep
  tree := h.tree.congr rfl fun _ => Iff.rfl
  sorted := h.sorted
  prio p hp := (hprio p).trans (h.prio p hp)
  kids := h.kids
  noKids := h.noKids
  waits := hwaits
  descending k := by
    refine (hdesc k).imp_of_mem fun {x y} hx hy hxy => ?_
    rw [← h.prio x (hwaits k x hx), ← h.prio y (hwaits k y hy)]
    exact hxy

theorem descending_prio (k : Key) : Descending (Pool.prio pool) (q.waiting k) := by
  refine (h.descending k).imp_of_mem fun {x y} hx hy hxy => ?_
  rw [← h.prio x (h.waits k x hx), ← h.prio y (h.waits k y hy)] at hxy
  exact hxy

/-- One operation on the semaphores. -/
theorem aslStep {op : AslOp} (hop : t.Allowed pool.links (.asl op)) :
    ∃ r pool' q', treeExec (.asl op) pool = .ret (.asl r) pool' ∧ TreeRel pool' t q' := by
  obtain ⟨asl, sf, hr⟩ := h.rep
  let m : BlockedMap := ⟨q.waiting, fun p => (pool.pcbs p).pSemkey⟩
  have hrel : AslRel pool q m pool asl sf := ⟨hr, fun _ => rfl, h.descending_prio, fun _ => rfl⟩
  have hallowed : m.Allowed q op := by
    cases op with
    | insertBlocked key p =>
      obtain ⟨hp, hq, hw⟩ := hop
      exact ⟨h.not_queued hp hq hw, lt_trans (h.sorted.allocated_lt p hp) maxProc_lt⟩
    | _ => trivial
  obtain ⟨pool', asl', sf', hrun, hrel'⟩ := hrel.step op hallowed
  refine ⟨_, pool', _, map_ret TreeResult.asl hrun, h.setWaiting ⟨asl', sf', hrel'.rep⟩ hrel'.prio_eq (fun k p hp => ?_)
    hrel'.sorted⟩
  rcases BlockedMap.mem_step hp with ⟨k', hp⟩ | ⟨key, rfl⟩
  · exact h.waits k' p hp
  · exact hop.1

theorem findAndRemoveBlockedChild {p : Pid} (hop : p ∈ t.sets.allocated) :
    ∃ pool' q', treeExec (.findAndRemoveBlockedChild p) pool = .ret (.pcb .void) pool' ∧ TreeRel pool' t q' := by
  obtain ⟨asl, sf, hr⟩ := h.rep
  have hdom : ∀ a c, q.Child a c → c ∈ Finset.range maxProc := fun a c hc =>
    Finset.mem_range.mpr (h.tree.child_alive a c hc).1
  have hheight : Height q.Child walkFuel p := (h.tree.forest.height hdom p).le (by
    rw [Finset.card_range]
    exact le_of_lt (lt_walkFuel (by decide)))
  obtain ⟨ps, l, asl', sf', hrun, hu, -, -⟩ := aslFindAndRemoveBlockedChild_spec walkFuel hr h.tree.forest
    (fun a b hb => (h.tree.alive b).mpr (h.tree.child_alive a b hb)) ⟨_, h.kids p hop⟩ hheight
  refine ⟨_, _, map_ret (fun _ => TreeResult.pcb .void) hrun, h.setWaiting ⟨asl', sf', hu.rep⟩ (fun _ => rfl)
    (fun k r hm => h.waits k r (List.mem_of_mem_filter hm)) fun k => (h.descending_prio k).sublist List.filter_sublist⟩

/-! ## Any operation -/

theorem step {op : TreeOp} (hop : t.Allowed pool.links op) :
    ∃ r pool' q', treeExec op pool = .ret r pool' ∧ t.Right op r ∧ TreeRel pool' (t.next op r) q' ∧
      (op.OnTree → TreeFrame pool pool') ∧ (op.Reads ∨ r = .pcb (.pcb none) → pool' = pool) := by
  have hnone : ∀ {P : Prop} {r : PcbResult}, (op.Reads → P) → (r = .pcb none → P) →
      op.Reads ∨ TreeResult.pcb r = .pcb (.pcb none) → P := by
    rintro P r h₁ h₂ (hr | hr)
    · exact h₁ hr
    · exact h₂ (TreeResult.pcb.inj hr)
  cases op with
  | insertChild parent p =>
    obtain ⟨pool', hrun, hrel, hframe⟩ := h.insertChild hop
    exact ⟨_, pool', _, hrun, trivial, hrel, fun _ => hframe, hnone False.elim fun hr => by cases hr⟩
  | removeChild p =>
    obtain ⟨r, pool', q', hrun, hright, hrel, hframe, hsame⟩ := h.removeChild hop
    exact ⟨_, pool', q', hrun, hright, hrel, fun _ => hframe, hnone False.elim fun hr => hsame (PcbResult.pcb.inj hr)⟩
  | findAndRemoveChild p =>
    obtain ⟨r, pool', q', hrun, hright, hrel, hframe, hsame⟩ := h.findAndRemoveChild p
    exact ⟨_, pool', q', hrun, hright, hrel, fun _ => hframe, hnone False.elim fun hr => hsame (PcbResult.pcb.inj hr)⟩
  | hasNoChildren p =>
    obtain ⟨b, hrun, hright⟩ := h.hasNoChildren hop
    exact ⟨_, pool, q, hrun, hright, h, fun _ => .refl pool, fun _ => rfl⟩
  | pcb op =>
    obtain ⟨r, pool', q', hrun, hright, hrel, hsame⟩ := h.pcbStep hop
    exact ⟨_, pool', q', hrun, hright, hrel, False.elim, hnone (fun hr => hsame (Or.inl hr)) fun hr => hsame (Or.inr hr)⟩
  | asl op =>
    obtain ⟨r, pool', q', hrun, hrel⟩ := h.aslStep hop
    exact ⟨_, pool', q', hrun, trivial, hrel, False.elim, fun hr => by rcases hr with hr | hr <;> cases hr⟩
  | findAndRemoveBlockedChild p =>
    obtain ⟨pool', q', hrun, hrel⟩ := h.findAndRemoveBlockedChild hop
    exact ⟨_, pool', q', hrun, trivial, hrel, False.elim, hnone False.elim fun hr => by cases hr⟩

end TreeRel

/-! ## Runs -/

/-- `pcb_init` and `asl_init`. -/
def treeInit : PM T Unit := do
  pcbInit
  aslInit

theorem treeInit_rel : ∃ pool : Pool T, treeInit Pool.static = .ret () pool ∧
    TreeRel pool PcbTree.initial initial := by
  obtain ⟨pool₁, pool, hrun₁, hrun, hrep, hz⟩ := init_rep (T := T)
  have hsorted : initial.lists.Sorted PcbSets.initial := by
    have hqueue : initial.queue = initLists.queue := by
      funext h
      cases h <;> rfl
    unfold Queues.lists
    rw [hqueue]
    exact initLists_sorted
  refine ⟨pool, ?_, ?_⟩
  · unfold treeInit
    rw [bind_ret hrun₁]
    exact hrun
  · exact
      { rep := hrep
        tree := initial_places.2
        sorted := hsorted
        prio := fun p hp => absurd hp (Finset.notMem_empty p)
        kids := fun p hp => absurd hp (Finset.notMem_empty p)
        noKids := fun _ _ => rfl
        waits := fun k p hp => absurd hp List.not_mem_nil
        descending := fun _ => List.Pairwise.nil }

/-- The states after the initialisation and any sequence of allowed operations. -/
inductive TreeRun : Pool T → PcbTree → Prop
  | init {pool : Pool T} : treeInit Pool.static = .ret () pool → TreeRun pool PcbTree.initial
  | step {pool pool' : Pool T} {t : PcbTree} {op : TreeOp} {r : TreeResult} : TreeRun pool t →
      t.Allowed pool.links op → treeExec op pool = .ret r pool' → TreeRun pool' (t.next op r)

theorem TreeRun.rel {pool : Pool T} {t : PcbTree} (h : TreeRun pool t) : ∃ q, TreeRel pool t q := by
  induction h with
  | init hrun =>
    obtain ⟨pool, hrun', R⟩ := treeInit_rel (T := T)
    cases hrun.symm.trans hrun'
    exact ⟨initial, R⟩
  | step _ hop hrun ih =>
    obtain ⟨q, R⟩ := ih
    obtain ⟨r, pool', q', hrun', -, R', -⟩ := R.step hop
    cases hrun.symm.trans hrun'
    exact ⟨q', R'⟩

/-- After any sequence of operations the links through `p_child`, `p_sib` and `p_parent` are the ordered forest, and
every operation that may come next returns what the forest says; one on the tree touches no other list, and one that
only reads or finds nothing changes nothing. -/
theorem treeRun_refines {pool : Pool T} {t : PcbTree} (h : TreeRun pool t) :
    TreeLinks pool t ∧ ∀ op, t.Allowed pool.links op → ∃ r pool', treeExec op pool = .ret r pool' ∧ t.Right op r ∧
      (op.OnTree → TreeFrame pool pool') ∧ (op.Reads ∨ r = .pcb (.pcb none) → pool' = pool) := by
  obtain ⟨q, R⟩ := h.rel
  refine ⟨R.links, fun op hop => ?_⟩
  obtain ⟨r, pool', q', hrun, hright, -, hframe, hsame⟩ := R.step hop
  exact ⟨r, pool', hrun, hright, hframe, hsame⟩

/-- Two PCBs are allocated, the second is made a child of the first, and may be taken from it again. -/
theorem treeRun_refines_child : ∃ (pool : Pool .umps) (t : PcbTree) (p : Pid), TreeRun pool t ∧ t.kids 19 = [p] ∧
    TreeLinks pool t ∧ ∃ r pool', treeExec (.removeChild 19) pool = .ret r pool' ∧ t.Right (.removeChild 19) r := by
  obtain ⟨pool₀, hrun₀, R₀⟩ := treeInit_rel (T := .umps)
  obtain ⟨l, hl, -⟩ := R₀.rep.alloc_cons (p := 19) rfl
  have run₁ := (TreeRun.init hrun₀).step (show PcbTree.initial.Allowed pool₀.links (.pcb .alloc) from trivial)
    (map_ret TreeResult.pcb (map_ret PcbResult.pcb hl))
  obtain ⟨r, pool₂, hrun₂, hright, -⟩ := (treeRun_refines run₁).2 (.pcb .alloc) trivial
  obtain ⟨p, rfl, hp⟩ : ∃ p, r = .pcb (.pcb (some p)) ∧ p ≠ 19 := by
    rcases r with (_ | (_ | p) | _) | _
    · exact hright.elim
    · have hcard : (insert 19 ∅ : Finset Pid).card = maxProc := hright
      simp [maxProc] at hcard
    · refine ⟨p, rfl, ?_⟩
      rintro rfl
      exact hright.2.2 (Finset.mem_insert_self 19 ∅)
    · exact hright.elim
    · exact hright.elim
  have run₂ := run₁.step (show PcbTree.Allowed _ _ (.pcb .alloc) from trivial) hrun₂
  have hop : PcbTree.Allowed ((PcbTree.initial.next (.pcb .alloc) (.pcb (.pcb (some 19)))).next (.pcb .alloc)
      (.pcb (.pcb (some p)))) pool₂.links (.insertChild 19 p) := by
    refine ⟨Finset.mem_insert_of_mem (Finset.mem_insert_self 19 ∅), Finset.mem_insert_self p _, fun _ => List.not_mem_nil,
      fun hd => ?_⟩
    rcases Relation.ReflTransGen.cases_head hd with he | ⟨c, hc, -⟩
    · exact hp he
    · exact List.not_mem_nil hc
  obtain ⟨r, pool₃, hrun₃, hright₃, -⟩ := (treeRun_refines run₂).2 _ hop
  have run₃ := run₂.step hop hrun₃
  obtain ⟨hlinks, hops⟩ := treeRun_refines run₃
  obtain ⟨r', pool', hrun', hright', -⟩ := hops (.removeChild 19)
    (Finset.mem_insert_of_mem (Finset.mem_insert_self 19 ∅))
  refine ⟨pool₃, _, p, run₃, ?_, hlinks, r', pool', hrun', hright'⟩
  simp [PcbTree.next, PcbTree.initial]

end Bikaya.Refine
