import Bikaya.Kernel.Replay
import Bikaya.Refine.UnblockTree

/-!
# `asl_find_and_remove_blocked_child` and the waiters it does not reach

On a PCB whose `p_semkey` is not the key of an active semaphore the function returns before it comes to the
children. It unblocks the whole subtree exactly when that cuts off no waiter (`unblocks_iff`), which a parent that
does not wait, with a child that does, already shows to be a condition (`unblocks_fails`).
-/

namespace Bikaya.Results
open Bikaya.Lib Bikaya.Model Bikaya.Spec Bikaya.Refine Bikaya.Kernel

variable {T : Target}

/-- The live PCBs form a forest, and every PCB is in at most one queue. -/
def Forested (m : Machine T) : Prop := ∃ q, Rep m.pool q ∧ Tree q

/-- Nobody below `p` waits any more, and nothing else has changed. -/
structure SubtreeUnblocked (m m' : Machine T) (p : Pid) : Prop where
  gone : ∀ d, Desc (ParentOf m) p d → ∀ key, d ∉ waitingList m' key
  others : ∀ key, (waitingList m' key).Sublist (waitingList m key) ∧
    ∀ r ∈ waitingList m key, ¬ Desc (ParentOf m) p r → r ∈ waitingList m' key
  /-- The descriptors that have waiters stay where they are. -/
  active : activeSemds m' = (activeSemds m).filter fun d => decide (waitingList m' (m.pool.sKey d) ≠ [])
  /-- The others go to the free list. -/
  recycled : ∃ ds, freeSemds m' = ds ++ freeSemds m ∧
    ∀ d, d ∈ ds ↔ d ∈ activeSemds m ∧ waitingList m' (m.pool.sKey d) = []
  children : ∀ r, Alive m r → childList m' r = childList m r
  free : freeList m' = freeList m
  ready : readyList m' = readyList m
  pcbs : m'.pool.pcbs = m.pool.pcbs
  sKey : m'.pool.sKey = m.pool.sKey
  forested : Forested m'

/-- `w` is below a sibling older than `a`, or older than an ancestor of `a` below `p`. -/
def WalkedBefore (m : Machine T) (p a w : Pid) : Prop :=
  ∃ par c c', Desc (ParentOf m) p par ∧ [c, c'].Sublist (childList m par) ∧ Desc (ParentOf m) c' a ∧
    Desc (ParentOf m) c w

/-- Whoever below `p` waits or has a waiter below it has in `p_semkey` a semaphore with a waiter that is not below
one of those passed before it. -/
def WalkOpen (m : Machine T) (p : Pid) : Prop :=
  ∀ a, Desc (ParentOf m) p a → (∃ d key, Desc (ParentOf m) a d ∧ d ∈ waitingList m key) →
    ∃ w ∈ waitingList m (m.pool.pcbs a).pSemkey, ¬ WalkedBefore m p a w

section
variable {m : Machine T} {q : Queues} {p : Pid}

/-- Every descendant of a live PCB is alive. -/
theorem kids_of_desc (ht : Tree q) (hp : ∃ cs, q.kids p = some cs) {d : Pid} (hd : Desc q.Child p d) :
    ∃ cs, q.kids d = some cs := by
  induction hd with
  | refl => exact hp
  | tail _ hc _ => exact (ht.alive _).mpr (ht.child_alive _ _ hc)

/-- The condition as it is read. -/
theorem walkOpen_iff (hr : Rep m.pool q) (ht : Tree q) (hp : ∃ cs, q.kids p = some cs) :
    WalkOpen m p ↔ Open q (fun r => (m.pool.pcbs r).pSemkey) p := by
  have hwalked : ∀ a w, WalkedBefore m p a w ↔ Before q p a w := by
    intro a w
    unfold WalkedBefore Before
    rw [← hr.child_eq]
    refine exists_congr fun par => ?_
    constructor
    · rintro ⟨c, c', hd, hsub, hrest⟩
      obtain ⟨cs, hk⟩ := kids_of_desc ht hp hd
      rw [hr.childList_eq hk] at hsub
      exact ⟨cs, c, c', hd, hk, hsub, hrest⟩
    · rintro ⟨cs, c, c', hd, hk, hsub, hrest⟩
      rw [← hr.childList_eq hk] at hsub
      exact ⟨c, c', hd, hsub, hrest⟩
  unfold WalkOpen Open Queues.Waits
  simp only [hwalked, hr.waitingList_eq, ← hr.child_eq, exists_and_left]

/-- What the walk leaves. -/
theorem unblocks_subtree {asl sf asl' sf' ps : List Nat} {l : Links Node} (hr : RepAt m.pool q asl sf) (ht : Tree q)
    (hu : Unblocks m.pool q asl sf ps l asl' sf') (hsub : ∀ r ∈ ps, Desc q.Child p r)
    (hall : ∀ d, Desc q.Child p d → q.Waits d → d ∈ ps) :
    SubtreeUnblocked m { m with pool := { m.pool with links := l } } p := by
  have hrep : Rep m.pool q := ⟨asl, sf, hr⟩
  have hrep' : Rep ({ m with pool := { m.pool with links := l } } : Machine T).pool (q.unblockAll ps) :=
    ⟨asl', sf', hu.rep⟩
  have hu' : RepAt ({ m with pool := { m.pool with links := l } } : Machine T).pool (q.unblockAll ps) asl' sf' := hu.rep
  have hactive := active_filter hrep hrep' rfl (by rw [hr.activeSemds_eq, hu'.activeSemds_eq]; exact hu.recycles.1)
  have hfreed := recycled_iff hrep hrep' hactive (by rw [hr.freeSemds_eq, hu'.freeSemds_eq]; exact hu.recycles.2)
  refine
    { gone := fun d hd key hm => ?_
      others := fun key => ?_
      active := hactive
      recycled := hfreed
      children := fun r hlive => ?_
      free := by rw [hrep'.freeList_eq, hrep.freeList_eq]; rfl
      ready := by rw [hrep'.readyList_eq, hrep.readyList_eq]; rfl
      pcbs := rfl
      sKey := rfl
      forested := ⟨_, hrep', ht.congr rfl fun _ => Iff.rfl⟩ }
  · rw [← hrep.child_eq] at hd
    rw [hrep'.waitingList_eq, mem_unblockAll] at hm
    exact hm.2 (hall d hd ⟨key, hm.1⟩)
  · rw [hrep'.waitingList_eq, hrep.waitingList_eq, ← hrep.child_eq]
    refine ⟨List.filter_sublist, fun r hm hd => ?_⟩
    exact mem_unblockAll.mpr ⟨hm, fun hps => hd (hsub r hps)⟩
  · obtain ⟨hlt, hnot⟩ := hlive
    rw [hrep.freeList_eq] at hnot
    obtain ⟨cs, hk⟩ := (ht.alive r).mpr ⟨hlt, hnot⟩
    rw [hrep.childList_eq hk]
    exact hrep'.childList_eq (show (q.unblockAll ps).kids r = some cs from hk)

/-- The function unblocks the whole subtree exactly when the walk is open. -/
theorem unblocks_iff (hm : Forested m) (hp : Alive m p) :
    (∃ pool', aslFindAndRemoveBlockedChild walkFuel p m.pool = .ret () pool' ∧
      SubtreeUnblocked m { m with pool := pool' } p) ↔ WalkOpen m p := by
  obtain ⟨q, hr, ht⟩ := hm
  obtain ⟨hlt, hnot⟩ := hp
  rw [hr.freeList_eq] at hnot
  have hk := (ht.alive p).mpr ⟨hlt, hnot⟩
  have hdom : ∀ p c, q.Child p c → c ∈ Finset.range maxProc :=
    fun p c hc => Finset.mem_range.mpr (ht.child_alive p c hc).1
  have hh := ht.forest.height hdom p
  rw [Finset.card_range] at hh
  rw [walkOpen_iff hr ht hk]
  obtain ⟨asl, sf, hrep⟩ := id hr
  obtain ⟨ps, l, asl', sf', hrun, hu, hsub, hall⟩ := aslFindAndRemoveBlockedChild_spec walkFuel hrep ht.forest
    (fun _ _ hc => (ht.alive _).mpr (ht.child_alive _ _ hc)) hk (hh.le (lt_walkFuel (by decide)).le)
  rw [hrun, ← hall]
  constructor
  · rintro ⟨pool', heq, hdone⟩ d hd ⟨key, hw⟩
    cases heq
    have hgone := hdone.gone d (by rw [← hr.child_eq]; exact hd) key
    have hrep' : Rep ({ m with pool := { m.pool with links := l } } : Machine T).pool (q.unblockAll ps) :=
      ⟨asl', sf', hu.rep⟩
    rw [hrep'.waitingList_eq, mem_unblockAll, not_and, not_not] at hgone
    exact hgone hw
  · exact fun hwaits => ⟨_, rfl, unblocks_subtree hrep ht hu hsub hwaits⟩

end

/-! ## A child that waits below a parent that does not -/

/-- The states of runs are forests with queues. -/
theorem run_forested {cfg : Cfg T} {s : KState T} (h : Run cfg (Lawful cfg) s) : Forested s.m := by
  obtain ⟨q, hb⟩ := run_between id h
  exact ⟨q, hb.sound.rep, hb.sound.tree⟩

/-- The child has blocked on a semaphore at zero. -/
def childBlocked : KState .umps := after demo childRuns (syscall childRuns 5 0x300 0 0)

theorem run_childBlocked : Run demo (Lawful demo) childBlocked :=
  run_after (run_mono And.right run_childRuns) (lawful_of_check (by decide +kernel)) (by decide +kernel)

/-- Then its parent has, too. -/
def bothBlocked : KState .umps := after demo childBlocked (syscall childBlocked 5 0x300 0 0)

/-- On the parent, with the child that waits below it. -/
theorem unblocks_bothBlocked : Desc (ParentOf bothBlocked.m) 19 18 ∧ 18 ∈ waitingList bothBlocked.m 0x300 ∧
    ((∃ pool', aslFindAndRemoveBlockedChild walkFuel 19 bothBlocked.m.pool = .ret () pool' ∧
      SubtreeUnblocked bothBlocked.m { bothBlocked.m with pool := pool' } 19) ↔ WalkOpen bothBlocked.m 19) := by
  have hrun : Run demo (Lawful demo) bothBlocked :=
    run_after run_childBlocked (lawful_of_check (by decide +kernel)) (by decide +kernel)
  have hparent : (bothBlocked.m.pool.pcbs 18).pParent = some 19 := by decide +kernel
  exact ⟨Relation.ReflTransGen.single hparent, by decide +kernel, unblocks_iff (run_forested hrun) (by decide +kernel)⟩

/-- From the parent the function does not reach the child. -/
theorem unblocks_fails : ¬ ∀ (m : Machine .umps) (p : Pid), Forested m → Alive m p →
    ∃ pool', aslFindAndRemoveBlockedChild walkFuel p m.pool = .ret () pool' ∧
      SubtreeUnblocked m { m with pool := pool' } p := by
  intro h
  have hf := run_forested run_childBlocked
  obtain ⟨pool', hrun, hdone⟩ := h childBlocked.m 19 hf (by decide +kernel)
  -- the first process waits nowhere, and the walk ends with it
  obtain ⟨q, ⟨asl, sf, hrep⟩, -⟩ := id hf
  have hkey : waitingList childBlocked.m (childBlocked.m.pool.pcbs 19).pSemkey = [] := by decide +kernel
  rw [Rep.waitingList_eq ⟨asl, sf, hrep⟩] at hkey
  obtain ⟨n, hn⟩ : ∃ n, walkFuel = n + 1 := Nat.exists_eq_add_one_of_ne_zero (Nat.ne_of_gt (lt_walkFuel (by decide)))
  rw [hn] at hrun
  unfold aslFindAndRemoveBlockedChild at hrun
  rw [bind_ret (rfl : Exec.read childBlocked.m.pool = .ret childBlocked.m.pool childBlocked.m.pool),
    bind_ret (hrep.aslSemd_none hkey)] at hrun
  cases hrun
  have hparent : (childBlocked.m.pool.pcbs 18).pParent = some 19 := by decide +kernel
  have hbelow : Desc (ParentOf childBlocked.m) 19 18 := Relation.ReflTransGen.single hparent
  exact hdone.gone 18 hbelow 0x300 (by decide +kernel)

end Bikaya.Results
