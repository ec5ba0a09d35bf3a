import Bikaya.Kernel.Readings

/-!
# The order of the ready queue

`InOrder s q` : the ready queue is in non-increasing order of priority, and processes of one priority stand in
the order in which they were enqueued. Insertions keep it (`InOrder.enqueue`), and so does aging as long as it
leaves higher priorities higher (`AgesWell`); `inOrder_act` is the step.
-/

namespace Bikaya.Kernel
open Bikaya.Lib Bikaya.Model Bikaya.Spec Bikaya.Refine

variable {T : Target} {cfg : Cfg T}

/-- `a` goes before `b`. -/
def Ahead (s : KState T) (a b : Pid) : Prop :=
  s.prio b < s.prio a ∨ s.prio b = s.prio a ∧ enqueuedAt a s.hist < enqueuedAt b s.hist

def InOrder (s : KState T) (q : Queues) : Prop := q.ready.Pairwise (Ahead s)

/-- Aging leaves higher priorities higher. -/
def AgesWell (cfg : Cfg T) (s : KState T) (xs : List Pid) : Prop :=
  ∀ a ∈ xs, ∀ b ∈ xs, s.prio a < s.prio b → cfg.prio.succ (s.prio a) < cfg.prio.succ (s.prio b)

theorem enqueuedAt_le (p : Pid) : ∀ h : History T, enqueuedAt p h ≤ h.length := by
  intro h
  induction h with
  | nil => exact Nat.le_refl 0
  | cons n h ih =>
    obtain ⟨o, m⟩ := n
    have hstep : enqueuedAt p h ≤ ((o, m) :: h).length := Nat.le_succ_of_le ih
    cases o with
    | enqueue r =>
      show (if r = p then h.length + 1 else enqueuedAt p h) ≤ h.length + 1
      split
      · exact Nat.le_refl _
      · exact hstep
    | _ => exact hstep

section
variable {s s' : KState T} {q q' : Queues}

theorem InOrder.descending (h : InOrder s q) : Descending s.prio q.ready := by
  apply List.Pairwise.imp _ h
  intro a b hab
  rcases hab with hlt | ⟨heq, -⟩
  · exact le_of_lt hlt
  · exact le_of_eq heq

/-- Some leave, and the others are as before. -/
theorem InOrder.keep (h : InOrder s q) (hsub : q'.ready.Sublist q.ready)
    (hp : ∀ r ∈ q.ready, s'.prio r = s.prio r) (he : ∀ r ∈ q.ready, enqueuedAt r s'.hist = enqueuedAt r s.hist) :
    InOrder s' q' := by
  apply List.Pairwise.imp_of_mem _ (List.Pairwise.sublist hsub h)
  intro a b ha hb hab
  have ha' := hsub.subset ha
  have hb' := hsub.subset hb
  show s'.prio b < s'.prio a ∨ s'.prio b = s'.prio a ∧ enqueuedAt a s'.hist < enqueuedAt b s'.hist
  rw [hp a ha', hp b hb', he a ha', he b hb']
  exact hab

theorem enqueued_prio_self (s : KState T) (p : Pid) (l : Links Node) :
    (s.enqueued p l).prio p = (s.m.pool.pcbs p).originalPriority :=
  congrArg Pcb.priority (setPcb_self s p fun x => { x with priority := x.originalPriority })

theorem enqueued_prio_ne (s : KState T) {p r : Pid} (l : Links Node) (hr : r ≠ p) :
    (s.enqueued p l).prio r = s.prio r :=
  congrArg Pcb.priority (setPcb_ne s (fun x => { x with priority := x.originalPriority }) hr)

theorem enqueuedAt_self (s : KState T) (p : Pid) (l : Links Node) :
    enqueuedAt p (s.enqueued p l).hist = s.hist.length + 1 := if_pos rfl

theorem enqueuedAt_ne (s : KState T) {p r : Pid} (l : Links Node) (hr : r ≠ p) :
    enqueuedAt r (s.enqueued p l).hist = enqueuedAt r s.hist := if_neg (Ne.symm hr)

/-- A process that was not ready takes its place behind those of its priority. -/
theorem InOrder.enqueue (h : InOrder s q) {p : Pid} (hp : p ∉ q.ready) (l : Links Node) :
    InOrder (s.enqueued p l) (q.enqueue (s.resetPrio p).prio p) := by
  have hne : ∀ r ∈ q.ready, r ≠ p := fun r hr he => hp (he ▸ hr)
  have h' : InOrder (s.enqueued p l) q := by
    apply h.keep (List.Sublist.refl _)
    · exact fun r hr => enqueued_prio_ne s l (hne r hr)
    · exact fun r hr => enqueuedAt_ne s l (hne r hr)
  show (insertPrio (s.enqueued p l).prio p q.ready).Pairwise (Ahead (s.enqueued p l))
  apply insertPrio_pairwise _ p h'.descending h'
  · intro x hx hle
    have hx' : enqueuedAt x s.hist ≤ s.hist.length := enqueuedAt_le x s.hist
    rcases lt_or_eq_of_le hle with hlt | heq
    · exact Or.inl hlt
    · refine Or.inr ⟨heq, ?_⟩
      rw [enqueuedAt_self, enqueuedAt_ne s l (hne x hx)]
      omega
  · exact fun y _ hlt => Or.inl hlt

theorem aged_prio {xs : List Pid} {r : Pid} (hr : r ∈ xs) : (s.aged cfg xs).prio r = cfg.prio.succ (s.prio r) := by
  show (agePcbs cfg.prio xs s.m.pool.pcbs r).priority = _
  unfold agePcbs
  rw [if_pos hr]
  rfl

/-- The ready processes grow older together. -/
theorem InOrder.age (h : InOrder s q) (hw : AgesWell cfg s q.ready) : InOrder (s.aged cfg q.ready) q := by
  apply List.Pairwise.imp_of_mem _ h
  intro a b ha hb hab
  show (s.aged cfg q.ready).prio b < (s.aged cfg q.ready).prio a ∨
    (s.aged cfg q.ready).prio b = (s.aged cfg q.ready).prio a ∧ enqueuedAt a s.hist < enqueuedAt b s.hist
  rw [aged_prio ha, aged_prio hb]
  rcases hab with hlt | ⟨heq, hat⟩
  · exact Or.inl (hw b hb a ha hlt)
  · exact Or.inr ⟨congrArg cfg.prio.succ heq, hat⟩

/-- The time slice of `p` ends. -/
theorem InOrder.expired (h : InOrder s q) (hw : AgesWell cfg s q.ready) (p : Pid) (st : CpuState T) :
    InOrder (s.expired cfg q.ready p st) q := by
  apply (h.age hw).keep (List.Sublist.refl _)
  · exact fun r _ => setPcb_field Pcb.priority ((s.aged cfg q.ready).push .expire) p (fun x => { x with pS := st })
      (fun _ => rfl) r
  · exact fun r _ => rfl

/-- The time slice of `p`, which is not ready, ends. -/
theorem InOrder.preempt (h : InOrder s q) (hw : AgesWell cfg s q.ready) {p : Pid} (hp : p ∉ q.ready)
    (st : CpuState T) (l : Links Node) :
    InOrder ((s.expired cfg q.ready p st).enqueued p l)
      (q.enqueue ((s.expired cfg q.ready p st).resetPrio p).prio p) :=
  (h.expired hw p st).enqueue hp l

/-- `p` is taken from a waiting list. -/
theorem InOrder.popped (h : InOrder s q) (key : Key) (p : Pid) (rest : List Pid) (l : Links Node) :
    InOrder (s.popped p l) (q.setWaiting key rest) :=
  h.keep (List.Sublist.refl _) (fun r _ => popped_field Pcb.priority (fun _ _ => rfl) s p l r) fun _ _ => rfl

/-- A PCB is taken from the free list. -/
theorem InOrder.spawned (h : InOrder s q) {p : Pid} (hp : p ∉ q.ready) (l : Links Node) (st : CpuState T) (prio : Int) :
    InOrder (s.spawned p l st prio) (q.alloc p) := by
  apply h.keep (List.Sublist.refl _)
  · intro r hr
    show ((s.spawned p l st prio).m.pool.pcbs r).priority = _
    have hne : r ≠ p := fun he => hp (he ▸ hr)
    rw [spawned_pcbs, if_neg hne]
    rfl
  · exact fun _ _ => rfl

/-- Every act keeps the order, if aging does. -/
theorem inOrder_act {out : List Pid} (hs : Sound s.m.pool q out) (ha : Act cfg s q s' q')
    (hages : ∀ e m, lastEntry s.hist = some (e, m) → IsTimer e → m.currentProc ≠ none →
      (∀ r ∈ q.ready, ReadyOrWoken cfg e m r (s.prio r)) → AgesWell cfg s q.ready)
    (h : InOrder s q) : InOrder s' q' := by
  obtain ⟨asl, sf, hrep⟩ := hs.rep
  have hwait : ∀ {key p rest}, q.waiting key = p :: rest → p ∉ q.ready := fun hw =>
    hrep.waiting_not_ready (hw ▸ List.mem_cons_self)
  cases ha with
  | time ht => exact h.keep (List.Sublist.refl _) (fun r _ => ht.same.priority r) fun r _ => ht.enqueuedAt_eq r
  | areas => exact h
  | output => exact h
  | register p new old =>
    exact h.keep (List.Sublist.refl _) (fun r _ => setPcb_field Pcb.priority s p _ (by intro x; rfl) r) fun _ _ => rfl
  | resume => exact h
  | passUp => exact h
  | idle => exact h
  | @preempt _ p st l hcur hnq hctx htimer hslice hready =>
    obtain ⟨e, m, he, hr⟩ := hready
    obtain ⟨e', m', he', ht, hc⟩ := htimer
    rw [he] at he'
    cases he'
    exact h.preempt (hages e m he ht (by simp [hc]) hr) (fun hm => hnq (Or.inr (Or.inl hm))) st l
  | @dispatch s₂ _ p rest l hr ht =>
    apply h.keep
    · rw [hr]
      exact List.sublist_cons_self _ _
    · exact fun r _ => ht.same.priority r
    · exact fun r _ => ht.enqueuedAt_eq r
  | @block s₁ s₂ _ p key st pool _ _ _ hb ht hpool =>
    obtain ⟨hpool₁, -, -, -, -, -, -⟩ := hb.same
    have hat : ∀ r, enqueuedAt r s₁.hist = enqueuedAt r s.hist := by
      intro r
      cases hb with
      | passeren => rfl
      | waitIo command device subdev _ =>
        rw [commanded_hist]
        rfl
    apply h.keep (List.Sublist.refl _)
    · intro r _
      show (pool.pcbs r).priority = s.prio r
      rw [hpool]
      refine (setPcb_field Pcb.priority s₂ p (fun x => { x with pSemkey := key }) (fun _ => rfl) r).trans ?_
      rw [ht.same.priority, setPcb_field Pcb.priority s₁ p (fun x => { x with pS := st }) (fun _ => rfl), hpool₁]
      rfl
    · exact fun r _ => (ht.enqueuedAt_eq r).trans (hat r)
  | @handOver _ key p rest l l' _ hw =>
    have h₁ : InOrder ((s.popped p l).push (.verhogen key (some p))) (q.setWaiting key rest) := h.popped key p rest l
    exact h₁.enqueue (hwait hw) l'
  | verhogen => exact h
  | passeren => exact h
  | @serve _ f addr p rest l l' _ hfn hw =>
    rw [commanded_fn hfn]
    apply ((h.popped (devKey cfg f) p rest l).enqueue (hwait hw) l').keep (List.Sublist.refl _)
    · exact fun r _ => setPcb_field Pcb.priority ((s.popped p l).enqueued p l') p
        (fun x => { x with pS := x.pS.setReturn (s.m.hw.status f) }) (fun _ => rfl) r
    · exact fun _ _ => rfl
  | @spawn _ p rest st prio l l' hf =>
    have hp : p ∉ q.ready := fun hr => hrep.ready_not_free hr (hf ▸ List.mem_cons_self)
    exact (h.spawned hp l st prio).enqueue hp l'
  | @adopt _ parent p l =>
    apply h.keep (List.Sublist.refl _)
    · exact fun r _ => setPcb_field Pcb.priority s p (fun x => { x with pParent := some parent }) (fun _ => rfl) r
    · exact fun _ _ => rfl
  | quit => exact h
  | @bury _ p pool _ _ _ hpool =>
    apply h.keep List.erase_sublist
    · intro r _
      show (pool.pcbs r).priority = s.prio r
      rw [hpool]
      exact setPcb_field Pcb.priority s p (fun x => { x with pParent := none }) (fun _ => rfl) r
    · exact fun _ _ => rfl

end
end Bikaya.Kernel
