import Bikaya.Kernel.Ready
import Bikaya.Kernel.Replay

/-!
# The order of dispatch

The ready queue is in non-increasing order of priority after every operation on it, and `scheduler_run` takes the
process of maximal priority that was enqueued first (`dispatch_order`), in the runs in which aging does not carry
a priority past `INT_MAX` (`NoWrap`). Nothing bounds the priority argument of CREATEPROCESS: a child at `INT_MAX`
is aged to `INT_MIN` and stays in front (`dispatch_order_fails`).
-/

namespace Bikaya.Results
open Bikaya.Lib Bikaya.Model Bikaya.Spec Bikaya.Refine Bikaya.Kernel

variable {T : Target} {cfg : Cfg T}

/-- The effective priority. -/
def prioOf (m : Machine T) (p : Pid) : Int := (m.pool.pcbs p).priority

/-- `scheduler_run` takes `p` : of the processes that were ready, none has a higher priority, and of those with
the same none was enqueued before. -/
def TakesFirst (m : Machine T) (p : Pid) (h : History T) : Prop :=
  p ∈ readyList m ∧ ∀ r ∈ readyList m, r ≠ p →
    prioOf m r < prioOf m p ∨ prioOf m r = prioOf m p ∧ enqueuedAt p h < enqueuedAt r h

/-- What holds of the ready queue at an observation. -/
def Ordered (n : Obs T × Machine T) (earlier : History T) : Prop :=
  match n.1 with
  | .enqueue _ => Descending (prioOf n.2) (readyList n.2)
  | .expire => Descending (prioOf n.2) (readyList n.2)
  | .bury _ => Descending (prioOf n.2) (readyList n.2)
  | .run => readyList n.2 ≠ []
  | .dispatch p _ => Descending (prioOf n.2) (readyList n.2) ∧ ∃ m, lastRun earlier = some m ∧ TakesFirst m p earlier
  | .idle _ => n.2.currentProc = none ∧ readyList n.2 = []
  | _ => True

/-- At the end of a time slice no process that ages is at `INT_MAX`, or they all are. -/
def NoWrap (cfg : Cfg T) (e : Entry T) (m : Machine T) : Prop :=
  IsTimer e → m.currentProc ≠ none →
    (∀ r x, ReadyOrWoken cfg e m r x → x ≠ 2 ^ 31 - 1) ∨ ∀ r x, ReadyOrWoken cfg e m r x → x = 2 ^ 31 - 1

structure AgingEntry (cfg : Cfg T) (s : KState T) (e : Entry T) : Prop where
  lawful : Lawful cfg s e
  noWrap : NoWrap cfg e (s.entered e).m

/-! ## Priorities are ints -/

theorem isInt_succ {x : Int} : IsInt (PrioArith.int32.succ x) := by
  constructor
  · exact Int.le_bmod (by decide)
  · exact Int.bmod_lt (by decide)

theorem isInt_zero : IsInt 0 := ⟨by decide, by decide⟩

theorem succ_eq {x : Int} (hx : IsInt x) (hne : x ≠ 2 ^ 31 - 1) : PrioArith.int32.succ x = x + 1 := by
  obtain ⟨h₁, h₂⟩ := hx
  exact Int.bmod_eq_of_le (by omega) (by omega)

/-- The priorities of every process are ints. -/
def Ints (s : KState T) : Prop :=
  ∀ p, IsInt (s.m.pool.pcbs p).priority ∧ IsInt (s.m.pool.pcbs p).originalPriority

section
variable {s s' : KState T} {q q' : Queues}

theorem Ints.setPcb (h : Ints s) (p : Pid) {f : Pcb T → Pcb T}
    (hf : IsInt (f (s.m.pool.pcbs p)).priority ∧ IsInt (f (s.m.pool.pcbs p)).originalPriority) :
    Ints (s.setPcb p f) := by
  intro r
  by_cases hr : r = p
  · subst hr
    rw [setPcb_self]
    exact hf
  · rw [setPcb_ne s f hr]
    exact h r

theorem Ints.time (h : Ints s) (ht : Timed s s') : Ints s' := by
  intro r
  rw [ht.same.priority, ht.same.originalPriority]
  exact h r

theorem Ints.enqueued (h : Ints s) (p : Pid) (l : Links Node) : Ints (s.enqueued p l) :=
  h.setPcb p (f := fun x => { x with priority := x.originalPriority }) ⟨(h p).2, (h p).2⟩

theorem Ints.popped (h : Ints s) (p : Pid) (l : Links Node) : Ints (s.popped p l) :=
  h.setPcb p (f := fun x => { x with pSemkey := 0 }) (h p)

theorem ints_act (hprio : cfg.prio = .int32) (ha : Act cfg s q s' q') (h : Ints s) : Ints s' := by
  cases ha with
  | time ht => exact h.time ht
  | areas => exact h
  | output => exact h
  | register p new old => exact h.setPcb p (h p)
  | resume => exact h
  | passUp => exact h
  | idle => exact h
  | @preempt _ p st l =>
    have h₁ : Ints (s.aged cfg q.ready) := by
      intro r
      show IsInt (agePcbs cfg.prio q.ready s.m.pool.pcbs r).priority ∧ IsInt (agePcbs _ _ _ r).originalPriority
      unfold agePcbs
      split
      · rw [hprio]
        exact ⟨isInt_succ, (h r).2⟩
      · exact h r
    have h₂ : Ints (s.expired cfg q.ready p st) :=
      h₁.setPcb p (f := fun x => { x with pS := st }) (h₁ p)
    exact h₂.enqueued p l
  | @dispatch s₂ _ p _ l _ ht =>
    have h₁ : Ints (((s.push .run).relink l).setCurrent (some p)) := h
    have h₂ : Ints s₂ := h₁.time ht
    exact h₂
  | @block s₁ s₂ _ p key st pool _ _ _ hb ht hpool =>
    obtain ⟨hpool₁, -, -, -, -, -, -⟩ := hb.same
    have h₁ : Ints s₁ := by
      intro r
      rw [hpool₁]
      exact h r
    have h₂ : Ints s₂ := (h₁.setPcb p (f := fun x => { x with pS := st }) (h₁ p)).time ht
    have h₃ := h₂.setPcb p (f := fun x => { x with pSemkey := key }) (h₂ p)
    intro r
    show IsInt (pool.pcbs r).priority ∧ IsInt (pool.pcbs r).originalPriority
    rw [hpool]
    exact h₃ r
  | @handOver _ key p _ l l' => exact (h.popped p l).enqueued p l'
  | verhogen => exact h
  | passeren => exact h
  | @serve _ f _ p _ l l' _ hfn =>
    rw [commanded_fn hfn]
    have h₁ := (h.popped p l).enqueued p l'
    exact h₁.setPcb p (f := fun x => { x with pS := x.pS.setReturn (s.m.hw.status f) }) (h₁ p)
  | @spawn _ p _ st prio l l' _ hint =>
    have h₁ : Ints (s.spawned p l st prio) := by
      intro r
      rw [spawned_pcbs]
      split
      · exact ⟨isInt_zero, hint⟩
      · exact h r
    exact h₁.enqueued p l'
  | @adopt _ parent p l => exact h.setPcb p (f := fun x => { x with pParent := some parent }) (h p)
  | quit => exact h
  | @bury _ p pool _ _ _ hpool =>
    have h₁ := h.setPcb p (f := fun x => { x with pParent := none }) (h p)
    intro r
    show IsInt (pool.pcbs r).priority ∧ IsInt (pool.pcbs r).originalPriority
    rw [hpool]
    exact h₁ r

/-- Aging does not overtake `INT_MAX`. -/
theorem agesWell_of_noWrap (hprio : cfg.prio = .int32) (hi : Ints s) {e : Entry T} {m : Machine T}
    (hw : NoWrap cfg e m) (ht : IsTimer e) (hm : m.currentProc ≠ none)
    (hr : ∀ r ∈ q.ready, ReadyOrWoken cfg e m r (s.prio r)) : AgesWell cfg s q.ready := by
  intro a ha b hb hab
  rw [hprio]
  rcases hw ht hm with hnone | hall
  · have ha' : PrioArith.int32.succ (s.prio a) = s.prio a + 1 := succ_eq (hi a).1 (hnone a _ (hr a ha))
    have hb' : PrioArith.int32.succ (s.prio b) = s.prio b + 1 := succ_eq (hi b).1 (hnone b _ (hr b hb))
    rw [ha', hb']
    omega
  · rw [hall a _ (hr a ha), hall b _ (hr b hb)] at hab
    omega

/-! ## The points of a history -/

theorem ordered_time (n : Obs T × Machine T) (h : History T) (hn : IsTime n.1) : Ordered n h := by
  obtain ⟨o, m⟩ := n
  cases o <;> first | exact hn.elim | exact trivial

theorem readyList_links {m m' : Machine T} (h : m'.pool.links = m.pool.links) : readyList m' = readyList m := by
  unfold readyList pcbsIn
  rw [h]

/-- The order as it is read. -/
theorem inOrder_read (h : InOrder s q) (hs : Rep s.m.pool q) : Descending (prioOf s.m) (readyList s.m) := by
  rw [hs.readyList_eq]
  exact h.descending

/-- The head of an ordered queue goes first. -/
theorem takesFirst_head (h : InOrder s q) (hs : Rep s.m.pool q) {p : Pid} {rest : List Pid} (hr : q.ready = p :: rest) :
    TakesFirst s.m p s.hist := by
  unfold TakesFirst
  rw [hs.readyList_eq, hr]
  refine ⟨List.mem_cons_self, fun r hm hne => ?_⟩
  have hp : (p :: rest).Pairwise (Ahead s) := hr ▸ h
  exact (List.pairwise_cons.mp hp).1 r ((List.mem_cons.mp hm).resolve_left hne)

theorem ordered_act {out out' : List Pid} (hs : Sound s.m.pool q out) (hs' : Sound s'.m.pool q' out')
    (ha : Act cfg s q s' q') (ho : InOrder s q) (ho' : InOrder s' q')
    (hages : ∀ e m, lastEntry s.hist = some (e, m) → IsTimer e → m.currentProc ≠ none →
      (∀ r ∈ q.ready, ReadyOrWoken cfg e m r (s.prio r)) → AgesWell cfg s q.ready)
    (h : Always Ordered s.hist) : Always Ordered s'.hist := by
  have hread := inOrder_read ho' hs'.rep
  cases ha with
  | time ht => exact ht.always ordered_time h
  | areas => exact h
  | output => exact h
  | register => exact h
  | resume => exact ⟨trivial, h⟩
  | passUp => exact ⟨trivial, h⟩
  | idle hcur hr => exact ⟨⟨hcur, by rw [hs.rep.readyList_eq]; exact hr⟩, h⟩
  | @preempt _ p st l hcur hnq hctx htimer hslice hready =>
    obtain ⟨e, m, he, hr⟩ := hready
    obtain ⟨e', m', he', ht, hc⟩ := htimer
    rw [he] at he'
    cases he'
    have h₁ := ho.age (hages e m he ht (by simp [hc]) hr)
    have hrep : Rep (s.aged cfg q.ready).m.pool q := by
      apply hs.rep.setPcbs
      · exact aged_field Pcb.pParent (fun _ _ => rfl) cfg s q.ready
      · exact aged_field Pcb.pSemkey (fun _ _ => rfl) cfg s q.ready
    exact ⟨hread, inOrder_read h₁ hrep, h⟩
  | @dispatch s₂ _ p rest l hr ht =>
    have h₁ : Always Ordered (((s.push .run).relink l).setCurrent (some p)).hist := by
      refine ⟨?_, h⟩
      show readyList s.m ≠ []
      rw [hs.rep.readyList_eq, hr]
      exact List.cons_ne_nil p rest
    refine ⟨⟨hread, s.m, ?_, ?_⟩, ht.always ordered_time h₁⟩
    · show lastRun s₂.hist = some s.m
      rw [ht.lastRun_eq]
      rfl
    · obtain ⟨hm, hfirst⟩ := takesFirst_head ho hs.rep hr
      refine ⟨hm, fun r hrm hne => ?_⟩
      show _ ∨ _ ∧ enqueuedAt p s₂.hist < enqueuedAt r s₂.hist
      rw [ht.enqueuedAt_eq, ht.enqueuedAt_eq]
      exact hfirst r hrm hne
  | @block s₁ s₂ _ p key st pool _ _ _ hb ht =>
    have h₁ : Always Ordered s₁.hist := by
      cases hb with
      | passeren => exact ⟨trivial, h⟩
      | waitIo command device subdev _ =>
        rw [commanded_hist]
        exact ⟨trivial, h⟩
    exact ⟨trivial, ht.always ordered_time h₁⟩
  | handOver => exact ⟨hread, trivial, h⟩
  | verhogen => exact ⟨trivial, h⟩
  | passeren => exact ⟨trivial, h⟩
  | @serve _ f _ p rest l l' _ hfn hw =>
    obtain ⟨asl, sf, hrep⟩ := hs.rep
    have hp : p ∉ q.ready := hrep.waiting_not_ready (hw ▸ List.mem_cons_self)
    have h₁ := (ho.popped (devKey cfg f) p rest l).enqueue hp l'
    rw [commanded_fn hfn] at hs' ⊢
    refine ⟨trivial, trivial, ?_, h⟩
    have hlist : readyList ((s.popped p l).enqueued p l').m = _ := hs'.rep.readyList_eq
    show Descending _ (readyList ((s.popped p l).enqueued p l').m)
    rw [hlist]
    exact h₁.descending
  | spawn => exact ⟨hread, trivial, h⟩
  | adopt => exact h
  | quit => exact h
  | bury => exact ⟨hread, h⟩

end

/-- The invariant of the runs. -/
structure Dispatching (cfg : Cfg T) (s : KState T) (q : Queues) : Prop where
  ints : Ints s
  order : InOrder s q
  points : Always Ordered s.hist
  entry : ∀ e m, lastEntry s.hist = some (e, m) → NoWrap cfg e m

theorem Dispatching.init {s : KState T} {q : Queues} (h : Initial cfg s q) : Dispatching cfg s q where
  ints p := by
    rw [h.pcbs]
    exact ⟨isInt_zero, isInt_zero⟩
  order := by
    unfold InOrder
    rw [h.queues]
    exact List.Pairwise.nil
  points := by
    rw [h.hist]
    exact trivial
  entry e m he := by
    rw [h.hist] at he
    cases he

theorem Dispatching.act {s s' : KState T} {q q' : Queues} {out out' : List Pid} (hprio : cfg.prio = .int32)
    (hs : Sound s.m.pool q out) (hs' : Sound s'.m.pool q' out') (ha : Act cfg s q s' q')
    (h : Dispatching cfg s q) : Dispatching cfg s' q' := by
  have hages : ∀ e m, lastEntry s.hist = some (e, m) → IsTimer e → m.currentProc ≠ none →
      (∀ r ∈ q.ready, ReadyOrWoken cfg e m r (s.prio r)) → AgesWell cfg s q.ready :=
    fun e m he => agesWell_of_noWrap hprio h.ints (h.entry e m he)
  have ho' := inOrder_act hs ha hages h.order
  refine ⟨ints_act hprio ha h.ints, ho', ordered_act hs hs' ha h.order ho' hages h.points, ?_⟩
  rw [ha.lastEntry_eq]
  exact h.entry

/-- It holds in the runs in which aging does not wrap. -/
theorem dispatching_run {s : KState T} (hprio : cfg.prio = .int32) (h : Run cfg (AgingEntry cfg) s) :
    ∃ q, Between s q ∧ Dispatching cfg s q := by
  have hentry : ∀ {s : KState T} {q : Queues} {e : Entry T}, Between s q → AgingEntry cfg s e →
      Dispatching cfg s q → Dispatching cfg (s.entered e) q := by
    intro s q e _ hok h
    refine ⟨h.ints, h.order, ⟨trivial, h.points⟩, fun e' m' he => ?_⟩
    cases he
    exact hok.noWrap
  exact run_keeps (fun hok => hok.lawful) .init hentry (Dispatching.act hprio) h

/-- In the lawful runs in which aging does not wrap, the ready queue is in order at every exit and at every
observation. -/
theorem dispatch_order {s : KState T} (hprio : cfg.prio = .int32) (h : Run cfg (AgingEntry cfg) s) :
    Descending (prioOf s.m) (readyList s.m) ∧
      ∀ later n earlier, s.hist = later ++ n :: earlier → Ordered n earlier := by
  obtain ⟨q, hb, hi⟩ := dispatching_run hprio h
  exact ⟨inOrder_read hi.order hb.sound.rep, always_iff.mp hi.points⟩

/-- At the end of the time slice in `childRuns` the child is ready, at priority 1. -/
theorem dispatch_order_childRuns : Descending (prioOf childRuns.m) (readyList childRuns.m) ∧
    ∀ later n earlier, childRuns.hist = later ++ n :: earlier → Ordered n earlier := by
  have h₁ : Run demo (AgingEntry demo) forked :=
    run_after (run_booted demo _) ⟨lawful_of_check (by decide +kernel), fun ht => absurd ht (by decide +kernel)⟩
      (by decide +kernel)
  have hready : readyList (forked.entered (timer forked)).m = [18] := by decide +kernel
  have hone : ((forked.entered (timer forked)).m.pool.pcbs 18).priority = 1 := by decide +kernel
  have hidle : ∀ d < 40, ∀ rx, ¬ Finished (timer forked).hw ⟨d, rx⟩ := by decide +kernel
  have h₂ : Run demo (AgingEntry demo) childRuns := by
    refine run_after h₁ ⟨lawful_of_check (by decide +kernel), fun _ _ => Or.inl fun r x hx => ?_⟩ (by decide +kernel)
    rcases hx with ⟨hr, rfl⟩ | ⟨f, hf, -⟩
    · rw [hready, List.mem_singleton] at hr
      subst hr
      rw [hone]
      decide
    · exact absurd hf.1 (hidle f.dev hf.1.exists.1 f.rx)
  exact dispatch_order rfl h₂

/-! ## A priority past `INT_MAX` -/

/-- The first process has created a child of priority `INT_MAX`. -/
def topForked : KState .umps := after demo (booted demo) (syscall (booted demo) 2 0 0x7fffffff 0)

/-- It has created another one, of priority 5. -/
def topMidForked : KState .umps := after demo topForked (syscall topForked 2 0 5 0)

/-- Its time slice is over, and it is dispatched again. -/
def wrapped : KState .umps := after demo topMidForked (timer topMidForked)

theorem run_wrapped : Run demo (fun s e => ValidEntry demo s e ∧ Lawful demo s e) wrapped := by
  have htop : Run demo (fun s e => ValidEntry demo s e ∧ Lawful demo s e) topForked :=
    run_after (run_booted demo _) ⟨by decide +kernel, lawful_of_check (by decide +kernel)⟩ (by decide +kernel)
  have hmid : Run demo (fun s e => ValidEntry demo s e ∧ Lawful demo s e) topMidForked :=
    run_after htop ⟨by decide +kernel, lawful_of_check (by decide +kernel)⟩ (by decide +kernel)
  exact run_after hmid ⟨by decide +kernel, lawful_of_check (by decide +kernel)⟩ (by decide +kernel)

/-- The child at `INT_MIN` stands before the one at 6. -/
theorem dispatch_order_fails : ¬ ∀ s : KState .umps, Run demo (Lawful demo) s →
    Descending (prioOf s.m) (readyList s.m) ∧
      ∀ later n earlier, s.hist = later ++ n :: earlier → Ordered n earlier := by
  intro h
  have hlist : readyList wrapped.m = [18, 17] := by decide +kernel
  have hprio : prioOf wrapped.m 18 < prioOf wrapped.m 17 := by decide +kernel
  have hd := (h wrapped (run_mono And.right run_wrapped)).1
  rw [hlist] at hd
  have hle := (List.pairwise_cons.mp hd).1 17 List.mem_cons_self
  omega

end Bikaya.Results
