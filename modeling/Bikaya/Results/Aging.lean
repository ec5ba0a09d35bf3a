import Bikaya.Kernel.Ready
import Bikaya.Kernel.Replay

/-!
# Aging prevents starvation

With exact priorities a ready process sees at most `max 0 (M - o) + maxProc` time slices end before it is
dispatched or killed, where `o` is its original priority and `M` bounds those of all processes meanwhile
(`wait_bounded`). The measure is `Slack` : the slices that have ended plus the processes ahead. As long as fewer
than `M - o` slices have ended newcomers may go ahead, but there are at most `maxProc` of them; after that nobody
does, and between two ends of slices a dispatch takes one away.
-/

namespace Bikaya.Results
open Bikaya.Lib Bikaya.Model Bikaya.Spec Bikaya.Refine Bikaya.Kernel

variable {T : Target} {cfg : Cfg T}

/-- The original priorities of the processes alive in `w` are at most `M`. -/
def Below (M : Int) (w : History T) : Prop := ∀ n ∈ w, ∀ r, Alive n.2 r → (n.2.pool.pcbs r).originalPriority ≤ M

/-- One when a slice has ended that no dispatch has followed. -/
def credit (h : History T) : Int := if sliceOver h then 1 else 0

/-- `p`, which waits since the machine was `m₀` and has seen `w`, has aged with every slice that ended, and few
slices and processes are left ahead of it. -/
structure Lag (p : Pid) (s : KState T) (q : Queues) (w : History T) (m₀ : Machine T) : Prop where
  mem : p ∈ q.ready
  orig : (s.m.pool.pcbs p).originalPriority = (m₀.pool.pcbs p).originalPriority
  prio : s.prio p = (m₀.pool.pcbs p).originalPriority + expiries w
  bound : ∀ M, Below M w → (expiries w : Int) + q.ready.idxOf p ≤
    max 0 (M - (m₀.pool.pcbs p).originalPriority) + maxProc - 1 + credit s.hist

/-- If `p` waits it lags. -/
def Slack (p : Pid) (s : KState T) (q : Queues) : Prop :=
  ∀ w m₀, waitOf p s.hist = some (w, m₀) → Lag p s q w m₀

/-! ## Observations that do not matter -/

/-- Neither an end of a slice nor a beginning or an end of a wait. -/
def Unwatched : Obs T → Prop
  | .enqueue _ => False
  | .dispatch _ _ => False
  | .bury _ => False
  | .expire => False
  | _ => True

section
variable {s s' : KState T} {q q' : Queues} {p : Pid}

/-- Exact priorities grow without bound. -/
theorem agesWell_exact (hprio : cfg.prio = .exact) (xs : List Pid) : AgesWell cfg s xs := by
  intro a _ b _ hab
  rw [hprio]
  show s.prio a + 1 < s.prio b + 1
  omega

theorem unwatched_time {o : Obs T} (ho : IsTime o) : Unwatched o := by
  cases o <;> first | exact ho.elim | exact trivial

theorem credit_nonneg (h : History T) : 0 ≤ credit h ∧ credit h ≤ 1 := by
  unfold credit
  split <;> decide

theorem waitOf_append {ns : History T} (hns : ∀ n ∈ ns, Unwatched n.1) (h : History T) :
    waitOf p (ns ++ h) = (waitOf p h).map fun w => (ns ++ w.1, w.2) := by
  induction ns with
  | nil => simp
  | cons n ns ih =>
    have htail := ih fun x hx => hns x (List.mem_cons_of_mem _ hx)
    have hn : waitOf p (n :: (ns ++ h)) = (waitOf p (ns ++ h)).map fun w => (n :: w.1, w.2) := by
      have hn := hns n List.mem_cons_self
      obtain ⟨o, m⟩ := n
      cases o <;> first | exact hn.elim | rfl
    rw [List.cons_append, hn, htail, Option.map_map]
    rfl

theorem credit_append {ns : History T} (hns : ∀ n ∈ ns, Unwatched n.1) (h : History T) : credit (ns ++ h) = credit h := by
  induction ns with
  | nil => rfl
  | cons n ns ih =>
    rw [← ih fun x hx => hns x (List.mem_cons_of_mem _ hx)]
    have hn := hns n List.mem_cons_self
    obtain ⟨o, m⟩ := n
    cases o <;> first | exact hn.elim | rfl

theorem expiries_append {ns : History T} (hns : ∀ n ∈ ns, Unwatched n.1) (w : History T) :
    expiries (ns ++ w) = expiries w := by
  have hzero : ns.countP (fun n => isExpire n.1) = 0 := by
    apply List.countP_eq_zero.mpr
    rintro ⟨o, m⟩ hm
    have hn := hns _ hm
    cases o <;> first | exact hn.elim | exact Bool.false_ne_true
  unfold expiries
  rw [List.countP_append, hzero, Nat.zero_add]

theorem Below.of_append {M : Int} {ns w : History T} (h : Below M (ns ++ w)) : Below M w :=
  fun x hx => h x (List.mem_append_right _ hx)

theorem Below.tail {M : Int} {n : Obs T × Machine T} {w : History T} (h : Below M (n :: w)) : Below M w :=
  fun x hx => h x (List.mem_cons_of_mem _ hx)

namespace Slack

/-- Observations that do not matter, while the ready queue and the priorities stay. -/
theorem notes (h : Slack p s q) {ns : History T} (hns : ∀ n ∈ ns, Unwatched n.1) (hh : s'.hist = ns ++ s.hist)
    (hr : q'.ready = q.ready) (hp : p ∈ q.ready → s'.prio p = s.prio p ∧
      (s'.m.pool.pcbs p).originalPriority = (s.m.pool.pcbs p).originalPriority) : Slack p s' q' := by
  intro w' m₀ hw
  rw [hh, waitOf_append hns] at hw
  obtain ⟨⟨w, m⟩, hw₀, he⟩ := Option.map_eq_some_iff.mp hw
  cases he
  have hl := h w m hw₀
  obtain ⟨hprio, horig⟩ := hp hl.mem
  refine ⟨hr ▸ hl.mem, horig.trans hl.orig, ?_, fun M hM => ?_⟩
  · rw [hprio, expiries_append hns]
    exact hl.prio
  · rw [hr, hh, expiries_append hns, credit_append hns]
    exact hl.bound M hM.of_append

/-- The history is as before. -/
theorem keep (h : Slack p s q) (hh : s'.hist = s.hist) (hr : q'.ready = q.ready)
    (hp : p ∈ q.ready → s'.prio p = s.prio p ∧
      (s'.m.pool.pcbs p).originalPriority = (s.m.pool.pcbs p).originalPriority) : Slack p s' q' := by
  have hns : ∀ n ∈ ([] : History T), Unwatched n.1 := fun n hn => absurd hn List.not_mem_nil
  exact h.notes hns hh hr hp

/-- One observation that does not matter, while the ready queue and the priorities stay. -/
theorem note (h : Slack p s q) {n : Obs T × Machine T} (hn : Unwatched n.1) (hh : s'.hist = n :: s.hist)
    (hr : q'.ready = q.ready) (hp : p ∈ q.ready → s'.prio p = s.prio p ∧
      (s'.m.pool.pcbs p).originalPriority = (s.m.pool.pcbs p).originalPriority) : Slack p s' q' := by
  have hns : ∀ x ∈ [n], Unwatched x.1 := by
    intro x hx
    rw [List.mem_singleton.mp hx]
    exact hn
  exact h.notes hns hh hr hp

theorem push (h : Slack p s q) {o : Obs T} (ho : Unwatched o) : Slack p (s.push o) q :=
  h.note (n := (o, s.m)) ho rfl rfl fun _ => ⟨rfl, rfl⟩

theorem time (h : Slack p s q) (ht : Timed s s') : Slack p s' q := by
  obtain ⟨ns, hns, hn⟩ := ht.hist
  exact h.notes (fun n hm => unwatched_time (hn n hm).1) hns rfl
    fun _ => ⟨ht.same.priority p, ht.same.originalPriority p⟩

/-- A change of a PCB that leaves the priorities alone. -/
theorem setPcb (h : Slack p s q) (r : Pid) {f : Pcb T → Pcb T} (hf : ∀ x, (f x).priority = x.priority)
    (hf' : ∀ x, (f x).originalPriority = x.originalPriority) : Slack p (s.setPcb r f) q :=
  h.keep rfl rfl fun _ => ⟨setPcb_field Pcb.priority s r f hf p, setPcb_field Pcb.originalPriority s r f hf' p⟩

/-- An observation that begins no wait of `p`. -/
theorem step (h : Slack p s q) {n : Obs T × Machine T} (hh : s'.hist = n :: s.hist) (hn : startsWait p n.1 = false)
    (hlag : endsWait p n.1 = false → ∀ w m₀, Lag p s q w m₀ → Lag p s' q' (n :: w) m₀) : Slack p s' q' := by
  intro w' m₀ hw
  have hstep : waitOf p (n :: s.hist) =
      if endsWait p n.1 then none else (waitOf p s.hist).map fun w => (n :: w.1, w.2) := by
    show (if startsWait p n.1 = true then _ else _) = _
    rw [if_neg (by rw [hn]; exact Bool.false_ne_true)]
  rw [hh, hstep] at hw
  cases he : endsWait p n.1 with
  | true =>
    rw [if_pos he] at hw
    cases hw
  | false =>
    rw [if_neg (by rw [he]; exact Bool.false_ne_true)] at hw
    obtain ⟨⟨w, m⟩, hw₀, heq⟩ := Option.map_eq_some_iff.mp hw
    cases heq
    exact hlag he w m (h w m hw₀)

/-- `p`, which was not ready, is enqueued, behind at most all the others. -/
theorem enqueue_self (l : Links Node) (hlen : q.ready.length < maxProc) :
    Slack p (s.enqueued p l) (q.enqueue (s.resetPrio p).prio p) := by
  intro w m₀ hw
  have he : waitOf p (s.enqueued p l).hist = some ([], (s.enqueued p l).m) := if_pos (decide_eq_true rfl)
  rw [he] at hw
  cases hw
  have hmem : p ∈ insertPrio (s.resetPrio p).prio p q.ready := (mem_insertPrio _ p).mpr (Or.inl rfl)
  have horig : ((s.enqueued p l).m.pool.pcbs p).originalPriority = (s.m.pool.pcbs p).originalPriority :=
    resetPrio_field Pcb.originalPriority (fun _ _ => rfl) s p p
  refine ⟨hmem, rfl, ?_, fun M _ => ?_⟩
  · rw [enqueued_prio_self, horig]
    exact (Int.add_zero _).symm
  · have hidx := List.idxOf_lt_length_of_mem hmem
    rw [length_insertPrio] at hidx
    have hcredit := (credit_nonneg (s.enqueued p l).hist).1
    show ((0 : Nat) : Int) + (insertPrio (s.resetPrio p).prio p q.ready).idxOf p ≤ _
    omega

/-- `r`, which was not ready, is enqueued. While fewer slices have ended than `M` exceeds the priority, anybody may
go ahead; after that nobody does. -/
theorem enqueue_ne (h : Slack p s q) (hd : Descending s.prio q.ready) {r : Pid} (hne : r ≠ p) (hr : r ∉ q.ready)
    (l : Links Node) (hlen : q.ready.length < maxProc) (halive : Alive (s.enqueued r l).m r) :
    Slack p (s.enqueued r l) (q.enqueue (s.resetPrio r).prio r) := by
  have hstart : startsWait p (.enqueue r : Obs T) = false := decide_eq_false hne
  apply h.step (n := (.enqueue r, (s.enqueued r l).m)) rfl hstart
  intro _ w m₀ hl
  have hmem : p ∈ insertPrio (s.resetPrio r).prio r q.ready := (mem_insertPrio _ r).mpr (Or.inr hl.mem)
  have horig : ∀ x, ((s.enqueued r l).m.pool.pcbs x).originalPriority = (s.m.pool.pcbs x).originalPriority :=
    resetPrio_field Pcb.originalPriority (fun _ _ => rfl) s r
  have hexp : expiries ((.enqueue r, (s.enqueued r l).m) :: w) = expiries w :=
    List.countP_cons_of_neg Bool.false_ne_true
  have hcredit : credit (s.enqueued r l).hist = credit s.hist := rfl
  refine ⟨hmem, (horig p).trans hl.orig, ?_, fun M hM => ?_⟩
  · rw [enqueued_prio_ne s l (Ne.symm hne), hexp]
    exact hl.prio
  rw [hexp, hcredit]
  show (expiries w : Int) + (insertPrio (s.resetPrio r).prio r q.ready).idxOf p ≤ _
  rcases le_or_gt (expiries w : Int) (max 0 (M - (m₀.pool.pcbs p).originalPriority)) with hle | hgt
  · have hidx := List.idxOf_lt_length_of_mem hmem
    rw [length_insertPrio] at hidx
    have hcredit₀ := (credit_nonneg s.hist).1
    omega
  · -- `p` has grown past all the original priorities
    have hrM : (s.m.pool.pcbs r).originalPriority ≤ M := by
      have hM' := hM _ List.mem_cons_self r halive
      rwa [horig r] at hM'
    have hself : (s.resetPrio r).prio r = (s.m.pool.pcbs r).originalPriority := enqueued_prio_self s r l
    have hother : ∀ x ∈ q.ready, (s.resetPrio r).prio x = s.prio x := fun x hx =>
      enqueued_prio_ne s l fun he => hr (he ▸ hx)
    have hd' : Descending (s.resetPrio r).prio q.ready := by
      apply List.Pairwise.imp_of_mem _ hd
      intro a b ha hb hab
      rw [hother a ha, hother b hb]
      exact hab
    have hle : (s.resetPrio r).prio r ≤ (s.resetPrio r).prio p := by
      rw [hself, hother p hl.mem, hl.prio]
      omega
    rw [idxOf_insertPrio _ hd' hl.mem hne hle]
    exact hl.bound M hM.tail

theorem enqueue (h : Slack p s q) (hd : Descending s.prio q.ready) {r : Pid} (hr : r ∉ q.ready) (l : Links Node)
    (hlen : q.ready.length < maxProc) (halive : Alive (s.enqueued r l).m r) :
    Slack p (s.enqueued r l) (q.enqueue (s.resetPrio r).prio r) := by
  by_cases hp : r = p
  · subst hp
    exact enqueue_self l hlen
  · exact h.enqueue_ne hd hp hr l hlen halive

/-- A slice ends: whoever waits grows older. -/
theorem expire (h : Slack p s q) (hprio : cfg.prio = .exact) (hslice : sliceOver s.hist = false) (r : Pid)
    (st : CpuState T) : Slack p (s.expired cfg q.ready r st) q := by
  apply h.step (n := (.expire, (s.aged cfg q.ready).m)) rfl rfl
  intro _ w m₀ hl
  have hexp : expiries ((.expire, (s.aged cfg q.ready).m) :: w) = expiries w + 1 := List.countP_cons_of_pos rfl
  have hcredit₀ : credit s.hist = 0 := by
    unfold credit
    rw [hslice]
    rfl
  have hcredit : credit (s.expired cfg q.ready r st).hist = 1 := rfl
  have hage : (s.expired cfg q.ready r st).prio p = s.prio p + 1 := by
    refine (setPcb_field Pcb.priority ((s.aged cfg q.ready).push .expire) r (fun x => { x with pS := st })
      (fun _ => rfl) p).trans ?_
    refine (aged_prio hl.mem).trans ?_
    rw [hprio]
    rfl
  have horig : ((s.expired cfg q.ready r st).m.pool.pcbs p).originalPriority = (s.m.pool.pcbs p).originalPriority :=
    (setPcb_field Pcb.originalPriority ((s.aged cfg q.ready).push .expire) r (fun x => { x with pS := st })
      (fun _ => rfl) p).trans (aged_field Pcb.originalPriority (fun _ _ => rfl) cfg s q.ready p)
  refine ⟨hl.mem, horig.trans hl.orig, ?_, fun M hM => ?_⟩
  · have hp := hl.prio
    rw [hage, hexp, Nat.cast_succ]
    omega
  · have hM' := hl.bound M hM.tail
    rw [hexp, hcredit, Nat.cast_succ]
    rw [hcredit₀] at hM'
    omega

/-- The first ready process is dispatched: everybody else moves up. -/
theorem dispatch (h : Slack p s q) {r : Pid} {rest : List Pid} (hr : q.ready = r :: rest) (st : CpuState T) :
    Slack p (s.push (.dispatch r st)) { q with ready := rest } := by
  apply h.step (n := (.dispatch r st, s.m)) rfl rfl
  intro hends w m₀ hl
  have hne : r ≠ p := of_decide_eq_false hends
  have hmem := hl.mem
  rw [hr] at hmem
  have hexp : expiries ((.dispatch r st, s.m) :: w) = expiries w := List.countP_cons_of_neg Bool.false_ne_true
  have hcredit : credit (s.push (.dispatch r st)).hist = 0 := rfl
  refine ⟨(List.mem_cons.mp hmem).resolve_left (Ne.symm hne), hl.orig, ?_, fun M hM => ?_⟩
  · rw [hexp]
    exact hl.prio
  · have hM' := hl.bound M hM.tail
    have hcredit₁ := (credit_nonneg s.hist).2
    rw [hr, List.idxOf_cons_ne _ hne, Nat.cast_succ] at hM'
    rw [hexp, hcredit]
    show (expiries w : Int) + rest.idxOf p ≤ _
    omega

/-- A process is killed, ready or not. -/
theorem bury (h : Slack p s q) (r : Pid) : Slack p (s.push (.bury r)) (q.bury r) := by
  apply h.step (n := (.bury r, s.m)) rfl rfl
  intro hends w m₀ hl
  have hne : r ≠ p := of_decide_eq_false hends
  have hexp : expiries ((.bury r, s.m) :: w) = expiries w := List.countP_cons_of_neg Bool.false_ne_true
  have hcredit : credit (s.push (.bury r)).hist = credit s.hist := rfl
  refine ⟨(List.mem_erase_of_ne (Ne.symm hne)).mpr hl.mem, hl.orig, ?_, fun M hM => ?_⟩
  · rw [hexp]
    exact hl.prio
  · have hM' := hl.bound M hM.tail
    have hidx := idxOf_erase_le hne q.ready
    rw [hexp, hcredit]
    show (expiries w : Int) + (q.ready.erase r).idxOf p ≤ _
    omega

end Slack

/-! ## Every act -/

theorem alive_links {m m' : Machine T} (h : m'.pool.links = m.pool.links) (r : Pid) : Alive m' r ↔ Alive m r := by
  unfold Alive freeList pcbsIn
  rw [h]

/-- A process that is ready is alive. -/
theorem alive_of_ready {out : List Pid} (hs : Sound s.m.pool q out) {r : Pid} (hr : r ∈ q.ready) : Alive s.m r := by
  unfold Alive
  rw [hs.rep.freeList_eq]
  exact ⟨hs.placed.small r (Or.inr (Or.inl hr)), hs.rep.apart.ready_not_free hr⟩

/-- There are no more ready processes than PCBs. -/
theorem ready_length {out : List Pid} (hs : Sound s.m.pool q out) : q.ready.length ≤ maxProc :=
  length_le_of_nodup_lt hs.rep.apart.ready_nodup fun r hr => hs.placed.small r (Or.inr (Or.inl hr))

/-- The room for an enqueueing, read off the state after it. -/
theorem Slack.enqueued (h : Slack p s q) (hd : Descending s.prio q.ready) {r : Pid} (hr : r ∉ q.ready) (l : Links Node)
    {out : List Pid} (hs : Sound s'.m.pool (q.enqueue (s.resetPrio r).prio r) out) (hl : s'.m.pool.links = l) :
    Slack p (s.enqueued r l) (q.enqueue (s.resetPrio r).prio r) := by
  have hmem : r ∈ (q.enqueue (s.resetPrio r).prio r).ready := (mem_insertPrio _ r).mpr (Or.inl rfl)
  have halive : Alive s'.m r := alive_of_ready hs hmem
  have hlen : (insertPrio (s.resetPrio r).prio r q.ready).length ≤ maxProc := ready_length hs
  rw [length_insertPrio] at hlen
  exact h.enqueue hd hr l (by omega) ((alive_links (m := s'.m) hl.symm r).mpr halive)

theorem Slack.popped (h : Slack p s q) (key : Key) (r : Pid) (rest : List Pid) (l : Links Node) :
    Slack p (s.popped r l) (q.setWaiting key rest) :=
  h.keep rfl rfl fun _ => ⟨popped_field Pcb.priority (fun _ _ => rfl) s r l p,
    popped_field Pcb.originalPriority (fun _ _ => rfl) s r l p⟩

theorem slack_act {out out' : List Pid} (hprio : cfg.prio = .exact) (hs : Sound s.m.pool q out)
    (hs' : Sound s'.m.pool q' out') (ha : Act cfg s q s' q') (ho : InOrder s q) (h : Slack p s q) : Slack p s' q' := by
  obtain ⟨asl, sf, hrep⟩ := hs.rep
  have hwait : ∀ {key r rest}, q.waiting key = r :: rest → r ∉ q.ready := fun hw =>
    hrep.waiting_not_ready (hw ▸ List.mem_cons_self)
  cases ha with
  | time ht => exact h.time ht
  | areas => exact h.keep rfl rfl fun _ => ⟨rfl, rfl⟩
  | output => exact h.keep rfl rfl fun _ => ⟨rfl, rfl⟩
  | register r new old => exact h.setPcb r (fun _ => rfl) fun _ => rfl
  | resume => exact h.push trivial
  | passUp => exact h.push trivial
  | idle => exact h.push trivial
  | @preempt _ r st l _ hnq _ _ hslice =>
    have hr : r ∉ q.ready := fun hm => hnq (Or.inr (Or.inl hm))
    exact (h.expire hprio hslice r st).enqueued (ho.expired (agesWell_exact hprio _) r st).descending hr l hs' rfl
  | @dispatch s₂ _ r rest l hr ht =>
    have h₁ : Slack p (((s.push .run).relink l).setCurrent (some r)) q :=
      h.note (n := (.run, s.m)) trivial rfl rfl fun _ => ⟨rfl, rfl⟩
    exact (h₁.time ht).dispatch hr _
  | @block s₁ s₂ _ r key st pool _ _ _ hb ht hpool =>
    obtain ⟨hpool₁, -, -, -, -, -, -⟩ := hb.same
    have h₁ : Slack p s₁ q := by
      have hpri : s₁.prio p = s.prio p ∧
          (s₁.m.pool.pcbs p).originalPriority = (s.m.pool.pcbs p).originalPriority := by
        unfold KState.prio
        rw [hpool₁]
        exact ⟨rfl, rfl⟩
      cases hb with
      | passeren => exact h.push (o := .passeren key false) trivial
      | waitIo command device subdev _ =>
        refine h.note (n := (.waitIo r (commandAddr T device subdev) command, s.m)) trivial ?_ rfl fun _ => hpri
        rw [commanded_hist]
        rfl
    have h₂ : Slack p s₂ q := (h₁.setPcb r (f := fun x => { x with pS := st }) (fun _ => rfl) fun _ => rfl).time ht
    let n : Obs T × Machine T := (.block r key false, { s₂.m with pool := pool, currentProc := none })
    have hn : Unwatched n.1 := trivial
    have hhist : (s₂.blockedOn pool r key).hist = n :: s₂.hist := rfl
    refine h₂.note hn hhist rfl fun _ => ?_
    show (pool.pcbs p).priority = _ ∧ (pool.pcbs p).originalPriority = _
    rw [hpool]
    have hkey := setPcb_field (T := T) (fun x => (x.priority, x.originalPriority)) s₂ r
      (fun x => { x with pSemkey := key }) (fun _ => rfl) p
    exact Prod.mk.inj hkey
  | @handOver _ key r rest l l' _ hw =>
    have h₁ : Slack p ((s.popped r l).push (.verhogen key (some r))) (q.setWaiting key rest) :=
      (h.popped key r rest l).push trivial
    exact h₁.enqueued (ho.popped key r rest l).descending (hwait hw) l' hs' rfl
  | verhogen => exact h.note (n := (.verhogen _ none, _)) trivial rfl rfl fun _ => ⟨rfl, rfl⟩
  | passeren => exact h.note (n := (.passeren _ true, _)) trivial rfl rfl fun _ => ⟨rfl, rfl⟩
  | @serve _ f addr r rest l l' _ hfn hw =>
    rw [commanded_fn hfn] at hs' ⊢
    have h₁ := (h.popped (devKey cfg f) r rest l).enqueued (ho.popped (devKey cfg f) r rest l).descending
      (hwait hw) l' hs' rfl
    have h₂ := h₁.setPcb r (f := fun x => { x with pS := x.pS.setReturn (s.m.hw.status f) }) (fun _ => rfl) fun _ => rfl
    have h₃ := h₂.push (o := .complete (devKey cfg f) r (s.m.hw.status f)) trivial
    exact h₃.note (n := (.ack addr, _)) trivial rfl rfl fun _ => ⟨rfl, rfl⟩
  | @spawn _ r rest st prio l l' hf =>
    have hr : r ∉ q.ready := fun hm => hrep.ready_not_free hm (hf ▸ List.mem_cons_self)
    have h₁ : Slack p (s.spawned r l st prio) (q.alloc r) := by
      refine h.note (n := (.create r st, _)) trivial rfl rfl fun hp => ?_
      have hne : p ≠ r := fun he => hr (he ▸ hp)
      unfold KState.prio
      rw [spawned_pcbs, if_neg hne]
      exact ⟨rfl, rfl⟩
    exact h₁.enqueued (ho.spawned hr l st prio).descending hr l' hs' rfl
  | @adopt _ parent r l =>
    have h₁ := h.setPcb r (f := fun x => { x with pParent := some parent }) (fun _ => rfl) fun _ => rfl
    exact h₁.keep rfl rfl fun _ => ⟨rfl, rfl⟩
  | quit => exact h.keep rfl rfl fun _ => ⟨rfl, rfl⟩
  | @bury _ r pool _ _ _ hpool =>
    have h₁ : Slack p (s.setPool pool) q := by
      refine h.keep rfl rfl fun _ => ?_
      show (pool.pcbs p).priority = _ ∧ (pool.pcbs p).originalPriority = _
      rw [hpool]
      have hpar := setPcb_field (T := T) (fun x => (x.priority, x.originalPriority)) s r
        (fun x => { x with pParent := none }) (fun _ => rfl) p
      exact Prod.mk.inj hpar
    exact h₁.bury r

/-! ## The points of a history -/

/-- A slice that ends finds no process that has waited for too long, and no process is enqueued twice. -/
def Patient (n : Obs T × Machine T) (earlier : History T) : Prop :=
  match n.1 with
  | .expire => ∀ p w m₀ M, waitOf p (n :: earlier) = some (w, m₀) → Below M w →
      (expiries w : Int) ≤ max 0 (M - (m₀.pool.pcbs p).originalPriority) + maxProc
  | .enqueue p => waitOf p earlier = none
  | _ => True

theorem patient_time (n : Obs T × Machine T) (h : History T) (hn : IsTime n.1) : Patient n h := by
  obtain ⟨o, m⟩ := n
  cases o <;> first | exact hn.elim | exact trivial

/-- Who is not ready does not wait. -/
theorem waitOf_none (h : Slack p s q) (hp : p ∉ q.ready) : waitOf p s.hist = none := by
  cases hw : waitOf p s.hist with
  | none => rfl
  | some w => exact absurd (h w.1 w.2 hw).mem hp

theorem patient_expire (hprio : cfg.prio = .exact) (h : ∀ p, Slack p s q) (hslice : sliceOver s.hist = false) (r : Pid)
    (st : CpuState T) : Patient (.expire, (s.aged cfg q.ready).m) s.hist := by
  intro p w m₀ M hw hM
  have hl := (h p).expire hprio hslice r st w m₀ hw
  have hbound := hl.bound M hM
  have hcredit : credit (s.expired cfg q.ready r st).hist = 1 := rfl
  rw [hcredit] at hbound
  omega

theorem patient_act {out : List Pid} (hprio : cfg.prio = .exact) (hs : Sound s.m.pool q out)
    (ha : Act cfg s q s' q') (hsl : ∀ p, Slack p s q) (h : Always Patient s.hist) : Always Patient s'.hist := by
  obtain ⟨asl, sf, hrep⟩ := hs.rep
  have hwait : ∀ {key r rest}, q.waiting key = r :: rest → r ∉ q.ready := fun hw =>
    hrep.waiting_not_ready (hw ▸ List.mem_cons_self)
  cases ha with
  | time ht => exact ht.always patient_time h
  | areas => exact h
  | output => exact h
  | register => exact h
  | resume => exact ⟨trivial, h⟩
  | passUp => exact ⟨trivial, h⟩
  | idle => exact ⟨trivial, h⟩
  | @preempt _ r st l _ hnq _ _ hslice =>
    have hr : r ∉ q.ready := fun hm => hnq (Or.inr (Or.inl hm))
    have hnone : waitOf r (s.expired cfg q.ready r st).hist = none := waitOf_none ((hsl r).expire hprio hslice r st) hr
    exact ⟨hnone, patient_expire hprio hsl hslice r st, h⟩
  | dispatch _ ht =>
    have h₁ : Always Patient (s.push .run).hist := ⟨trivial, h⟩
    exact ⟨trivial, ht.always patient_time h₁⟩
  | @block s₁ s₂ _ r key st pool _ _ _ hb ht =>
    have h₁ : Always Patient s₁.hist := by
      cases hb with
      | passeren => exact ⟨trivial, h⟩
      | waitIo command device subdev _ =>
        rw [commanded_hist]
        exact ⟨trivial, h⟩
    exact ⟨trivial, ht.always patient_time h₁⟩
  | @handOver _ key r rest l l' _ hw =>
    have h₁ : Slack r ((s.popped r l).push (.verhogen key (some r))) (q.setWaiting key rest) :=
      ((hsl r).popped key r rest l).push trivial
    have hnone : waitOf r ((s.popped r l).push (.verhogen key (some r))).hist = none := waitOf_none h₁ (hwait hw)
    exact ⟨hnone, trivial, h⟩
  | verhogen => exact ⟨trivial, h⟩
  | passeren => exact ⟨trivial, h⟩
  | @serve _ f addr r rest l l' _ hfn hw =>
    rw [commanded_fn hfn]
    have hnone : waitOf r (s.popped r l).hist = none :=
      waitOf_none ((hsl r).popped (devKey cfg f) r rest l) (hwait hw)
    exact ⟨trivial, trivial, hnone, h⟩
  | @spawn _ r rest st prio l l' hf =>
    have hr : r ∉ q.ready := fun hm => hrep.ready_not_free hm (hf ▸ List.mem_cons_self)
    have hnone : waitOf r (s.spawned r l st prio).hist = none := by
      show (waitOf r s.hist).map _ = none
      rw [waitOf_none (hsl r) hr]
      rfl
    exact ⟨hnone, trivial, h⟩
  | adopt => exact h
  | quit => exact h
  | bury => exact ⟨trivial, h⟩

/-! ## A wait -/

/-- A wait is what `waitOf` finds. -/
theorem waitOf_wait {earlier wait : History T} {m₀ : Machine T}
    (h : Always Patient (wait ++ (.enqueue p, m₀) :: earlier)) (hw : ∀ n ∈ wait, endsWait p n.1 = false) :
    waitOf p (wait ++ (.enqueue p, m₀) :: earlier) = some (wait, m₀) := by
  induction wait with
  | nil => exact if_pos (decide_eq_true rfl)
  | cons n wait ih =>
    have htail := ih h.2 fun x hx => hw x (List.mem_cons_of_mem _ hx)
    have hstart : startsWait p n.1 = false := by
      by_contra hne
      obtain ⟨o, m⟩ := n
      cases o with
      | enqueue r =>
        have hr : r = p := of_decide_eq_true (eq_true_of_ne_false hne)
        have hnone : waitOf r (wait ++ (.enqueue p, m₀) :: earlier) = none := h.1
        rw [hr, htail] at hnone
        cases hnone
      | _ => exact hne rfl
    show (if startsWait p n.1 = true then _ else if endsWait p n.1 = true then none else _) = _
    rw [hstart, hw n List.mem_cons_self, if_neg Bool.false_ne_true, if_neg Bool.false_ne_true]
    show (waitOf p (wait ++ (.enqueue p, m₀) :: earlier)).map _ = _
    rw [htail]
    rfl

theorem waitOf_split {h w : History T} {m₀ : Machine T} (hw : waitOf p h = some (w, m₀)) :
    ∃ earlier, h = w ++ (.enqueue p, m₀) :: earlier ∧ ∀ n ∈ w, endsWait p n.1 = false := by
  induction h generalizing w with
  | nil => cases hw
  | cons n h ih =>
    unfold waitOf at hw
    split at hw
    · rename_i hs
      obtain ⟨o, m⟩ := n
      cases hw
      cases o with
      | enqueue r =>
        obtain rfl : r = p := of_decide_eq_true hs
        exact ⟨h, rfl, fun _ hm => by cases hm⟩
      | _ => cases hs
    split at hw
    · cases hw
    · rename_i hends
      obtain ⟨⟨w', m⟩, hw', he⟩ := Option.map_eq_some_iff.mp hw
      cases he
      obtain ⟨earlier, rfl, htail⟩ := ih hw'
      refine ⟨earlier, rfl, fun x hx => ?_⟩
      rcases List.mem_cons.mp hx with rfl | hx
      · exact eq_false_of_ne_true hends
      · exact htail x hx

/-- Only the ends of slices need to be looked at. -/
theorem expiries_le {earlier wait : History T} {m₀ : Machine T} {M : Int}
    (h : Always Patient (wait ++ (.enqueue p, m₀) :: earlier)) (hw : ∀ n ∈ wait, endsWait p n.1 = false)
    (hM : Below M wait) : (expiries wait : Int) ≤ max 0 (M - (m₀.pool.pcbs p).originalPriority) + maxProc := by
  induction wait with
  | nil =>
    show ((0 : Nat) : Int) ≤ _
    omega
  | cons n wait ih =>
    have hwait := waitOf_wait h hw
    have htail := ih h.2 (fun x hx => hw x (List.mem_cons_of_mem _ hx)) hM.tail
    by_cases hn : isExpire n.1 = true
    · obtain ⟨o, m⟩ := n
      cases o with
      | expire => exact h.1 p _ _ M hwait hM
      | _ => cases hn
    · have hexp : expiries (n :: wait) = expiries wait := List.countP_cons_of_neg hn
      rw [hexp]
      exact htail

end

/-! ## Runs -/

/-- The invariant of the runs. -/
structure Waiting (s : KState T) (q : Queues) : Prop where
  order : InOrder s q
  slack : ∀ p, Slack p s q
  points : Always Patient s.hist

theorem Waiting.init {s : KState T} {q : Queues} (h : Initial cfg s q) : Waiting s q where
  order := by
    unfold InOrder
    rw [h.queues]
    exact List.Pairwise.nil
  slack p w m₀ hw := by
    rw [h.hist] at hw
    cases hw
  points := by
    rw [h.hist]
    exact trivial

theorem Waiting.act {s s' : KState T} {q q' : Queues} {out out' : List Pid} (hprio : cfg.prio = .exact)
    (hs : Sound s.m.pool q out) (hs' : Sound s'.m.pool q' out') (ha : Act cfg s q s' q') (h : Waiting s q) :
    Waiting s' q' where
  order := inOrder_act hs ha (fun _ _ _ _ _ _ => agesWell_exact hprio _) h.order
  slack p := slack_act hprio hs hs' ha h.order (h.slack p)
  points := patient_act hprio hs ha h.slack h.points

/-- From its enqueueing on until it is dispatched or killed a process sees a bounded number of slices end. -/
theorem wait_bounded {s : KState T} (hprio : cfg.prio = .exact) (h : Run cfg (Lawful cfg) s) {p : Pid}
    {later wait earlier : History T} {m₀ : Machine T} {M : Int}
    (hhist : s.hist = later ++ wait ++ (.enqueue p, m₀) :: earlier) (hwait : ∀ n ∈ wait, endsWait p n.1 = false)
    (hM : Below M wait) :
    (expiries wait : Int) ≤ max 0 (M - (m₀.pool.pcbs p).originalPriority) + maxProc := by
  have hentry : ∀ {s : KState T} {q : Queues} {e : Entry T}, Between s q → Lawful cfg s e →
      Waiting s q → Waiting (s.entered e) q := by
    intro s q e _ _ h
    refine ⟨h.order, fun p => ?_, trivial, h.points⟩
    exact (h.slack p).note (n := (.entry e, (s.entered e).m)) trivial rfl rfl fun _ => ⟨rfl, rfl⟩
  obtain ⟨q, _, hi⟩ := run_keeps id .init hentry (Waiting.act hprio) h
  have hpoints := hi.points
  rw [hhist, List.append_assoc] at hpoints
  exact expiries_le hpoints.drop hwait hM

/-- The demo with exact priorities. -/
def exactDemo : Cfg .umps := { demo with prio := .exact }

/-- The first process has created a child of priority -5. -/
def lowForked : KState .umps := after exactDemo (booted exactDemo) (syscall (booted exactDemo) 2 0 (-5) 0)

/-- A slice has ended, and the child still waits. -/
def lowWaits : KState .umps := after exactDemo lowForked (timer lowForked)

theorem wait_bounded_lowWaits : ∃ w m₀, waitOf 18 lowWaits.hist = some (w, m₀) ∧ expiries w = 1 ∧
    (expiries w : Int) ≤ max 0 (1 - (m₀.pool.pcbs 18).originalPriority) + maxProc := by
  have h₁ : Run exactDemo (Lawful exactDemo) lowForked :=
    run_after (run_booted exactDemo _) (lawful_of_check (by decide +kernel)) (by decide +kernel)
  have h₂ : Run exactDemo (Lawful exactDemo) lowWaits :=
    run_after h₁ (lawful_of_check (by decide +kernel)) (by decide +kernel)
  have hwait : (waitOf 18 lowWaits.hist).any (fun w => decide (expiries w.1 = 1 ∧
      ∀ n ∈ w.1, ∀ r < maxProc, r ∉ freeList n.2 → (n.2.pool.pcbs r).originalPriority ≤ 1)) = true := by
    decide +kernel
  obtain ⟨⟨w, m₀⟩, hw, hd⟩ := (Option.any_eq_true _ _).mp hwait
  obtain ⟨hone, hlow⟩ := of_decide_eq_true hd
  obtain ⟨earlier, hhist, hends⟩ := waitOf_split hw
  have hM : Below 1 w := fun n hn r hr => hlow n hn r hr.1 hr.2
  have hhist : lowWaits.hist = [] ++ w ++ (.enqueue 18, m₀) :: earlier := hhist
  exact ⟨w, m₀, hw, hone, wait_bounded rfl h₂ hhist hends hM⟩

end Bikaya.Results
