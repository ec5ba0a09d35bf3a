import Bikaya.Kernel.Accounting

/-!
# What acts add to the history

Commands leave the history alone, accounting adds nothing that matters (`Timed.always`), and what is read
off the entries stays as it is (`Act.reading_eq`).
-/

namespace Bikaya.Kernel
open Bikaya.Lib Bikaya.Model Bikaya.Spec

variable {T : Target} {cfg : Cfg T}

/-! ## What a change of a PCB leaves alone -/

theorem setPcb_self (s : KState T) (p : Pid) (f : Pcb T → Pcb T) :
    (s.setPcb p f).m.pool.pcbs p = f (s.m.pool.pcbs p) := Function.update_self _ _ _

theorem setPcb_ne (s : KState T) {p r : Pid} (f : Pcb T → Pcb T) (hr : r ≠ p) :
    (s.setPcb p f).m.pool.pcbs r = s.m.pool.pcbs r := Function.update_of_ne hr _ _

/-- A field that the change does not touch. -/
theorem setPcb_field {α : Type} (get : Pcb T → α) (s : KState T) (p : Pid) (f : Pcb T → Pcb T)
    (hf : ∀ x, get (f x) = get x) (r : Pid) : get ((s.setPcb p f).m.pool.pcbs r) = get (s.m.pool.pcbs r) := by
  by_cases hr : r = p
  · subst hr
    rw [setPcb_self, hf]
  · rw [setPcb_ne s f hr]

theorem resetPrio_field {α : Type} (get : Pcb T → α) (hget : ∀ x n, get { x with priority := n } = get x)
    (s : KState T) (p r : Pid) : get ((s.resetPrio p).m.pool.pcbs r) = get (s.m.pool.pcbs r) :=
  setPcb_field get s p _ (fun x => hget x x.originalPriority) r

theorem popped_field {α : Type} (get : Pcb T → α) (hget : ∀ x k, get { x with pSemkey := k } = get x)
    (s : KState T) (p : Pid) (l : Links Node) (r : Pid) :
    get ((s.popped p l).m.pool.pcbs r) = get (s.m.pool.pcbs r) :=
  setPcb_field get s p _ (fun x => hget x 0) r

/-- A field that aging does not touch. -/
theorem aged_field {α : Type} (get : Pcb T → α) (hget : ∀ x n, get { x with priority := n } = get x) (cfg : Cfg T)
    (s : KState T) (xs : List Pid) (r : Pid) : get ((s.aged cfg xs).m.pool.pcbs r) = get (s.m.pool.pcbs r) := by
  change get (agePcbs cfg.prio xs s.m.pool.pcbs r) = _
  unfold agePcbs
  split
  · exact hget _ _
  · rfl

theorem spawned_pcbs (s : KState T) (p : Pid) (l : Links Node) (st : CpuState T) (prio : Int) (r : Pid) :
    (s.spawned p l st prio).m.pool.pcbs r =
      if r = p then { (Pcb.zero : Pcb T) with pS := st, originalPriority := prio } else s.m.pool.pcbs r := by
  unfold KState.spawned KState.setPcb KState.relink KState.setPool KState.push
  by_cases hr : r = p
  · subst hr
    simp only [Function.update_self, if_true]
  · simp only [Function.update_of_ne hr, if_neg hr]

/-! ## Commands -/

/-- The states after a process was taken from its waiting list and made ready. -/
theorem woken_pS (s : KState T) (p : Pid) (l l' : Links Node) (status : Word) (r : Pid) :
    ((((s.popped p l).enqueued p l').setPcb p fun x => { x with pS := x.pS.setReturn status }).m.pool.pcbs r).pS =
      if r = p then (s.m.pool.pcbs r).pS.setReturn status else (s.m.pool.pcbs r).pS := by
  by_cases hr : r = p
  · subst hr
    simp [KState.popped, KState.enqueued, KState.resetPrio, KState.setPcb, KState.relink, KState.setPool, KState.push]
  · simp [KState.popped, KState.enqueued, KState.resetPrio, KState.setPcb, KState.relink, KState.setPool, KState.push,
      hr]

/-- The end of a time slice of `p` leaves the states of the others. -/
theorem expired_pS (cfg : Cfg T) (s : KState T) (xs : List Pid) (l : Links Node) (st : CpuState T) {p r : Pid}
    (hr : r ≠ p) :
    (((s.expired cfg xs p st).enqueued p l).m.pool.pcbs r).pS = (s.m.pool.pcbs r).pS := by
  have hage : (agePcbs cfg.prio xs s.m.pool.pcbs r).pS = (s.m.pool.pcbs r).pS := by
    unfold agePcbs
    split <;> rfl
  simp only [KState.expired, KState.enqueued, KState.resetPrio, KState.aged, KState.setPcb, KState.relink, KState.setPool,
    KState.push, Function.update_of_ne hr]
  exact hage

theorem commanded_hist (s : KState T) (addr cmd : Word) : (s.commanded addr cmd).hist = s.hist := by
  unfold KState.commanded
  split <;> rfl

theorem commanded_fn {addr : Word} {f : DevFn} (hf : Hw.fnAt T addr = some f) (cmd : Word) (s : KState T) :
    s.commanded addr cmd = { s with m := { s.m with hw := s.m.hw.issue f cmd } } := by
  unfold KState.commanded
  rw [hf]

theorem Blocking.same {s : KState T} {p : Pid} {key : Key} {s₁ : KState T} (hb : Blocking cfg s p key s₁) :
    s₁.m.pool = s.m.pool ∧ s₁.m.currentProc = s.m.currentProc ∧ s₁.m.oldAreas = s.m.oldAreas ∧
      s₁.m.oldState = s.m.oldState ∧ lastEntry s₁.hist = lastEntry s.hist ∧
      sliceOver s₁.hist = sliceOver s.hist ∧ ∀ r, context r s₁.hist = context r s.hist := by
  cases hb with
  | passeren => exact ⟨rfl, rfl, rfl, rfl, rfl, rfl, fun _ => rfl⟩
  | waitIo command device subdev _ =>
    unfold KState.commanded
    cases Hw.fnAt T (commandAddr T device subdev) <;> exact ⟨rfl, rfl, rfl, rfl, rfl, rfl, fun _ => rfl⟩

/-! ## The history -/

/-- A property that points of accounting have anyway. -/
theorem Timed.always {P : Obs T × Machine T → History T → Prop} (hP : ∀ n h, IsTime n.1 → P n h)
    {s s' : KState T} (ht : Timed s s') (h : Always P s.hist) : Always P s'.hist := by
  obtain ⟨ns, hns, hn⟩ := ht.hist
  rw [hns]
  exact Always.append (fun n hm _ => hP n _ (hn n hm).1) h

/-- The observation is a kernel entry. -/
def Enters : Obs T → Prop
  | .entry _ => True
  | _ => False

theorem not_enters_time {o : Obs T} (ho : IsTime o) : ¬ Enters o := by
  cases o <;> first | exact ho.elim | exact id

/-- Only the hardware enters the kernel: what is read off the entries stays. -/
theorem Act.reading_eq {α : Type} {g : History T → α} (hg : ∀ n h, ¬ Enters n.1 → g (n :: h) = g h)
    {s s' : KState T} {q q' : Queues} (ha : Act cfg s q s' q') : g s'.hist = g s.hist := by
  have htime : ∀ {s s' : KState T}, Timed s s' → g s'.hist = g s.hist := fun ht =>
    ht.reading fun n h hn => hg n h (not_enters_time hn)
  cases ha with
  | time ht => exact htime ht
  | areas => rfl
  | output => rfl
  | register => rfl
  | resume => exact hg _ _ id
  | passUp => exact hg _ _ id
  | idle => exact hg _ _ id
  | preempt => exact (hg _ _ id).trans (hg _ _ id)
  | dispatch _ ht => exact (hg _ _ id).trans ((htime ht).trans (hg _ _ id))
  | block _ _ _ hb ht =>
    refine (hg _ _ id).trans ((htime ht).trans ?_)
    cases hb with
    | passeren => exact hg _ _ id
    | waitIo command device subdev _ =>
      exact (congrArg g (commanded_hist _ _ _)).trans (hg _ _ id)
  | handOver => exact (hg _ _ id).trans (hg _ _ id)
  | verhogen => exact hg _ _ id
  | passeren => exact hg _ _ id
  | serve =>
    refine (hg _ _ id).trans ?_
    rw [commanded_hist]
    exact (hg _ _ id).trans (hg _ _ id)
  | spawn => exact (hg _ _ id).trans (hg _ _ id)
  | adopt => rfl
  | quit => rfl
  | bury => exact hg _ _ id

theorem Act.lastEntry_eq {s s' : KState T} {q q' : Queues} (ha : Act cfg s q s' q') :
    lastEntry s'.hist = lastEntry s.hist := by
  refine ha.reading_eq fun n h hn => ?_
  obtain ⟨o, m⟩ := n
  cases o <;> first | rfl | exact absurd trivial hn

/-- The current process, which made the last entry, blocks on `key`. -/
structure Blocks (cfg : Cfg T) (s : KState T) (p : Pid) (key : Key) : Prop where
  blocking : ∃ s₁, Blocking cfg s p key s₁
  current : s.m.currentProc = some p
  entry : ∃ e m, lastEntry s.hist = some (e, m) ∧ m.currentProc = some p

end Bikaya.Kernel
