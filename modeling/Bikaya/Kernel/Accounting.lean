import Bikaya.Kernel.Act

/-!
# Accounting changes nothing else

`Timed` as a relation, what it leaves alone (the lists, the readings of the history), and `TimeOnly` : a
program that always returns and does nothing but accounting, such as `scheduler_account_time`.
-/

namespace Bikaya.Kernel
open Bikaya.Lib Bikaya.Model Bikaya.Spec Bikaya.Refine Bikaya.Model.KM

variable {T : Target}

/-! ## The relations -/

namespace SameButTime

theorem refl (m : Machine T) : SameButTime m m := ⟨rfl, rfl, fun _ => rfl, rfl, rfl, rfl, rfl, rfl, rfl⟩

theorem trans {m₁ m₂ m₃ : Machine T} (h : SameButTime m₁ m₂) (h' : SameButTime m₂ m₃) : SameButTime m₁ m₃ :=
  ⟨h'.links.trans h.links, h'.sKey.trans h.sKey, fun p => (h'.pcbs p).trans (h.pcbs p),
    h'.currentProc.trans h.currentProc, h'.idleProcState.trans h.idleProcState,
    h'.oldAreas.trans h.oldAreas, h'.oldState.trans h.oldState, h'.mem.trans h.mem, h'.hw.trans h.hw⟩

variable {m m' : Machine T} (h : SameButTime m m')
include h

/-- A field of a PCB that is not a time. -/
theorem field {α : Type} (get : Pcb T → α) (hget : ∀ x, get (timeless x) = get x) (p : Pid) :
    get (m'.pool.pcbs p) = get (m.pool.pcbs p) := by
  rw [← hget, h.pcbs p, hget]

theorem pS (p : Pid) : (m'.pool.pcbs p).pS = (m.pool.pcbs p).pS := h.field Pcb.pS (fun _ => rfl) p

theorem priority (p : Pid) : (m'.pool.pcbs p).priority = (m.pool.pcbs p).priority :=
  h.field Pcb.priority (fun _ => rfl) p

theorem originalPriority (p : Pid) : (m'.pool.pcbs p).originalPriority = (m.pool.pcbs p).originalPriority :=
  h.field Pcb.originalPriority (fun _ => rfl) p

theorem pParent (p : Pid) : (m'.pool.pcbs p).pParent = (m.pool.pcbs p).pParent :=
  h.field Pcb.pParent (fun _ => rfl) p

theorem pSemkey (p : Pid) : (m'.pool.pcbs p).pSemkey = (m.pool.pcbs p).pSemkey :=
  h.field Pcb.pSemkey (fun _ => rfl) p

theorem excNewAreas (p : Pid) : (m'.pool.pcbs p).excNewAreas = (m.pool.pcbs p).excNewAreas :=
  h.field Pcb.excNewAreas (fun _ => rfl) p

theorem excOldAreas (p : Pid) : (m'.pool.pcbs p).excOldAreas = (m.pool.pcbs p).excOldAreas :=
  h.field Pcb.excOldAreas (fun _ => rfl) p

theorem rep {q : Queues} (hr : Rep m.pool q) : Rep m'.pool q := by
  have hr' : Rep { m.pool with pcbs := m'.pool.pcbs } q := hr.setPcbs h.pParent h.pSemkey
  rwa [show ({ m.pool with pcbs := m'.pool.pcbs } : Pool T) = m'.pool from by
    cases hm : m'.pool
    have hl := h.links
    have hk := h.sKey
    rw [hm] at hl hk
    simp only at hl hk
    rw [hl, hk]] at hr'

theorem sound {q : Queues} {out : List Pid} (hs : Sound m.pool q out) : Sound m'.pool q out :=
  ⟨h.rep hs.rep, hs.placed, hs.tree⟩

end SameButTime

namespace Timed

theorem refl (s : KState T) : Timed s s := ⟨.refl s.m, [], rfl, fun _ h => by cases h⟩

theorem trans {s₁ s₂ s₃ : KState T} (h : Timed s₁ s₂) (h' : Timed s₂ s₃) : Timed s₁ s₃ := by
  obtain ⟨ns, hns, ht⟩ := h.hist
  obtain ⟨ns', hns', ht'⟩ := h'.hist
  refine ⟨h.same.trans h'.same, ns' ++ ns, by rw [hns', hns, List.append_assoc], fun n hn => ?_⟩
  rcases List.mem_append.mp hn with hn | hn
  · exact ⟨(ht' n hn).1, h.same.trans (ht' n hn).2⟩
  · exact ht n hn

/-- A change of the machine. -/
theorem machine {s : KState T} {m : Machine T} (h : SameButTime s.m m) : Timed s { s with m := m } :=
  ⟨h, [], rfl, fun _ h => by cases h⟩

/-- An observation. -/
theorem push {s : KState T} {o : Obs T} (ho : IsTime o) : Timed s (s.push o) :=
  ⟨.refl s.m, [(o, s.m)], rfl, fun n hn => by
    rw [List.mem_singleton] at hn
    subst hn
    exact ⟨ho, .refl s.m⟩⟩

/-- A change of the times of a PCB. -/
theorem setPcb (s : KState T) (p : Pid) {f : Pcb T → Pcb T} (hf : ∀ x, timeless (f x) = timeless x) :
    Timed s (s.setPcb p f) := by
  refine machine ⟨rfl, rfl, fun r => ?_, rfl, rfl, rfl, rfl, rfl, rfl⟩
  change timeless (Function.update s.m.pool.pcbs p (f (s.m.pool.pcbs p)) r) = _
  by_cases hr : r = p
  · subst hr
    rw [Function.update_self, hf]
  · rw [Function.update_of_ne hr]

end Timed

/-! ## The readings of the history -/

section History
variable {h : History T} {n : Obs T × Machine T}

theorem lastEntry_time (hn : IsTime n.1) : lastEntry (n :: h) = lastEntry h := by
  obtain ⟨o, m⟩ := n
  cases o <;> first | rfl | exact hn.elim

theorem context_time (hn : IsTime n.1) (p : Pid) : context p (n :: h) = context p h := by
  obtain ⟨o, m⟩ := n
  cases o <;> first | rfl | exact hn.elim

theorem sliceOver_time (hn : IsTime n.1) : sliceOver (n :: h) = sliceOver h := by
  obtain ⟨o, m⟩ := n
  cases o <;> first | rfl | exact hn.elim

theorem enqueuedAt_time (hn : IsTime n.1) (p : Pid) : enqueuedAt p (n :: h) = enqueuedAt p h := by
  obtain ⟨o, m⟩ := n
  cases o <;> first | rfl | exact hn.elim

theorem lastRun_time (hn : IsTime n.1) : lastRun (n :: h) = lastRun h := by
  obtain ⟨o, m⟩ := n
  cases o <;> first | rfl | exact hn.elim

/-- A reading of the history that passes over the observations of accounting. -/
theorem reading_append {α : Type} {g : History T → α} (hg : ∀ n h, IsTime n.1 → g (n :: h) = g h)
    {ns : History T} (hns : ∀ n ∈ ns, IsTime n.1) : g (ns ++ h) = g h := by
  induction ns with
  | nil => rfl
  | cons n ns ih =>
    rw [List.cons_append, hg n _ (hns n List.mem_cons_self)]
    exact ih fun x hx => hns x (List.mem_cons_of_mem _ hx)

end History

namespace Timed
variable {s s' : KState T} (h : Timed s s')
include h

theorem reading {α : Type} {g : History T → α} (hg : ∀ n h, IsTime n.1 → g (n :: h) = g h) :
    g s'.hist = g s.hist := by
  obtain ⟨ns, hns, ht⟩ := h.hist
  rw [hns]
  exact reading_append hg fun n hn => (ht n hn).1

theorem lastEntry_eq : lastEntry s'.hist = lastEntry s.hist := h.reading fun _ _ => lastEntry_time

theorem context_eq (p : Pid) : context p s'.hist = context p s.hist := h.reading fun _ _ hn => context_time hn p

theorem sliceOver_eq : sliceOver s'.hist = sliceOver s.hist := h.reading fun _ _ => sliceOver_time

theorem enqueuedAt_eq (p : Pid) : enqueuedAt p s'.hist = enqueuedAt p s.hist :=
  h.reading fun _ _ hn => enqueuedAt_time hn p

theorem lastRun_eq : lastRun s'.hist = lastRun s.hist := h.reading fun _ _ => lastRun_time

end Timed

/-! ## Programs -/

/-- The program returns, and does nothing but accounting. -/
def TimeOnly {α : Type} (x : KM T α) : Prop := ∀ s, ∃ a s', x s = .ret a s' ∧ Timed s s'

namespace TimeOnly
variable {α β : Type}

theorem pure (a : α) : TimeOnly (Pure.pure a : KM T α) := fun _ => ⟨a, _, rfl, .refl _⟩

theorem bind {x : KM T α} {f : α → KM T β} (hx : TimeOnly x) (hf : ∀ a, TimeOnly (f a)) :
    TimeOnly (x >>= f) := by
  intro s
  obtain ⟨a, s₁, h₁, ht₁⟩ := hx s
  obtain ⟨b, s₂, h₂, ht₂⟩ := hf a s₁
  exact ⟨b, s₂, (bind_ret h₁).trans h₂, ht₁.trans ht₂⟩

theorem guarded {c : Bool} {x : KM T Unit} (hx : TimeOnly x) : TimeOnly (Exec.guarded c x) := by
  unfold Exec.guarded
  cases c
  · exact pure ()
  · exact hx

theorem machine : TimeOnly (KM.machine : KM T (Machine T)) := fun _ => ⟨_, _, rfl, .refl _⟩

theorem upd {f : Machine T → Machine T} (hf : ∀ m, SameButTime m (f m)) : TimeOnly (KM.upd f) :=
  fun _ => ⟨(), _, rfl, .machine (hf _)⟩

theorem note {o : Obs T} (ho : IsTime o) : TimeOnly (KM.note o) := fun _ => ⟨(), _, rfl, .push ho⟩

theorem getTODLO (cfg : Cfg T) : TimeOnly (KM.getTODLO cfg) :=
  fun _ => ⟨_, _, rfl, .machine ⟨rfl, rfl, fun _ => rfl, rfl, rfl, rfl, rfl, rfl, rfl⟩⟩

theorem modifyPcb (p : Pid) {f : Pcb T → Pcb T} (hf : ∀ x, timeless (f x) = timeless x) :
    TimeOnly (KM.modifyPcb p f) := fun s => ⟨(), s.setPcb p f, rfl, .setPcb s p hf⟩

theorem addTime (p : Pid) (kernel : Bool) (d : Word) : TimeOnly (KM.addTime (T := T) p kernel d) := by
  refine modifyPcb p fun x => ?_
  cases kernel <;> rfl

theorem setTimer (w : Word) : TimeOnly (KM.setTimer (T := T) w) :=
  upd fun _ => ⟨rfl, rfl, fun _ => rfl, rfl, rfl, rfl, rfl, rfl, rfl⟩

theorem resetSwitchTick (cfg : Cfg T) : TimeOnly (KM.resetSwitchTick cfg) := by
  refine machine.bind fun m => (getTODLO cfg).bind fun t => ?_
  have hupd : TimeOnly (KM.upd fun m : Machine T => { m with switchTick := t }) :=
    upd fun _ => ⟨rfl, rfl, fun _ => rfl, rfl, rfl, rfl, rfl, rfl, rfl⟩
  exact hupd.bind fun _ => note (show IsTime (.tick _) from trivial)

theorem chargeCurrent (cfg : Cfg T) (kernel : Bool) (cur : Pid) : TimeOnly (Model.chargeCurrent cfg kernel cur) :=
  machine.bind fun _ => (getTODLO cfg).bind fun _ => (addTime cur kernel _).bind fun _ =>
    note (show IsTime (.charge _ _ _ _) from trivial)

theorem whenCurrent {f : Pid → KM T Unit} (hf : ∀ p, TimeOnly (f p)) : TimeOnly (KM.whenCurrent f) := by
  refine machine.bind fun m => ?_
  cases m.currentProc with
  | none => exact pure ()
  | some p => exact hf p

theorem schedulerAccountTime (cfg : Cfg T) (kernel : Bool) : TimeOnly (Model.schedulerAccountTime cfg kernel) :=
  (whenCurrent (chargeCurrent cfg kernel)).bind fun _ => resetSwitchTick cfg

theorem markStart (cfg : Cfg T) (p : Pid) : TimeOnly (Model.markStart cfg p) := by
  refine machine.bind fun _ => guarded ((getTODLO cfg).bind fun t => ?_)
  exact modifyPcb p (f := fun q => { q with startTm := t.zeroExtend 64 }) fun _ => rfl

end TimeOnly
end Bikaya.Kernel
