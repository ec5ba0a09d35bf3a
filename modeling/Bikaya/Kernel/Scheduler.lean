import Bikaya.Kernel.Mid
import Bikaya.Refine.Reading

/-!
# `scheduler.c`, as acts

One lemma for each function that ends or blocks: from a `Mid` state it exits in an `Exited` one, or returns
in a `Mid` state. `F` holds of the faults that may happen.
-/

namespace Bikaya.Kernel
open Bikaya.Lib Bikaya.Model Bikaya.Spec Bikaya.Refine Bikaya.Model.KM

variable {T : Target} {cfg : Cfg T} {s₀ s : KState T} {q₀ q : Queues} {e : Entry T} {m₀ : Machine T}
  {F : Fault → Prop}

/-- `scheduler_run` takes the first ready process and loads it. -/
theorem schedulerRun_first {E : CpuState T → KState T → Prop} (hrep : Rep s.m.pool q) {p : Pid} {rest : List Pid}
    (hpr : q.ready = p :: rest)
    (hE : ∀ l s₂, Rep ({ s.m.pool with links := l } : Pool T) { q with ready := rest } →
      Timed (((s.push .run).relink l).setCurrent (some p)) s₂ →
      E (s₂.m.pool.pcbs p).pS (s₂.push (.dispatch p (s₂.m.pool.pcbs p).pS))) :
    Exec.wp (schedulerRun cfg) (fun _ _ => False) E F s := by
  obtain ⟨l, hl, hrep⟩ := hrep.removeReady_cons hpr
  unfold schedulerRun
  refine wp_bind_ret (note_ret .run s) (wp_bind_ret (pool_ret (s := s.push .run) hl) ?_)
  refine wp_bind_ret (setCurrent_ret (some p) _) (wp_bind_ret (current_ret rfl) ?_)
  refine wp_bind_time (.markStart cfg p) fun _ s₁ ht₁ => ?_
  refine wp_bind_time (.resetSwitchTick cfg) fun _ s₂ ht₂ => ?_
  refine wp_bind_time (.setTimer _) fun _ s₃ ht₃ => ?_
  refine wp_bind_ret (machine_ret s₃) (wp_ldst ?_)
  exact hE l s₃ hrep ((ht₁.trans ht₂).trans ht₃)

/-- `scheduler_run` with a ready process and nobody outside the lists. -/
theorem schedulerRun_wp (hst : Steps cfg s₀ q₀ s q) (hs : Sound s.m.pool q []) (hr : q.ready ≠ []) :
    Exec.wp (schedulerRun cfg) (fun _ _ => False) (Exited cfg s₀ q₀) F s := by
  obtain ⟨p, rest, hpr⟩ := List.exists_cons_of_ne_nil hr
  have hp : q.Queued p := Or.inr (Or.inl (hpr ▸ List.mem_cons_self))
  have hplaced : Placed { q with ready := rest } [p] :=
    hs.placed.lift hp rfl (queued_pop_ready hs.rep.apart hpr hs.placed.heads)
  have htree : Tree { q with ready := rest } := hs.tree.congr rfl fun _ => Iff.rfl
  refine schedulerRun_first hs.rep hpr fun l s₃ hrep ht => ?_
  have hs₃ : Sound s₃.m.pool { q with ready := rest } [p] :=
    ht.same.sound (m := (((s.push .run).relink l).setCurrent (some p)).m) ⟨hrep, hplaced, htree⟩
  have hcur : (s₃.push (.dispatch p (s₃.m.pool.pcbs p).pS)).m.currentProc = some p := ht.same.currentProc
  refine ⟨{ q with ready := rest }, hst.act hs (.dispatch hpr ht) hs₃, ?_, rfl⟩
  rw [hcur]
  exact hs₃

/-! ## `scheduler_resume` -/

/-- The end of a time slice: the ready processes age, and the current one joins them. -/
theorem preempt_ret (cfg : Cfg T) {p : Pid} (hs : Sound s.m.pool q [p]) (a : OldArea) :
    ∃ l, (do
        let m ← machine
        Exec.guarded (!listEmpty m.pool.links .readyQueue) (pool (aging cfg))
        note .expire
        let st ← oldStateOf (some a)
        modifyPcb p fun q => { q with pS := st }
        schedulerEnqueueProcess (some p) : KM T Unit) s =
          .ret () ((s.expired cfg q.ready p (s.m.oldAreas a)).enqueued p l) ∧
      Sound ((s.expired cfg q.ready p (s.m.oldAreas a)).enqueued p l).m.pool
        (q.enqueue ((s.expired cfg q.ready p (s.m.oldAreas a)).resetPrio p).prio p) [] := by
  have hage : (Exec.guarded (!listEmpty s.m.pool.links .readyQueue) (pool (aging cfg)) : KM T Unit) s =
      .ret () (s.aged cfg q.ready) := by
    rw [hs.rep.listEmpty_ready]
    cases hr : q.ready with
    | nil =>
      have hnil : agePcbs cfg.prio [] s.m.pool.pcbs = s.m.pool.pcbs := funext fun r => by simp [agePcbs]
      change Outcome.ret () s = .ret () (s.aged cfg [])
      unfold KState.aged KState.setPool
      rw [hnil]
    | cons x xs =>
      change pool (aging cfg) s = _
      rw [← hr]
      exact pool_ret (aging_run cfg hs.rep)
  have hexp : Sound (s.expired cfg q.ready p (s.m.oldAreas a)).m.pool q [p] := by
    refine ⟨?_, hs.placed, hs.tree⟩
    have hfields : ∀ r, (agePcbs cfg.prio q.ready s.m.pool.pcbs r).pParent = (s.m.pool.pcbs r).pParent ∧
        (agePcbs cfg.prio q.ready s.m.pool.pcbs r).pSemkey = (s.m.pool.pcbs r).pSemkey := by
      intro r
      unfold agePcbs
      split <;> exact ⟨rfl, rfl⟩
    have hr := hs.rep.setPcbs (fun r => (hfields r).1) (fun r => (hfields r).2)
    exact rep_setPcb (s := (s.aged cfg q.ready).push .expire) hr p (fun _ => rfl) (fun _ => rfl)
  obtain ⟨l, hl, hs'⟩ := enqueue_run hexp (by simp)
  refine ⟨l, ?_, hs'⟩
  rw [bind_ret (machine_ret s), bind_ret hage, bind_ret (note_ret .expire _), bind_ret (oldStateOf_ret a _),
    bind_ret (modifyPcb_ret p _ _)]
  exact hl

/-- A process whose time slice is over joins the aged ready processes. -/
theorem preempt_run (h : Mid cfg s₀ q₀ e m₀ s q s.m.currentProc.toList) {p : Pid}
    (hp : s.m.currentProc = some p) (hctx : context p s.hist = some (s.m.oldAreas e.area)) (htimer : IsTimer e)
    (hm : m₀.currentProc = some p) (hready : ∀ r ∈ q.ready, ReadyOrWoken cfg e m₀ r (s.prio r)) :
    ∃ s' q', (do
        let m ← machine
        Exec.guarded (!listEmpty m.pool.links .readyQueue) (pool (aging cfg))
        note .expire
        let st ← oldStateOf (some e.area)
        modifyPcb p fun q => { q with pS := st }
        schedulerEnqueueProcess (some p) : KM T Unit) s = .ret () s' ∧
      Steps cfg s₀ q₀ s' q' ∧ Sound s'.m.pool q' [] ∧ q'.ready ≠ [] := by
  have hs := h.sound
  rw [hp] at hs
  obtain ⟨l, hl, hs'⟩ := preempt_ret cfg hs e.area
  exact ⟨_, _, hl, h.steps.act hs (.preempt (l := l) hp (hs.placed.outside p List.mem_cons_self) hctx
    ⟨e, m₀, h.entry, htimer, hm⟩ h.slice ⟨e, m₀, h.entry, hready⟩) hs', hs', insertPrio_ne_nil _ _ _⟩

/-- `scheduler_resume`, which never returns. `old` matters only when there is a current process. -/
theorem schedulerResume_wp {ended : Bool} {old : Option OldArea} (h : Returning cfg s₀ q₀ e m₀ s q)
    (hold : ∀ p, s.m.currentProc = some p → old = some e.area)
    (hended : ended = true → IsTimer e ∧
      (∀ p, s.m.currentProc = some p → context p s.hist = some (s.m.oldAreas e.area)) ∧
      ∀ r ∈ q.ready, ReadyOrWoken cfg e m₀ r (s.prio r)) :
    Exec.wp (schedulerResume cfg ended old) (fun _ _ => False) (Exited cfg s₀ q₀) F s := by
  unfold schedulerResume whenCurrent
  rw [Exec.wp_bind]
  refine wp_bind_ret (machine_ret s) ?_
  cases hp : s.m.currentProc with
  | none =>
    refine wp_ret (a := ()) (t := s) rfl ?_
    refine wp_bind_ret (machine_ret s) ?_
    have hs := h.mid.sound
    rw [hp] at hs
    rw [Exec.wp_bind, Exec.wp_guarded, hs.rep.listEmpty_ready]
    by_cases hr : q.ready = []
    · rw [if_pos (List.isEmpty_iff.mpr hr)]
      exact wp_ldst (h.mid.exit (.idle hp hr) (hp ▸ rfl) rfl _)
    · rw [if_neg (fun he => hr (List.isEmpty_iff.mp he))]
      exact schedulerRun_wp h.mid.steps hs hr
  | some p =>
    obtain rfl := hold p hp
    change Exec.wp (resumeCurrent cfg ended (some e.area) p) _ _ _ _
    unfold resumeCurrent
    refine wp_bind_time (.schedulerAccountTime cfg true) fun _ s₁ ht => ?_
    have h₁ := h.time ht
    have hp₁ : s₁.m.currentProc = some p := ht.same.currentProc.trans hp
    obtain ⟨hm, c, hc, hst⟩ := h₁.context p hp₁
    cases hend : ended with
    | false =>
      simp only [Exec.guarded, Bool.not_false, if_true]
      refine wp_bind_exits (wp_bind_ret (oldStateOf_ret e.area s₁) (wp_ldst ?_))
      exact h₁.mid.exit (.resume ⟨hp₁, ⟨e, m₀, h₁.mid.entry, hm, rfl⟩, c, hc, hst⟩) rfl rfl _
    | true =>
      obtain ⟨htimer, hctx, hready⟩ := hended hend
      have hctx₁ : context p s₁.hist = some (s₁.m.oldAreas e.area) := by
        rw [ht.context_eq, ht.same.oldAreas]
        exact hctx p hp
      have hready₁ : ∀ r ∈ q.ready, ReadyOrWoken cfg e m₀ r (s₁.prio r) := fun r hr => by
        rw [show s₁.prio r = s.prio r from ht.same.priority r]
        exact hready r hr
      obtain ⟨s', q', hrun, hst', hs', hr'⟩ := preempt_run h₁.mid hp₁ hctx₁ htimer hm hready₁
      refine wp_bind_ret (a := ()) (t := s₁) rfl (wp_ret hrun ?_)
      refine wp_bind_ret (machine_ret s') ?_
      rw [Exec.wp_bind, Exec.wp_guarded, hs'.rep.listEmpty_ready,
        if_neg (fun he => hr' (List.isEmpty_iff.mp he))]
      exact schedulerRun_wp hst' hs' hr'

/-! ## Blocking -/

/-- `scheduler_block_current`, after what makes the process block. -/
theorem schedulerBlockCurrent_run (h : Mid cfg s₀ q₀ e m₀ s q s.m.currentProc.toList) {p : Pid}
    (hp : s.m.currentProc = some p) (hm : m₀.currentProc = some p) {key : Key} {s₁ : KState T}
    (hb : Blocking cfg s p key s₁) {a : OldArea}
    (hctx : context p s.hist = some (s.m.oldAreas a)) :
    ∃ s' q', schedulerBlockCurrent cfg key (some a) s₁ = .ret () s' ∧
      Mid cfg s₀ q₀ e m₀ s' q' s'.m.currentProc.toList ∧ s'.m.currentProc = none := by
  obtain ⟨hpool, hcur, hareas, -, hentry, hslice, -⟩ := hb.same
  have hs := h.sound
  rw [hp] at hs
  have hp₁ : s₁.m.currentProc = some p := hcur.trans hp
  obtain ⟨⟨⟩, s₂, hacc, ht⟩ := TimeOnly.schedulerAccountTime cfg true
    (s₁.setPcb p fun x => { x with pS := s.m.oldAreas a })
  have hrep₁ : Rep (s₁.setPcb p fun x => { x with pS := s.m.oldAreas a }).m.pool q :=
    rep_setPcb (hpool ▸ hs.rep) p (fun _ => rfl) (fun _ => rfl)
  have hs₂ : Sound s₂.m.pool q [p] := ht.same.sound ⟨hrep₁, hs.placed, hs.tree⟩
  obtain ⟨pool', hins, hpcbs, hs'⟩ := insertBlocked_run hs₂ (by simp) key
  refine ⟨s₂.blockedOn pool' p key, _, ?_, h.act (.block hp (hs.placed.outside p List.mem_cons_self) hctx hb ht
    hpcbs ⟨e, m₀, h.entry, hm⟩) hs' ?_ ?_, rfl⟩
  · unfold schedulerBlockCurrent
    rw [bind_ret (current_ret hp₁), bind_ret (oldStateOf_ret a s₁), hareas, bind_ret (modifyPcb_ret p _ s₁),
      bind_ret hacc, bind_ret (pool_ret hins)]
    rfl
  · exact ht.lastEntry_eq.trans hentry
  · exact ht.sliceOver_eq.trans hslice

/-! ## Exceptions -/

/-- `scheduler_handle_exception`, which never returns. -/
theorem schedulerHandleException_wp (h : Mid cfg s₀ q₀ e m₀ s q s.m.currentProc.toList) {old : OldArea}
    {type : Fin 3} (hraise : Raises e type) (hcur : s.m.currentProc = m₀.currentProc)
    (hsame : ∀ p, (s.m.pool.pcbs p).pParent = (m₀.pool.pcbs p).pParent ∧
      (s.m.pool.pcbs p).excNewAreas = (m₀.pool.pcbs p).excNewAreas ∧
      (s.m.pool.pcbs p).excOldAreas = (m₀.pool.pcbs p).excOldAreas)
    (hF : s.m.currentProc = none → F .nullDeref) :
    Exec.wp (schedulerHandleException cfg type old) (fun _ _ => False) (Exited cfg s₀ q₀) F s := by
  unfold schedulerHandleException
  refine wp_bind_time (.schedulerAccountTime cfg false) fun _ s₁ ht => ?_
  have h₁ : Mid cfg s₀ q₀ e m₀ s₁ q s₁.m.currentProc.toList := by
    rw [ht.same.currentProc]
    exact h.time ht
  refine wp_bind_current (fun hp => hF (ht.same.currentProc.symm.trans hp)) fun p hp => ?_
  have hm : m₀.currentProc = some p := (hcur.symm.trans ht.same.currentProc.symm).trans hp
  obtain ⟨-, hnew, hold⟩ := hsame p
  refine wp_bind_ret (machine_ret s₁) ?_
  rw [Exec.wp_ite]
  split
  next hreg =>
    -- passed up: the old state is stored in the memory of the process
    have hout : ∀ a, storeState s₁.m.mem ((s₁.m.pool.pcbs p).excOldAreas type) (s₁.m.oldAreas old) a ≠
        s₁.m.mem a → OutputCall s₁.hist a := by
      intro a ha
      refine ⟨e, m₀, h₁.entry, Or.inr (Or.inr (Or.inr (Or.inr ⟨p, type, hm, ?_, ?_⟩)))⟩
      · rw [← hnew, ← ht.same.excNewAreas]
        exact hreg
      · rw [← hold, ← ht.same.excOldAreas]
        by_contra hlt
        refine ha ?_
        unfold storeState
        dsimp only
        rw [dif_neg fun hc => hlt (by omega)]
    refine wp_bind_ret (a := ()) (t := s₁.setMem _) rfl ?_
    have h₂ : Mid cfg s₀ q₀ e m₀ (s₁.setMem _) q s₁.m.currentProc.toList := h₁.act (.output _ hout) h₁.sound rfl rfl
    refine wp_bind_time (.schedulerAccountTime cfg true) fun _ s₃ ht₃ => ?_
    refine wp_bind_ret (machine_ret s₃) (wp_ldst ?_)
    have hp₃ : s₃.m.currentProc = some p := ht₃.same.currentProc.trans hp
    have h₃ := h₂.time ht₃
    rw [hp, ← hp₃] at h₃
    exact h₃.exit (.passUp hp₃) rfl rfl _
  next hreg =>
    -- fatal
    have hdoom : ∀ r, Desc q.Child p r → KillCall cfg s₁.hist r := by
      intro r hr
      refine ⟨e, m₀, h₁.entry, p, Or.inr (Or.inl ⟨hm, type, hraise, ?_⟩), ?_⟩
      · rw [← hnew, ← ht.same.excNewAreas]
        exact not_not.mp hreg
      · refine Desc.mono (fun a b hab => ?_) hr
        rw [h₁.sound.rep.child_iff] at hab
        exact ((hsame b).1.symm.trans (ht.same.pParent b).symm).trans hab
    have hs := h₁.sound
    rw [hp] at hs
    have hfree : p ∉ q.free := fun hf => hs.placed.outside p List.mem_cons_self (Or.inl hf)
    obtain ⟨s', q', hrun, h', hareas, hctx, hcur'⟩ := killProcess_run h₁
      ((hs.tree.alive p).mpr ⟨hs.placed.outSmall p List.mem_cons_self, hfree⟩) hdoom
      (fun c hc => Or.inl (Option.some.inj (hc.symm.trans hp)))
    rw [hp, if_pos rfl] at hcur'
    refine wp_bind_ret hrun (schedulerResume_wp (e := e) ⟨h', fun r hr => ?_⟩ (fun r hr => ?_) ?_)
    · rw [hcur'] at hr
      cases hr
    · rw [hcur'] at hr
      cases hr
    · intro hc
      cases hc

end Bikaya.Kernel
