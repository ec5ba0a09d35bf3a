import Bikaya.Kernel.DevKeys
import Bikaya.Kernel.Scheduler

/-!
# `interrupts.c`, as acts

`Serving` is the invariant of the interrupt handler: while devices are served the current process and the old
areas stay as they are, what is left to serve is as it was at the entry, the ready processes were ready then or
have been woken, and every completed operation has its waiter. `V` says that the last was so at the entry;
without it a device may find nobody waiting.
-/

namespace Bikaya.Kernel
open Bikaya.Lib Bikaya.Model Bikaya.Spec Bikaya.Refine Bikaya.Model.KM

variable {T : Target}

section
variable (cfg : Cfg T) (s₀ : KState T) (q₀ : Queues) (e : Entry T) (m₀ : Machine T) (s₁ : KState T) (V : Prop)

structure Serving (s : KState T) (q : Queues) : Prop where
  mid : Mid cfg s₀ q₀ e m₀ s q s.m.currentProc.toList
  currentProc : s.m.currentProc = s₁.m.currentProc
  oldAreas : s.m.oldAreas = s₁.m.oldAreas
  context : ∀ p, s₁.m.currentProc = some p → context p s.hist = context p s₁.hist
  waited : V → Waited cfg s.m.hw q
  finished : ∀ f, Finished s.m.hw f → Finished e.hw f ∧ q.waiting (devKey cfg f) = waitingList m₀ (devKey cfg f)
  interrupting : ∀ line i, s.m.hw.interrupting line i = true → e.hw.interrupting line i = true
  original : ∀ r, (s.m.pool.pcbs r).originalPriority = (m₀.pool.pcbs r).originalPriority
  ready : ∀ r ∈ q.ready, ReadyOrWoken cfg e m₀ r (s.prio r)

end

variable {cfg : Cfg T} {s₀ s₁ s : KState T} {q₀ q : Queues} {e : Entry T} {m₀ : Machine T} {V : Prop}
  {E : CpuState T → KState T → Prop} {F : Fault → Prop}

theorem storeCommand_ret (addr cmd : Word) (s : KState T) :
    storeCommand addr cmd s = .ret () (s.commanded addr cmd) := by
  unfold storeCommand KState.commanded KM.upd Exec.modify
  cases Hw.fnAt T addr <;> rfl

theorem devStatus_ret {addr : Word} {f : DevFn} (hf : Hw.fnAt T addr = some f) (s : KState T) :
    devStatus addr s = .ret (s.m.hw.status f) s := by
  unfold devStatus
  rw [bind_ret (machine_ret s), hf]
  rfl

/-! ## One device function -/

/-- `unblock_process` on a key that nobody waits on. -/
theorem unblockProcess_none (h : Rep s.m.pool q) {key : Key} (hk : q.waiting key = []) (status : Word) :
    unblockProcess key status s = .fault .nullDeref := by
  unfold unblockProcess
  rw [bind_ret (removeBlocked_none h hk)]
  rfl

/-- `unblock_process` on a key with waiters. -/
theorem unblockProcess_run {out : List Pid} (h : Sound s.m.pool q out) {key : Key} {p : Pid} {rest : List Pid}
    (hk : q.waiting key = p :: rest) (status : Word) :
    ∃ l l', unblockProcess key status s = .ret () ((((s.popped p l).enqueued p l').setPcb p fun x =>
          { x with pS := x.pS.setReturn status }).push (.complete key p status)) ∧ p ∉ out ∧
      Sound (((s.popped p l).enqueued p l').setPcb p fun x => { x with pS := x.pS.setReturn status }).m.pool
        ((q.setWaiting key rest).enqueue ((s.popped p l).resetPrio p).prio p) out := by
  obtain ⟨l, hpop, hp, hs⟩ := removeBlocked_run h hk
  obtain ⟨l', henq, hs'⟩ := enqueue_run hs hp
  refine ⟨l, l', ?_, hp, rep_setPcb hs'.rep p (fun _ => rfl) (fun _ => rfl), hs'.placed, hs'.tree⟩
  unfold unblockProcess
  rw [bind_ret hpop, bind_ret henq, bind_ret (orFault_ret p _), bind_ret (modifyPcb_ret p _ _)]
  rfl

/-- The priorities after a process was taken from its waiting list and made ready. -/
theorem woken_pcbs (s : KState T) (p : Pid) (l l' : Links Node) (status : Word) (r : Pid) :
    let x := (((s.popped p l).enqueued p l').setPcb p fun x => { x with pS := x.pS.setReturn status }).m.pool.pcbs r
    x.originalPriority = (s.m.pool.pcbs r).originalPriority ∧
      x.priority = if r = p then (s.m.pool.pcbs r).originalPriority else (s.m.pool.pcbs r).priority := by
  by_cases hr : r = p
  · subst hr
    simp [KState.popped, KState.enqueued, KState.resetPrio, KState.setPcb, KState.relink, KState.setPool, KState.push]
  · simp [KState.popped, KState.enqueued, KState.resetPrio, KState.setPcb, KState.relink, KState.setPool, KState.push,
      hr]

/-- One completed operation. Of the others nothing changes. -/
theorem serve_wp (h : Serving cfg s₀ q₀ e m₀ s₁ V s q) (hF : ¬V → F .nullDeref) {device command : Word}
    {rcpt : Nat} {f : DevFn} (hwake : Finished s.m.hw f → Wakes e f) (hfn : Hw.fnAt T (device + command) = some f)
    (hkey : interruptsGetDevKey cfg device rcpt = devKey cfg f) (hfin : Finished s.m.hw f) :
    Exec.wp (serve cfg device command rcpt)
      (fun _ s' => ∃ q', Serving cfg s₀ q₀ e m₀ s₁ V s' q' ∧ s'.m.hw = s.m.hw.issue f cmdAck) E F s := by
  unfold serve
  refine wp_bind_ret (devStatus_ret hfn s) ?_
  rw [hkey]
  cases hk : q.waiting (devKey cfg f) with
  | nil =>
    rw [Exec.wp_bind]
    unfold Exec.wp
    rw [unblockProcess_none h.mid.sound.rep hk]
    exact hF fun hv => h.waited hv f hfin hk
  | cons p rest =>
    obtain ⟨l, l', hrun, hp, hs⟩ := unblockProcess_run h.mid.sound hk (s.m.hw.status f)
    have hcur : ∀ r, s₁.m.currentProc = some r → r ≠ p := by
      intro r hr he
      rw [← h.currentProc] at hr
      exact hp (Option.mem_toList.mpr (he ▸ hr))
    have hact := @Act.serve T cfg s q _ _ _ _ l l' hfin hfn hk
    refine wp_bind_ret hrun ?_
    unfold acknowledge
    refine wp_bind_ret (storeCommand_ret _ cmdAck _) (wp_ret (note_ret _ _) ?_)
    rw [commanded_fn hfn] at hact ⊢
    have hother : ∀ g, Finished (s.m.hw.issue f cmdAck) g → Finished s.m.hw g ∧
        Function.update q.waiting (devKey cfg f) rest (devKey cfg g) = q.waiting (devKey cfg g) := by
      intro g hg
      obtain ⟨hg, hne⟩ := finished_issue_ack.mp hg
      exact ⟨hg, Function.update_of_ne (fun he => hne (devKey_inj cfg hg.exists hfin.exists he)) _ _⟩
    have hpcbs := woken_pcbs s p l l' (s.m.hw.status f)
    refine ⟨_, ⟨h.mid.act hact hs rfl rfl, h.currentProc, h.oldAreas, fun r hr => ?_, fun hv g hg => ?_,
      fun g hg => ?_, fun line i hi => h.interrupting line i (interrupting_issue hi),
      fun r => (hpcbs r).1.trans (h.original r), fun r hr => ?_⟩, rfl⟩
    · rw [← h.context r hr]
      exact if_neg fun he => hcur r hr he.symm
    · obtain ⟨hg, hw⟩ := hother g hg
      change Function.update q.waiting (devKey cfg f) rest (devKey cfg g) ≠ []
      rw [hw]
      exact h.waited hv g hg
    · obtain ⟨hg, hw⟩ := hother g hg
      exact ⟨(h.finished g hg).1, hw.trans (h.finished g hg).2⟩
    · have hprio := (hpcbs r).2
      by_cases hrp : r = p
      · subst hrp
        rw [if_pos rfl] at hprio
        refine Or.inr ⟨f, hwake hfin, ?_, hprio.trans (h.original r)⟩
        rw [← (h.finished f hfin).2, hk]
        rfl
      · rw [if_neg hrp] at hprio
        have hmem := ((mem_insertPrio _ p).mp hr).resolve_left hrp
        exact (h.ready r hmem).imp (And.imp_right hprio.trans) fun ⟨g, hg, hh, hx⟩ => ⟨g, hg, hh, hprio.trans hx⟩

/-! ## One device -/

/-- The interrupts of the devices other than `i` of a line stay. -/
def OthersStay (line i : Nat) (hw hw' : Hw) : Prop :=
  ∀ j, j ≠ i → hw'.interrupting line j = hw.interrupting line j

theorem OthersStay.trans {line i : Nat} {hw hw' hw'' : Hw} (h : OthersStay line i hw hw')
    (h' : OthersStay line i hw' hw'') : OthersStay line i hw hw'' :=
  fun j hj => (h' j hj).trans (h j hj)

theorem othersStay_issue (line i : Nat) (rx : Bool) (hw : Hw) (cmd : Word) :
    OthersStay line i hw (hw.issue ⟨devIndex line i, rx⟩ cmd) := by
  intro j hj
  have hne : ∀ rx', (⟨devIndex line j, rx'⟩ : DevFn) ≠ ⟨devIndex line i, rx⟩ := by
    intro rx' he
    have hd := congrArg DevFn.dev he
    unfold devIndex at hd
    dsimp only at hd
    omega
  have hpending : ∀ rx', (hw.issue ⟨devIndex line i, rx⟩ cmd).pending ⟨devIndex line j, rx'⟩ =
      hw.pending ⟨devIndex line j, rx'⟩ := fun rx' => (sameFn_issue cmd (hne rx')).pending
  exact congrArg₂ (· || line == ilTerminal && ·) (hpending false) (hpending true)

/-- A device of a line that is served, whose interrupt was pending at the entry. -/
structure Reported (e : Entry T) (line i : Nat) : Prop where
  isLine : IsLine line
  lt : i < 8
  served : LineServed T (e.st T.cause) line
  interrupting : e.hw.interrupting line i = true

theorem Reported.wakes {line i : Nat} (h : Reported e line i) {rx : Bool}
    (hf : Finished e.hw ⟨devIndex line i, rx⟩) : Wakes e ⟨devIndex line i, rx⟩ := by
  unfold Wakes
  dsimp only
  rw [devIndex_div h.isLine h.lt, devIndex_mod h.lt]
  exact ⟨hf, h.served, h.interrupting⟩

theorem handleTermSide_wp (h : Serving cfg s₀ q₀ e m₀ s₁ V s q) (hF : ¬V → F .nullDeref) {i : Nat}
    (hrep : Reported e ilTerminal i) {command : Word} (rx : Bool)
    (hfn : Hw.fnAt T (T.devRegAddr ilTerminal i + command) = some ⟨devIndex ilTerminal i, rx⟩) :
    Exec.wp (handleTermSide cfg (T.devRegAddr ilTerminal i) command rx.toNat)
      (fun _ s' => ∃ q', Serving cfg s₀ q₀ e m₀ s₁ V s' q' ∧ OthersStay ilTerminal i s.m.hw s'.m.hw) E F s := by
  unfold handleTermSide
  refine wp_bind_ret (devStatus_ret hfn s) ?_
  rw [Exec.wp_guarded]
  split
  next hst =>
    have hfin : Finished s.m.hw ⟨devIndex ilTerminal i, rx⟩ := (finished_terminal hrep.lt rx).mpr (eq_of_beq hst)
    have hkey := getDevKey_eq (T := T) hrep.isLine hrep.lt cfg rx fun hne => absurd rfl hne
    refine Exec.wp_conseq (serve_wp h hF (fun hf => hrep.wakes (h.finished _ hf).1) hfn hkey hfin) fun _ s' hs' => ?_
    obtain ⟨q', hs', hhw⟩ := hs'
    exact ⟨q', hs', hhw ▸ othersStay_issue ilTerminal i rx s.m.hw cmdAck⟩
  next => exact ⟨q, h, fun _ _ => rfl⟩

/-- One device of a line, whose interrupt is pending. -/
theorem handleDevice_wp (h : Serving cfg s₀ q₀ e m₀ s₁ V s q) (hF : ¬V → F .nullDeref) {line i : Nat}
    (hrep : Reported e line i) (hint : s.m.hw.interrupting line i = true) :
    Exec.wp (handleDevice cfg line i)
      (fun _ s' => ∃ q', Serving cfg s₀ q₀ e m₀ s₁ V s' q' ∧ OthersStay line i s.m.hw s'.m.hw) E F s := by
  have hl := hrep.isLine
  have hi := hrep.lt
  unfold handleDevice
  dsimp only
  rw [isTerminal_devRegAddr hl hi, Exec.wp_ite]
  split
  next h7 =>
    obtain rfl : line = ilTerminal := of_decide_eq_true h7
    unfold handleTerm
    rw [Exec.wp_bind]
    refine Exec.wp_conseq (handleTermSide_wp h hF hrep false (fnAt_transm hl hi rfl)) fun _ s' hs' => ?_
    obtain ⟨q', h', hstay⟩ := hs'
    refine Exec.wp_conseq (handleTermSide_wp h' hF hrep true (fnAt_command hl hi)) fun _ s'' hs'' => ?_
    obtain ⟨q'', h'', hstay'⟩ := hs''
    exact ⟨q'', h'', hstay.trans hstay'⟩
  next h7 =>
    have h7 : line ≠ 7 := fun he => h7 (decide_eq_true he)
    have hfn := fnAt_command (T := T) hl hi
    rw [decide_eq_false h7] at hfn
    have hfin : Finished s.m.hw ⟨devIndex line i, false⟩ := (finished_device hl h7 hi).mpr hint
    refine Exec.wp_conseq (serve_wp h hF (fun hf => hrep.wakes (h.finished _ hf).1) hfn
      (getDevKey_eq hl hi cfg false fun _ => rfl) hfin) fun _ s' hs' => ?_
    obtain ⟨q', h', hhw⟩ := hs'
    exact ⟨q', h', hhw ▸ othersStay_issue line i false s.m.hw cmdAck⟩

/-! ## The lines -/

/-- The loop of `handle_interrupt`: the bits that are left are devices whose interrupt is still pending. -/
theorem handleBits_wp (hF : ¬V → F .nullDeref) {line : Nat} (hl : IsLine line)
    (hserved : LineServed T (e.st T.cause) line) : ∀ (n : Nat) {i bitmap : Nat}
    {s : KState T} {q : Queues}, Serving cfg s₀ q₀ e m₀ s₁ V s q → i + n = 8 →
    (∀ j < n, bitmap / 2 ^ j % 2 = 1 → s.m.hw.interrupting line (i + j) = true) →
    Exec.wp (handleBits cfg line n i bitmap) (fun _ s' => ∃ q', Serving cfg s₀ q₀ e m₀ s₁ V s' q') E F s := by
  intro n
  induction n with
  | zero => exact fun h _ _ => (Exec.wp_pure ()).mpr ⟨_, h⟩
  | succ n ih =>
    intro i bitmap s q h hn hbits
    have hrest : ∀ j < n, bitmap / 2 / 2 ^ j % 2 = 1 → s.m.hw.interrupting line (i + 1 + j) = true := by
      intro j hj hb
      rw [Nat.div_div_eq_div_mul, ← Nat.pow_succ'] at hb
      have := hbits (j + 1) (by omega) hb
      rwa [show i + (j + 1) = i + 1 + j by omega] at this
    unfold handleBits
    rw [Exec.wp_bind, Exec.wp_guarded]
    split
    next hb =>
      have hint := hbits 0 (by omega) (by simpa using hb)
      have hrep : Reported e line i := ⟨hl, by omega, hserved, h.interrupting line i hint⟩
      refine Exec.wp_conseq (handleDevice_wp h hF hrep hint) fun _ s' hs' => ?_
      obtain ⟨q', h', hstay⟩ := hs'
      refine ih h' (by omega) fun j hj hb => ?_
      rw [hstay (i + 1 + j) (by omega)]
      exact hrest j hj hb
    next => exact ih h (by omega) hrest

theorem handleInterrupt_wp (h : Serving cfg s₀ q₀ e m₀ s₁ V s q) (hF : ¬V → F .nullDeref) {line : Nat}
    (hl : IsLine line) (hserved : LineServed T (e.st T.cause) line) :
    Exec.wp (handleInterrupt cfg line) (fun _ s' => ∃ q', Serving cfg s₀ q₀ e m₀ s₁ V s' q') E F s := by
  unfold handleInterrupt
  refine wp_bind_ret (machine_ret s) (handleBits_wp hF hl hserved 8 h (Nat.zero_add 8) fun j hj hb => ?_)
  rw [Nat.zero_add]
  exact (bitmap_bit s.m.hw line j hj).mp hb

theorem handleLine_wp (h : Serving cfg s₀ q₀ e m₀ s₁ V s q) (hF : ¬V → F .nullDeref) (line : Nat) {served : Nat}
    (hl : IsLine served) (hserved : T.intIsPending (e.st T.cause) line = true → LineServed T (e.st T.cause) served) :
    Exec.wp (handleLine cfg (e.st T.cause) line served) (fun _ s' => ∃ q', Serving cfg s₀ q₀ e m₀ s₁ V s' q') E F s := by
  unfold handleLine
  rw [Exec.wp_guarded]
  split
  next hpend => exact handleInterrupt_wp h hF hl (hserved hpend)
  next => exact ⟨q, h⟩

/-! ## The handler -/

theorem setOldArea_ret (a : OldArea) (st : CpuState T) (s : KState T) :
    setOldArea a st s = .ret () (s.setAreas (Function.update s.m.oldAreas a st) s.m.oldState) := rfl

/-- `interrupts_handler`, which never returns. -/
theorem interruptsHandler_wp (h : Mid cfg s₀ q₀ e m₀ s q s.m.currentProc.toList) (harea : e.area = .int)
    (hst : s.m.oldAreas .int = e.st)
    (hctx : ∀ p, s.m.currentProc = some p → context p s.hist = some (adjusted e))
    (hm : s.m = m₀) (hhw : s.m.hw = e.hw) (hV : V → Waited cfg s.m.hw q) (hF : ¬V → F .nullDeref) :
    Exec.wp (interruptsHandler cfg) (fun _ _ => False) (Exited cfg s₀ q₀) F s := by
  unfold interruptsHandler
  refine wp_bind_time (.schedulerAccountTime cfg false) fun _ s₁ ht => wp_bind_ret (machine_ret s₁) ?_
  have hst₁ : s₁.m.oldAreas .int = e.st := (congrFun ht.same.oldAreas .int).trans hst
  rw [hst₁]
  dsimp only
  refine wp_bind_ret (setOldArea_ret .int (rewindPc e.st) s₁) ?_
  generalize hs₂ : s₁.setAreas (Function.update s₁.m.oldAreas .int (rewindPc e.st)) s₁.m.oldState = s₂
  have h₂ : Mid cfg s₀ q₀ e m₀ s₂ q s₂.m.currentProc.toList := by
    subst hs₂
    have h₁ := h.time ht
    rw [← ht.same.currentProc] at h₁
    exact h₁.act (.areas _ _) h₁.sound rfl rfl
  have harea₂ : s₂.m.oldAreas e.area = adjusted e := by
    subst hs₂
    rw [harea]
    change Function.update s₁.m.oldAreas .int (rewindPc e.st) .int = _
    rw [Function.update_self, adjusted_int harea]
  have hcur₂ : s₂.m.currentProc = s.m.currentProc := by
    subst hs₂
    exact ht.same.currentProc
  have hctx₂ : ∀ p, s₂.m.currentProc = some p → context p s₂.hist = some (s₂.m.oldAreas e.area) := by
    intro p hp
    rw [harea₂]
    subst hs₂
    exact (ht.context_eq p).trans (hctx p (hcur₂ ▸ hp))
  have hw₂ : s₂.m.hw = s.m.hw := by
    subst hs₂
    exact ht.same.hw
  have htimer : TimeOnly (T := T) (Exec.guarded (T.intIsPending (e.st T.cause) ilTimer) (setTimer 0xFFFFFFFF)) :=
    .guarded (.setTimer _)
  refine wp_bind_time htimer fun _ s₃ ht₃ => ?_
  have hpool₃ : ∀ r, s₃.prio r = (m₀.pool.pcbs r).priority ∧
      (s₃.m.pool.pcbs r).originalPriority = (m₀.pool.pcbs r).originalPriority := by
    intro r
    subst hs₂ hm
    exact ⟨(ht₃.same.priority r).trans (ht.same.priority r),
      (ht₃.same.originalPriority r).trans (ht.same.originalPriority r)⟩
  have hw₃ : s₃.m.hw = s.m.hw := ht₃.same.hw.trans hw₂
  have hrep : Rep m₀.pool q := hm ▸ h.sound.rep
  have h₃ : Serving cfg s₀ q₀ e m₀ s₂ V s₃ q :=
    { mid := by rw [ht₃.same.currentProc]; exact h₂.time ht₃
      currentProc := ht₃.same.currentProc
      oldAreas := ht₃.same.oldAreas
      context := fun p _ => ht₃.context_eq p
      waited := fun hv => by rw [hw₃]; exact hV hv
      finished := fun f hf => by rw [hw₃, hhw] at hf; exact ⟨hf, (hrep.waitingList_eq _).symm⟩
      interrupting := fun line i hi => by rw [hw₃, hhw] at hi; exact hi
      original := fun r => (hpool₃ r).2
      ready := fun r hr => Or.inl ⟨by rw [hrep.readyList_eq]; exact hr, (hpool₃ r).1⟩ }
  rw [Exec.wp_bind]
  refine Exec.wp_conseq (handleLine_wp h₃ hF ilDisk ⟨by decide, by decide⟩
    fun hp => Or.inl ⟨by decide, hp⟩) fun _ s₄ h₄ => ?_
  obtain ⟨q₄, h₄⟩ := h₄
  rw [Exec.wp_bind]
  refine Exec.wp_conseq (handleLine_wp h₄ hF ilTape ⟨by decide, by decide⟩
    fun hp => Or.inl ⟨by decide, hp⟩) fun _ s₅ h₅ => ?_
  obtain ⟨q₅, h₅⟩ := h₅
  rw [Exec.wp_bind]
  refine Exec.wp_conseq (handleLine_wp h₅ hF ilEthernet ⟨by decide, by decide⟩
    fun hp => Or.inl ⟨by decide, hp⟩) fun _ s₆ h₆ => ?_
  obtain ⟨q₆, h₆⟩ := h₆
  rw [Exec.wp_bind]
  refine Exec.wp_conseq (handleLine_wp h₆ hF ilPrinter ⟨by decide, by decide⟩
    fun hp => Or.inr ⟨rfl, hp⟩) fun _ s₇ h₇ => ?_
  obtain ⟨q₇, h₇⟩ := h₇
  rw [Exec.wp_bind]
  refine Exec.wp_conseq (handleLine_wp h₇ hF ilTerminal ⟨by decide, by decide⟩
    fun hp => Or.inl ⟨by decide, hp⟩) fun _ s₈ h₈ => ?_
  obtain ⟨q₈, h₈⟩ := h₈
  have hctx₈ : ∀ p, s₈.m.currentProc = some p → context p s₈.hist = some (s₈.m.oldAreas e.area) := by
    intro p hp
    rw [h₈.currentProc] at hp
    rw [h₈.context p hp, h₈.oldAreas]
    exact hctx₂ p hp
  have hm₀ : ∀ p, s₈.m.currentProc = some p → m₀.currentProc = some p := fun p hp => by
    rw [← hm, ← hcur₂, ← h₈.currentProc]
    exact hp
  refine schedulerResume_wp ⟨h₈.mid, fun p hp => ⟨hm₀ p hp, _, hctx₈ p hp, Or.inl rfl⟩⟩
    (fun p _ => by rw [harea]) fun hend => ⟨⟨harea, hend⟩, hctx₈, h₈.ready⟩

end Bikaya.Kernel
