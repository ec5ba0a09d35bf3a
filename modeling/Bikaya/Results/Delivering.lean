import Bikaya.Results.Absorbing

/-!
# The results of WAITIO

`Held` : whoever waits for a device function made the last WAITIO on it, its command is still in the command register,
and the operation is outstanding. `Delivered` : the operation has ended and its issuer is given the status. So it goes
in every run in which no process makes a WAITIO on a function whose operation is outstanding (`delivers`); the kernel
itself does not see to that.
-/

namespace Bikaya.Results
open Bikaya.Lib Bikaya.Model Bikaya.Spec Bikaya.Refine Bikaya.Kernel Bikaya.Model.KM

variable {T : Target} {cfg : Cfg T} {s s' : KState T} {q q' : Queues} {e : Entry T}

/-- An entry at which WAITIO writes only commands that start an operation. -/
structure CommandEntry (cfg : Cfg T) (s : KState T) (e : Entry T) : Prop extends DeviceEntry cfg s e where
  starts : ∀ f command, Starts e f command → command ≠ cmdAck

/-- Such an entry, and a WAITIO finds the function free. -/
structure SerialEntry (cfg : Cfg T) (s : KState T) (e : Entry T) : Prop extends CommandEntry cfg s e where
  free : ∀ f command, Starts e f command → ¬ Outstanding e.hw f

/-- Those who wait for a function wait for the operation they started, which is outstanding. -/
def Held (cfg : Cfg T) (s : KState T) : Prop := ∀ f p, Spec.Exists f → p ∈ waitingList s.m (devKey cfg f) →
  Outstanding s.m.hw f ∧ issued f s.hist = some (p, s.m.hw.command f)

/-- The operation of `p`, the one with the command that `p` wrote last, has ended, and `p` is ready or runs, with the
status in its return register. -/
structure Delivered (cfg : Cfg T) (s : KState T) (e : Entry T) (s' : KState T) (f : DevFn) (p : Pid) : Prop where
  finished : Finished e.hw f
  own : issued f s.hist = some (p, e.hw.command f)
  ready : p ∈ readyList s'.m ∨ s'.m.currentProc = some p
  status : (s'.m.pool.pcbs p).pS = (s.m.pool.pcbs p).pS.setReturn (e.hw.status f)

/-! ## Who waits -/

/-- `Held`, of the lists. -/
def Holds (cfg : Cfg T) (s : KState T) (q : Queues) : Prop := ∀ f p, Spec.Exists f → p ∈ q.waiting (devKey cfg f) →
  Outstanding s.m.hw f ∧ issued f s.hist = some (p, s.m.hw.command f)

/-- `Holds` while the kernel serves an entry: a WAITIO finds the function free until its caller waits. -/
structure Serial (cfg : Cfg T) (s : KState T) (q : Queues) : Prop where
  holds : Holds cfg s q
  orderly : InOrderly cfg s.hist
  free : ∀ e m p f command, lastEntry s.hist = some (e, m) → Starts e f command → m.currentProc = some p →
    command ≠ cmdAck ∧ (Outstanding s.m.hw f → p ∈ q.waiting (devKey cfg f))

theorem serial_of_initial (h : Initial cfg s q) : Serial cfg s q where
  holds f p _ hp := by
    rw [h.queues] at hp
    cases hp
  orderly := inOrderly_of_initial h
  free e m p f command he := by
    rw [h.hist] at he
    cases he

theorem Holds.entered (h : Holds cfg s q) (hok : SerialEntry cfg s e) : Serial cfg (s.entered e) q where
  holds f p hf hp := by
    obtain ⟨hout, hi⟩ := h f p hf hp
    obtain ⟨hcmd, hst⟩ := hok.progress f
    refine ⟨?_, hi.trans (by rw [← hcmd]; rfl)⟩
    rcases hst with ⟨hs, hpend⟩ | ⟨-, -, hpend⟩
    · have hsame : SameFn s.m.hw e.hw f := ⟨hs, hcmd, hpend⟩
      exact hsame.outstanding.mpr hout
    · exact .inr hpend
  orderly := inOrderly_entered hok.orderly
  free e' m p f command he hstarts _ := by
    cases he
    exact ⟨hok.starts f command hstarts, fun hout => absurd hout (hok.free f command hstarts)⟩

theorem Serial.act {out : List Pid} (h : Serial cfg s q) (hs : Sound s.m.pool q out) (ha : Act cfg s q s' q') :
    Serial cfg s' q' := by
  obtain ⟨asl, sf, hrep⟩ := hs.rep
  have hlast := ha.lastEntry_eq
  have hfree := h.free
  rw [← hlast] at hfree
  refine ⟨?_, h.orderly.act ha, ?_⟩
  · cases ha.touch h.orderly with
    | quiet hw hwait hissued =>
      intro f p hf hp
      rw [hwait f hf] at hp
      rw [hw, hissued f]
      exact h.holds f p hf hp
    | @start e m p f command hentry hstarts hm hq hf hsame hwait hissued helse =>
      intro g r hg hr
      by_cases he : g = f
      · subst he
        obtain ⟨hack, hwaits⟩ := h.free e m p g command hentry hstarts hm
        have hnot : ¬ Outstanding s.m.hw g := fun hout => hq (.inr (.inr (.inl ⟨_, hwaits hout⟩)))
        have hready : s.m.hw.inProgress g = false :=
          Bool.eq_false_iff.mpr fun hp => hnot (outstanding_of_inProgress hp)
        rcases (hwait r).mp hr with rfl | hr
        · refine ⟨hsame.outstanding.mpr ((outstanding_issue hready).mpr hack), ?_⟩
          rw [hissued, if_pos hready, hsame.command, command_issue hready]
        · exact absurd (h.holds g r hg hr).1 hnot
      · rw [helse.waiting g hg he] at hr
        obtain ⟨hout, hi⟩ := h.holds g r hg hr
        refine ⟨(helse.hw g he).outstanding.mpr hout, ?_⟩
        rw [helse.issued g he, (helse.hw g he).command]
        exact hi
    | @finish f p hfin hsame hwait hissued helse =>
      intro g r hg hr
      by_cases he : g = f
      · -- the issuer was the only one to wait
        subst he
        have hrold : r ∈ q.waiting (devKey cfg g) := hwait ▸ List.mem_cons_of_mem _ hr
        have hpold : p ∈ q.waiting (devKey cfg g) := hwait ▸ List.mem_cons_self
        have hsome := (h.holds g r hg hrold).2.symm.trans (h.holds g p hg hpold).2
        obtain rfl : r = p := congrArg Prod.fst (Option.some.inj hsome)
        have hnd := hrep.waiting_nodup (devKey cfg g)
        rw [hwait] at hnd
        exact absurd hr (List.nodup_cons.mp hnd).1
      · rw [helse.waiting g hg he] at hr
        obtain ⟨hout, hi⟩ := h.holds g r hg hr
        refine ⟨(helse.hw g he).outstanding.mpr hout, ?_⟩
        rw [helse.issued g he, (helse.hw g he).command]
        exact hi
    | @death p _ hw hwait hissued =>
      intro f r hf hr
      rw [hwait] at hr
      obtain ⟨hout, hi⟩ := h.holds f r hf (List.mem_of_mem_erase hr)
      have hne : r ≠ p := fun he => (hrep.waiting_nodup (devKey cfg f)).not_mem_erase (he ▸ hr)
      rw [hw, hissued f, hi]
      exact ⟨hout, Option.filter_eq_some_iff.mpr ⟨rfl, decide_eq_true hne⟩⟩
  · intro e' m' r g c hentry' hstarts' hm'
    obtain ⟨hack, hwaits⟩ := hfree e' m' r g c hentry' hstarts' hm'
    rw [hlast] at hentry'
    have hg := exists_of_starts (h.orderly e' m' hentry') hstarts'
    refine ⟨hack, fun hout => ?_⟩
    cases ha.touch h.orderly with
    | quiet hw hwait _ =>
      rw [hw] at hout
      rw [hwait g hg]
      exact hwaits hout
    | @start e m p f command hentry hstarts hm hq hf hsame hwait hissued helse =>
      obtain ⟨rfl, rfl⟩ : e' = e ∧ m' = m := Prod.mk.inj (Option.some.inj (hentry'.symm.trans hentry))
      obtain rfl := starts_unique hstarts' hstarts
      obtain rfl : r = p := Option.some.inj (hm'.symm.trans hm)
      exact (hwait r).mpr (.inl rfl)
    | @finish f p hfin hsame hwait hissued helse =>
      have he : g ≠ f := by
        intro he
        subst he
        exact (outstanding_issue hfin.not_inProgress).mp (hsame.outstanding.mp hout) rfl
      rw [helse.waiting g hg he]
      exact hwaits ((helse.hw g he).outstanding.mp hout)
    | @death p hdead _ _ _ =>
      obtain ⟨e, m, hentry, hd⟩ := hdead
      obtain ⟨rfl, rfl⟩ : e' = e ∧ m' = m := Prod.mk.inj (Option.some.inj (hentry'.symm.trans hentry))
      exact absurd hd (not_doomed_of_starts hstarts' p)

/-- Between the entries of such a run. -/
theorem run_holds (h : Run cfg (SerialEntry cfg) s) : ∃ q, Between s q ∧ Holds cfg s q :=
  run_keeps_between (J := Serial cfg) (fun hok => hok.lawful) serial_of_initial (fun _ hok hh => hh.entered hok)
    (fun hs _ ha hi => hi.act hs ha) Serial.holds h

theorem Holds.held (h : Holds cfg s q) (hr : Rep s.m.pool q) : Held cfg s := by
  intro f p hf hp
  rw [hr.waitingList_eq] at hp
  exact h f p hf hp

/-! ## One who waits -/

/-- `p` waits for `f` as at the entry, or has been given the status that `f` had then. -/
inductive Awaits (cfg : Cfg T) (hw : Hw) (st : CpuState T) (f : DevFn) (p : Pid) (s : KState T) (q : Queues) : Prop where
  | waits : p ∈ q.waiting (devKey cfg f) → (s.m.pool.pcbs p).pS = st → SameFn hw s.m.hw f → Awaits cfg hw st f p s q
  | told : Finished hw f → (∀ key, p ∉ q.waiting key) → (s.m.pool.pcbs p).pS = st.setReturn (hw.status f) →
      Awaits cfg hw st f p s q

section
variable {hw : Hw} {st : CpuState T} {f : DevFn} {p : Pid} {out : List Pid}

/-- An act that does not concern `p`, or brings its status. -/
theorem Awaits.act (h : Awaits cfg hw st f p s q) (hf : Spec.Exists f) (hserial : Serial cfg s q)
    (hs : Sound s.m.pool q out) (ha : Act cfg s q s' q')
    (hrun : ∀ e m, lastEntry s.hist = some (e, m) → m.currentProc ≠ some p) (hkill : ¬ KillCall cfg s.hist p)
    (hfree : p ∉ q.free) : p ∉ q'.free ∧ Awaits cfg hw st f p s' q' := by
  obtain ⟨asl, sf, hrep⟩ := hs.rep
  obtain ⟨hfree', hrest⟩ := ha.rest hs hserial.orderly hrun hkill hfree
  refine ⟨hfree', ?_⟩
  cases h with
  | waits hp hpS hsame =>
    cases hrest with
    | kept hkeep _ hstay =>
      have hp' := hstay f hf hp
      refine .waits hp' (hkeep.trans hpS) (hsame.trans ?_)
      -- the function is in use before and after the act
      have hout := ((hserial.act hs ha).holds f p hf hp').1
      cases ha.touch hserial.orderly with
      | quiet hw' _ _ =>
        rw [hw']
        exact .refl _ _
      | @start e m r g command hentry hstarts hm hq _ _ _ _ helse =>
        refine helse.hw f fun he => ?_
        subst he
        obtain ⟨-, hwaits⟩ := hserial.free e m r f command hentry hstarts hm
        exact hq (.inr (.inr (.inl ⟨_, hwaits (hserial.holds f p hf hp).1⟩)))
      | finish hfin hissue _ _ helse =>
        refine helse.hw f fun he => ?_
        subst he
        exact (outstanding_issue hfin.not_inProgress).mp (hissue.outstanding.mp hout) rfl
      | death _ hw' _ _ =>
        rw [hw']
        exact .refl _ _
    | @told g hfin hg hnone htold =>
      obtain rfl := devKey_inj cfg hf hfin.exists (hrep.waiting_unique hp hg)
      refine .told (hsame.finished.mp hfin) hnone ?_
      rw [htold, hpS, hsame.status]
  | told hfin hnone hpS =>
    cases hrest with
    | kept hkeep hback _ => exact .told hfin (fun key hm => hnone key (hback key hm)) (hkeep.trans hpS)
    | told _ hg _ _ => exact absurd hg (hnone _)

end

/-- Between two entries who stops waiting has been given its status, or is killed. -/
theorem delivered_of_left {st : CpuState T} (hb : Between s q) (hh : Holds cfg s q) (hok : SerialEntry cfg s e)
    (hk : kernelStep cfg e s = .exit st s') {f : DevFn} {p : Pid} (hf : Spec.Exists f)
    (hp : p ∈ waitingList s.m (devKey cfg f)) (hlive : ¬ Doomed cfg e (s.entered e).m p)
    (hleft : p ∉ waitingList s'.m (devKey cfg f)) : Delivered cfg s e s' f p := by
  obtain ⟨asl, sf, hrep⟩ := hb.sound.rep
  rw [hb.sound.rep.waitingList_eq] at hp
  have hqueued : q.Queued p := .inr (.inr (.inl ⟨_, hp⟩))
  have hserial : Serial cfg (s.entered e) q := hh.entered hok
  let I := fun (t : KState T) (u : Queues) => Serial cfg t u ∧ lastEntry t.hist = some (e, (s.entered e).m) ∧ p ∉ u.free ∧
    Awaits cfg e.hw (s.m.pool.pcbs p).pS f p t u
  obtain ⟨q', hst, hs', -⟩ := step_steps hb.sound hb.slice hok.lawful hk
  have hI : I s' q' := by
    refine hst.keeps (fun {t t' u u' out out'} hs _ ha hi => ?_) ⟨hserial, rfl, hrep.waiting_not_free hp,
      .waits hp rfl (.refl e.hw f)⟩
    obtain ⟨hser, hlast, hfree, haw⟩ := hi
    have hrun : ∀ e' m', lastEntry t.hist = some (e', m') → m'.currentProc ≠ some p := by
      intro e' m' he hc
      rw [hlast] at he
      cases he
      have hc : s.m.currentProc = some p := hc
      exact hb.sound.placed.outside p (Option.mem_toList.mpr hc) hqueued
    have hkill : ¬ KillCall cfg t.hist p := by
      intro hk
      obtain ⟨e', m', he, hd⟩ := hk
      rw [hlast] at he
      cases he
      exact hlive hd
    exact ⟨hser.act hs ha, ha.lastEntry_eq.trans hlast, haw.act hf hser hs ha hrun hkill hfree⟩
  obtain ⟨-, -, hfree, haw⟩ := hI
  rw [hs'.rep.waitingList_eq] at hleft
  cases haw with
  | waits hp' => exact absurd hp' hleft
  | told hfin hnone hpS =>
    refine ⟨hfin, ?_, ?_, hpS⟩
    · rw [(hh f p hf hp).2, (hok.progress f).1]
    · rw [hs'.rep.readyList_eq]
      rcases hs'.placed.covered p (hb.sound.placed.small p hqueued) with hq | hout
      · rcases (hs'.placed.queued_iff p).mp hq with hq | hq | ⟨key, hq⟩
        · exact absurd hq hfree
        · exact .inl hq
        · exact absurd hq (hnone key)
      · exact .inr (Option.mem_toList.mp hout)

/-- In a run in which WAITIO finds the function free, those who wait for a function wait for an outstanding operation
of their own, and who stops waiting has been given its status, or is killed. -/
theorem delivers (h : Run cfg (SerialEntry cfg) s) : Held cfg s ∧
    ∀ e st s', SerialEntry cfg s e → kernelStep cfg e s = .exit st s' → ∀ f p, Spec.Exists f →
      p ∈ waitingList s.m (devKey cfg f) → ¬ Doomed cfg e (s.entered e).m p →
      p ∉ waitingList s'.m (devKey cfg f) → Delivered cfg s e s' f p := by
  obtain ⟨q, hb, hh⟩ := run_holds h
  exact ⟨hh.held hb.sound.rep, fun e st s' hok hk f p hf hp hlive hleft =>
    delivered_of_left hb hh hok hk hf hp hlive hleft⟩

/-! ## One WAITIO -/

theorem not_doomed_of_int {m : Machine T} (h : e.area = .int) (p : Pid) : ¬ Doomed cfg e m p := by
  intro hd
  obtain ⟨root, hc | hc | hc, -⟩ := hd
  · exact absurd (h.symm.trans hc.1.1) (by decide)
  · obtain ⟨-, type, hraise, -⟩ := hc
    unfold Raises at hraise
    rw [h] at hraise
    exact hraise
  · exact absurd (h.symm.trans hc.2.1.1) (by decide)

/-- The transmitter of terminal 0. -/
abbrev transmitter : DevFn := ⟨devIndex ilTerminal 0, false⟩

theorem commandEntry_of_transmit {s : KState .umps} {c : Word} (hc : c ≠ cmdAck)
    (hs : isLawful demo s (syscall s 6 c (Target.devRegAddr .umps ilTerminal 0) 0) = true) :
    CommandEntry demo s (syscall s 6 c (Target.devRegAddr .umps ilTerminal 0) 0) := by
  refine ⟨deviceEntry_of_transmit c hs, fun f command hstarts => ?_⟩
  rw [hstarts.2.1]
  exact hc

/-- Entries that are no WAITIO start nothing. -/
theorem commandEntry_of_not {s : KState .umps} {e : Entry .umps} (h : DeviceEntry demo s e) (h6 : ¬ IsCall e 6) :
    CommandEntry demo s e := ⟨h, fun _ _ hstarts => absurd hstarts.1 h6⟩

/-- When the transmission is over, the first process is given its status. -/
theorem delivers_transmitting :
    let e := interrupt transmitting ilTerminal (finish transmitting.m.hw transmitter 0x4105)
    Held demo transmitting ∧ Delivered demo transmitting e (after demo transmitting e) transmitter 19 := by
  intro e
  have hfree : ∀ f command, Starts (syscall (booted demo) 6 0x4102 (Target.devRegAddr .umps ilTerminal 0) 0) f command →
      ¬ Outstanding (booted demo).m.hw f := by
    intro f command hstarts
    obtain rfl : transmitter = f := Option.some.inj ((by decide +kernel : some transmitter = _).trans hstarts.2.2)
    decide +kernel
  have hrun : Run demo (SerialEntry demo) transmitting :=
    run_after (run_booted demo _) ⟨commandEntry_of_transmit (by decide) (by decide +kernel), hfree⟩ (by decide +kernel)
  have hdev : DeviceEntry demo transmitting e :=
    deviceEntry_of_int (progress_finish (by decide +kernel) (by decide))
  have hno : ¬ IsCall e 6 := fun hc => absurd hc.1 (by show OldArea.int ≠ .sysbk; decide)
  obtain ⟨st, hk⟩ := kernelStep_after (by decide +kernel : exits demo transmitting e = true)
  obtain ⟨hheld, hdel⟩ := delivers hrun
  refine ⟨hheld, hdel e st _ ⟨commandEntry_of_not hdev hno, fun _ _ hstarts => absurd hstarts.1 hno⟩ hk transmitter 19 ?_
    (by decide +kernel) (not_doomed_of_int rfl 19) (by decide +kernel)⟩
  exact ⟨by decide, fun h => absurd h (by decide)⟩

/-! ## Two at once -/

/-- The parent makes a WAITIO on the transmitter that its child waits for. -/
def overlapping : KState .umps :=
  after demo childTransmits (syscall childTransmits 6 0x4202 (Target.devRegAddr .umps ilTerminal 0) 0)

/-- The register is frozen: the command of the parent is not accepted, and the parent waits for nothing. -/
theorem delivers_fails : ¬ ∀ s : KState .umps, Run demo (CommandEntry demo) s → Held demo s := by
  intro h
  have hforked : Run demo (CommandEntry demo) forked := by
    refine run_after (run_booted demo _) (commandEntry_of_not (deviceEntry_of_call ?_ ?_ ?_ ?_) ?_) ?_ <;> decide +kernel
  have hchild : Run demo (CommandEntry demo) childRuns :=
    run_after hforked (commandEntry_of_not (deviceEntry_of_int (.refl _)) (by decide +kernel)) (by decide +kernel)
  have htransmits : Run demo (CommandEntry demo) childTransmits :=
    run_after hchild (commandEntry_of_transmit (by decide) (by decide +kernel)) (by decide +kernel)
  have hrun : Run demo (CommandEntry demo) overlapping :=
    run_after htransmits (commandEntry_of_transmit (by decide) (by decide +kernel)) (by decide +kernel)
  have hheld := h overlapping hrun transmitter 19 ⟨by decide, fun h => absurd h (by decide)⟩ (by decide +kernel)
  exact absurd hheld.2 (by decide +kernel)

end Bikaya.Results
