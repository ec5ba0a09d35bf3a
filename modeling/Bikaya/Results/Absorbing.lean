import Bikaya.Kernel.Operations
import Bikaya.Kernel.Replay
import Bikaya.Kernel.Service

/-!
# Interrupts of operations that were started

`Absorbs` : on an interrupt every operation that is reported is acknowledged, and nobody is woken for one whose issuer
is gone. So it is if and only if all the operations that are reported have issuers that live (`absorbs_iff`). A process
that is killed too early leaves an operation without a waiter, and `unblock_process` dereferences NULL.
-/

namespace Bikaya.Results
open Bikaya.Lib Bikaya.Model Bikaya.Spec Bikaya.Refine Bikaya.Kernel Bikaya.Model.KM

variable {T : Target} {cfg : Cfg T} {s : KState T} {e : Entry T}

/-- Devices end only operations that are in progress, and programs start them only by WAITIO. -/
structure DeviceEntry (cfg : Cfg T) (s : KState T) (e : Entry T) : Prop where
  lawful : Lawful cfg s e
  progress : Progress s.m.hw e.hw
  orderly : Orderly cfg e

/-- The kernel gets over the interrupt: what is reported is acknowledged, once, and nobody is woken for an operation
whose issuer has been killed. -/
def Absorbs (cfg : Cfg T) (s : KState T) (e : Entry T) : Prop :=
  ∃ st s', kernelStep cfg e s = .exit st s' ∧ ∀ f, Wakes e f → acks f s'.hist = acks f s.hist + 1 ∧ Acked s'.m.hw f ∧
    (issued f s.hist = none → waitingList s'.m (devKey cfg f) = waitingList s.m (devKey cfg f))

/-- Between the entries of a run the living issuers of the outstanding operations wait for them. -/
theorem run_manned (hq : NoOperation cfg.hw0) (h : Run cfg (DeviceEntry cfg) s) : ∃ q, Between s q ∧ Manned cfg s q :=
  run_keeps_between (J := fun s q => Manned cfg s q ∧ InOrderly cfg s.hist) (fun hok => hok.lawful)
    (fun h₀ => ⟨manned_of_initial h₀ hq, inOrderly_of_initial h₀⟩)
    (fun _ hok hm => ⟨hm.entered hok.progress, inOrderly_entered hok.orderly⟩)
    (fun _ _ ha hm => ⟨hm.1.act ha hm.2, hm.2.act ha⟩) And.left h

theorem issued_of_absorbs {q : Queues} (hb : Between s q) (hint : e.area = .int) (h : Absorbs cfg s e) {f : DevFn}
    (hf : Wakes e f) : issued f s.hist ≠ none := by
  obtain ⟨st, s', hk, hacked⟩ := h
  have hwp := kernelStep_interrupted cfg hb.sound hint
  unfold Exec.wp at hwp
  rw [hk] at hwp
  obtain ⟨fs, q', hi, hfs⟩ := hwp
  intro hnone
  have hsame := (hacked f hf).2.2 hnone
  obtain ⟨p, hw, -⟩ := hi.woken f ((hfs f).mpr hf)
  rw [hi.sound.rep.waitingList_eq, hb.sound.rep.waitingList_eq, hw] at hsame
  exact absurd hsame.symm (List.cons_ne_self _ _)

/-- On an interrupt in a run, all that is reported is absorbed if and only if those who started it live. -/
theorem absorbs_iff (hq : NoOperation cfg.hw0) (h : Run cfg (DeviceEntry cfg) s) (hok : DeviceEntry cfg s e)
    (hint : e.area = .int) : Absorbs cfg s e ↔ ∀ f, Wakes e f → issued f s.hist ≠ none := by
  obtain ⟨q, hb, hm⟩ := run_manned hq h
  refine ⟨fun ha f hf => issued_of_absorbs hb hint ha hf, fun hlive => ?_⟩
  have hm' : Manned cfg (s.entered e) q := hm.entered hok.progress
  obtain ⟨st, s', hk, fs, q', hi, hfs⟩ := wp_exits (Exec.wp_mono (kernelStep_interrupted cfg hb.sound hint)
    (fun _ _ h => h) (fun _ _ h => h) fun _ hstuck => by
      obtain ⟨f, hf, hw⟩ := hstuck
      obtain ⟨i, hi⟩ := Option.ne_none_iff_exists'.mp (hlive f hf)
      have hp := hm'.issuer f i.1 i.2 hf.1.exists (hm'.asked f hf.1) hi
      rw [hw] at hp
      cases hp)
  refine ⟨st, s', hk, fun f hf => ?_⟩
  have hmem := (hfs f).mpr hf
  refine ⟨?_, hi.acked f hmem, fun hnone => absurd hnone (hlive f hf)⟩
  rw [hi.acks f, List.count_eq_one_of_mem hi.nodup hmem, acks_entered]

/-! ## Entries that meet the rules -/

/-- An interrupt is no system call. -/
theorem orderly_of_int (h : e.area = .int) : Orderly cfg e where
  valid hc := absurd (h.symm.trans hc.1) (by decide)
  semaphores hc := by
    rcases hc with hc | hc <;> exact absurd (h.symm.trans hc.1) (by decide)

/-- Neither is there anything to observe at other calls than VERHOGEN, PASSEREN and WAITIO. -/
theorem orderly_of_call (h4 : ¬ IsCall e 4) (h5 : ¬ IsCall e 5) (h6 : ¬ IsCall e 6) : Orderly cfg e where
  valid hc := absurd hc h6
  semaphores hc := by
    rcases hc with hc | hc
    · exact absurd hc h4
    · exact absurd hc h5

theorem progress_finish {hw : Hw} {f : DevFn} {status : Word} (hb : hw.status f = stBusy) (hst : status ≠ stBusy) :
    Progress hw (finish hw f status) := by
  intro g
  refine ⟨rfl, ?_⟩
  by_cases hg : g = f
  · subst hg
    have hself : (finish hw g status).status g = status := Function.update_self _ _ _
    exact .inr ⟨hb, by rwa [hself], Function.update_self _ _ _⟩
  · exact .inl ⟨Function.update_of_ne hg _ _, Function.update_of_ne hg _ _⟩

/-- A system call other than VERHOGEN, PASSEREN and WAITIO. -/
theorem deviceEntry_of_call {s : KState .umps} {n a b c : Word} (hs : isLawful demo s (syscall s n a b c) = true)
    (h4 : ¬ IsCall (syscall s n a b c) 4) (h5 : ¬ IsCall (syscall s n a b c) 5) (h6 : ¬ IsCall (syscall s n a b c) 6) :
    DeviceEntry demo s (syscall s n a b c) :=
  ⟨lawful_of_check hs, .refl _, orderly_of_call h4 h5 h6⟩

/-- A WAITIO on the transmitter of terminal 0. -/
theorem deviceEntry_of_transmit {s : KState .umps} (c : Word)
    (hs : isLawful demo s (syscall s 6 c (Target.devRegAddr .umps ilTerminal 0) 0) = true) :
    DeviceEntry demo s (syscall s 6 c (Target.devRegAddr .umps ilTerminal 0) 0) := by
  refine ⟨lawful_of_check hs, .refl _, fun _ => ⟨⟨ilTerminal, 0, ⟨by decide, by decide⟩, by decide, rfl⟩, ?_⟩,
    fun hc => ?_⟩
  · show (0 : Word).toNat % 256 ≤ 1
    decide
  · have hn : ∀ n, n ≠ 6 → ¬ IsCall (syscall s 6 c (Target.devRegAddr .umps ilTerminal 0) 0) n :=
      fun n hne hc => hne hc.2.2.symm
    rcases hc with hc | hc
    · exact absurd hc (hn 4 (by decide))
    · exact absurd hc (hn 5 (by decide))

/-- An interrupt. -/
theorem deviceEntry_of_int {s : KState .umps} {line : Nat} {hw : Hw} (hp : Progress s.m.hw hw) :
    DeviceEntry demo s (interrupt s line hw) :=
  ⟨lawful_of_int rfl, hp, orderly_of_int rfl⟩

theorem noOperation_demo : NoOperation demo.hw0 := by
  intro f
  refine ⟨by show ¬ (stReady = stBusy ∨ false = true); decide, ?_⟩
  unfold Finished
  split
  · exact fun h => Bool.false_ne_true h.2
  · exact fun h => absurd h.2 (by show ¬ (stReady &&& termStatusMask = stTransmitted); decide)

theorem run_transmitting_device : Run demo (DeviceEntry demo) transmitting :=
  run_after (run_booted demo _) (deviceEntry_of_transmit 0x4102 (by decide +kernel)) (by decide +kernel)

/-- The transmitter that the first process waits for has finished. -/
theorem absorbs_transmitting :
    let e := interrupt transmitting ilTerminal (finish transmitting.m.hw ⟨devIndex ilTerminal 0, false⟩ 0x4105)
    Absorbs demo transmitting e ↔ ∀ f, Wakes e f → issued f transmitting.hist ≠ none :=
  absorbs_iff noOperation_demo run_transmitting_device
    (deviceEntry_of_int (progress_finish (by decide +kernel) (by decide))) rfl

/-! ## A process killed too early -/

/-- The child waits for the transmitter of terminal 0. -/
def childTransmits : KState .umps :=
  after demo childRuns (syscall childRuns 6 0x4102 (Target.devRegAddr .umps ilTerminal 0) 0)

/-- Its parent terminates it. -/
def childKilled : KState .umps := after demo childTransmits (syscall childTransmits 3 (demo.pcbAddr 18) 0 0)

theorem run_childRuns_device : Run demo (DeviceEntry demo) childRuns := by
  have hforked : Run demo (DeviceEntry demo) forked := by
    refine run_after (run_booted demo _) (deviceEntry_of_call ?_ ?_ ?_ ?_) ?_ <;> decide +kernel
  exact run_after hforked (deviceEntry_of_int (.refl _)) (by decide +kernel)

theorem run_childTransmits : Run demo (DeviceEntry demo) childTransmits :=
  run_after run_childRuns_device (deviceEntry_of_transmit 0x4102 (by decide +kernel)) (by decide +kernel)

/-- When the transmission is over, the kernel dereferences NULL. -/
theorem absorbs_fails : ¬ ∀ (s : KState .umps) (e : Entry .umps), Run demo (DeviceEntry demo) s →
    DeviceEntry demo s e → e.area = .int → Absorbs demo s e := by
  intro h
  have hrun : Run demo (DeviceEntry demo) childKilled := by
    refine run_after run_childTransmits (deviceEntry_of_call ?_ ?_ ?_ ?_) ?_ <;> decide +kernel
  let e := interrupt childKilled ilTerminal (finish childKilled.m.hw ⟨devIndex ilTerminal 0, false⟩ 0x4105)
  obtain ⟨st, s', hk, -⟩ := h childKilled e hrun (deviceEntry_of_int (progress_finish (by decide +kernel) (by decide))) rfl
  have hx : exits demo childKilled e = false := by decide +kernel
  unfold exits at hx
  rw [hk] at hx
  cases hx

end Bikaya.Results
