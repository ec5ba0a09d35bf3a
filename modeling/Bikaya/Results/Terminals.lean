import Bikaya.Kernel.Replay
import Bikaya.Kernel.Service
import Bikaya.Results.Killing

/-!
# Terminals

`ServesTerminal` : `handle_term` wakes the waiter of every side that has finished with the status of that side,
whatever it is, and leaves the sides that are ready or busy alone. It does so if and only if, on the sides that have
finished, those have a waiter whose status is `ST_TRANSMITTED` (`servesTerminal_iff`): an error is taken for an
operation that goes on.
-/

namespace Bikaya.Results
open Bikaya.Lib Bikaya.Model Bikaya.Spec Bikaya.Refine Bikaya.Kernel Bikaya.Model.KM

variable {T : Target} {cfg : Cfg T} {s : KState T}

/-- A side of a terminal. -/
def side (i : Nat) (rx : Bool) : DevFn := ⟨devIndex ilTerminal i, rx⟩

/-- The low byte of the status. -/
def statusByte (hw : Hw) (f : DevFn) : Word := hw.status f &&& termStatusMask

/-- The last command is over, with success or an error: the side is installed, and neither ready nor busy. -/
def Done (hw : Hw) (f : DevFn) : Prop := statusByte hw f ≠ 0 ∧ statusByte hw f ≠ stReady ∧ statusByte hw f ≠ stBusy

instance (hw : Hw) (f : DevFn) : Decidable (Done hw f) := by
  unfold Done
  infer_instance

/-- The first waiter of the function is ready with its status, and the function is acknowledged. -/
structure Answered (cfg : Cfg T) (m m' : Machine T) (f : DevFn) : Prop where
  woken : ∃ p, waitingList m (devKey cfg f) = p :: waitingList m' (devKey cfg f) ∧ p ∈ readyList m' ∧
    (m'.pool.pcbs p).pS = (m.pool.pcbs p).pS.setReturn (m.hw.status f)
  acked : Acked m'.hw f

/-- Who waits for the function still does, and nothing is written to it. -/
structure LeftAlone (cfg : Cfg T) (m m' : Machine T) (f : DevFn) : Prop where
  waiting : waitingList m' (devKey cfg f) = waitingList m (devKey cfg f)
  same : SameFn m.hw m'.hw f

/-- `handle_term` serves the sides that have finished, and no other. -/
def ServesTerminal (cfg : Cfg T) (s : KState T) (i : Nat) : Prop :=
  ∃ s', handleTerm cfg (T.devRegAddr ilTerminal i) s = .ret () s' ∧ ∀ rx,
    (Done s.m.hw (side i rx) → waitingList s.m (devKey cfg (side i rx)) ≠ [] → Answered cfg s.m s'.m (side i rx)) ∧
    (statusByte s.m.hw (side i rx) = stReady ∨ statusByte s.m.hw (side i rx) = stBusy →
      LeftAlone cfg s.m s'.m (side i rx))

/-! ## Services, read off the machines -/

section
variable {s' : KState T} {q q' : Queues} {fs : List DevFn} (h : Service cfg s q fs s' q') (hr : Rep s.m.pool q)
  (hr' : Rep s'.m.pool q')
include h hr hr'

theorem answered_of_service {f : DevFn} (hf : f ∈ fs) : Answered cfg s.m s'.m f := by
  obtain ⟨p, hw, hp, hpS⟩ := h.woken f hf
  refine ⟨⟨p, ?_, ?_, hpS⟩, h.acked f hf⟩
  · rw [hr.waitingList_eq, hr'.waitingList_eq]
    exact hw
  · rw [hr'.readyList_eq]
    exact hp

theorem leftAlone_of_service {f : DevFn} (he : Exists f) (hf : f ∉ fs) : LeftAlone cfg s.m s'.m f := by
  refine ⟨?_, h.others f hf⟩
  rw [hr.waitingList_eq, hr'.waitingList_eq]
  refine h.waiting _ fun g hg hk => hf ?_
  rw [devKey_inj cfg he (h.finished g hg).exists hk]
  exact hg

end

/-! ## Both sides -/

theorem side_exists {i : Nat} (hi : i < 8) (rx : Bool) : Exists (side i rx) := by
  unfold Spec.Exists side devIndex
  simp only [ilTerminal, devIlStart, nDevPerIl]
  exact ⟨by omega, fun hlt => by omega⟩

theorem done_of_finished {i : Nat} (hi : i < 8) {rx : Bool} {hw : Hw} (h : Finished hw (side i rx)) :
    Done hw (side i rx) := by
  have hst : statusByte hw (side i rx) = stTransmitted := (finished_terminal hi rx).mp h
  unfold Done
  rw [hst]
  decide

section
variable {q : Queues} {out : List Pid} (hs : Sound s.m.pool q out) {i : Nat} (hi : i < 8)
include hs hi

/-- An error is left unserved, and success without a waiter is fatal. -/
theorem transmitted_iff_of_serves (h : ServesTerminal cfg s i) (rx : Bool) (hdone : Done s.m.hw (side i rx)) :
    waitingList s.m (devKey cfg (side i rx)) ≠ [] ↔ statusByte s.m.hw (side i rx) = stTransmitted := by
  have hwp := handleTerm_attends cfg hs hi
  obtain ⟨s', hk, hside⟩ := h
  unfold Attends Exec.wp at hwp
  rw [hk] at hwp
  obtain ⟨fs, q', hserv, hs', hfs⟩ := hwp
  constructor
  · intro hw
    by_contra hst
    have hf : side i rx ∉ fs := fun hf => hst ((finished_terminal hi rx).mp ((hfs _).mp hf).1)
    have hready : s.m.hw.status (side i rx) = stReady :=
      (hserv.others _ hf).status.symm.trans ((hside rx).1 hdone hw).acked.status
    refine hdone.2.1 ?_
    unfold statusByte
    rw [hready]
    decide
  · intro hst
    obtain ⟨p, hw, -⟩ := hserv.woken (side i rx) ((hfs _).mpr ⟨(finished_terminal hi rx).mpr hst, rfl⟩)
    rw [hs.rep.waitingList_eq, hw]
    exact List.cons_ne_nil _ _

theorem serves_of_transmitted_iff (h : ∀ rx, Done s.m.hw (side i rx) →
    (waitingList s.m (devKey cfg (side i rx)) ≠ [] ↔ statusByte s.m.hw (side i rx) = stTransmitted)) :
    ServesTerminal cfg s i := by
  obtain ⟨⟨⟩, s', hk, fs, q', hserv, hs', hfs⟩ := wp_returns (handleTerm_attends cfg hs hi) fun _ hstuck => by
    obtain ⟨⟨d, rx⟩, hfin, hd, hw⟩ := hstuck
    obtain rfl : d = devIndex ilTerminal i := hd
    rw [← hs.rep.waitingList_eq] at hw
    exact (h rx (done_of_finished hi hfin)).mpr ((finished_terminal hi rx).mp hfin) hw
  refine ⟨s', hk, fun rx => ⟨fun hdone hw => ?_, fun hst => ?_⟩⟩
  · have hfin := (finished_terminal hi rx).mpr ((h rx hdone).mp hw)
    exact answered_of_service hserv hs.rep hs'.rep ((hfs _).mpr ⟨hfin, rfl⟩)
  · refine leftAlone_of_service hserv hs.rep hs'.rep (side_exists hi rx) fun hf => ?_
    have hdone := done_of_finished hi ((hfs _).mp hf).1
    exact hst.elim hdone.2.1 hdone.2.2

end

/-- `handle_term` serves the sides that have finished if and only if, on each of them, a process waits just when the
status is `ST_TRANSMITTED`. -/
theorem servesTerminal_iff (h : WellFormed s.m) {i : Nat} (hi : i < 8) : ServesTerminal cfg s i ↔
    ∀ rx, Done s.m.hw (side i rx) →
      (waitingList s.m (devKey cfg (side i rx)) ≠ [] ↔ statusByte s.m.hw (side i rx) = stTransmitted) := by
  obtain ⟨q, out, hs⟩ := h
  exact ⟨transmitted_iff_of_serves hs hi, serves_of_transmitted_iff hs hi⟩

/-- The first process waits for the transmitter of terminal 0, which ends with this status. -/
def transmitted (status : Word) : KState .umps :=
  transmitting.entered (interrupt transmitting ilTerminal (finish transmitting.m.hw (side 0 false) status))

theorem wellFormed_transmitted (status : Word) : WellFormed (transmitted status).m := by
  obtain ⟨q, out, hs⟩ := run_wellFormed run_transmitting
  exact ⟨q, out, hs⟩

theorem servesTerminal_transmitted : ServesTerminal demo (transmitted 0x4105) 0 ↔
    ∀ rx, Done (transmitted 0x4105).m.hw (side 0 rx) →
      (waitingList (transmitted 0x4105).m (devKey demo (side 0 rx)) ≠ [] ↔
        statusByte (transmitted 0x4105).m.hw (side 0 rx) = stTransmitted) :=
  servesTerminal_iff (wellFormed_transmitted 0x4105) (by decide)

/-- A transmission error is not served. -/
theorem servesTerminal_fails : ¬ ∀ (s : KState .umps) (i : Nat), WellFormed s.m → i < 8 →
    (∃ rx, Done s.m.hw (side i rx) ∧ waitingList s.m (devKey demo (side i rx)) ≠ []) → ServesTerminal demo s i := by
  intro h
  have hdone : Done (transmitted 0x4104).m.hw (side 0 false) := by decide +kernel
  have hw : waitingList (transmitted 0x4104).m (devKey demo (side 0 false)) ≠ [] := by decide +kernel
  have hserv := h (transmitted 0x4104) 0 (wellFormed_transmitted 0x4104) (by decide) ⟨false, hdone, hw⟩
  obtain ⟨q, out, hs⟩ := wellFormed_transmitted 0x4104
  have hst := (transmitted_iff_of_serves hs (by decide) hserv false hdone).mp hw
  exact absurd hst (by decide +kernel)

end Bikaya.Results
