import Bikaya.Kernel.Replay
import Bikaya.Kernel.Service

/-!
# Which devices an interrupt covers

`Covers` : on an interrupt every function that asks for service on a pending line is acknowledged once and its first
waiter gets its status, and nothing happens to the others. The handler covers the devices if and only if the interrupt
is `Regular` (`covers_iff`): the branch of the printers serves the Ethernet line, and a terminal is judged by its
status alone.
-/

namespace Bikaya.Results
open Bikaya.Lib Bikaya.Model Bikaya.Spec Bikaya.Refine Bikaya.Kernel Bikaya.Model.KM

variable {T : Target} {cfg : Cfg T} {s : KState T} {e : Entry T}

/-- The line of the function is pending in the cause register, and so is the interrupt of the function, which sets the
bit of its device in the bitmap of the line. -/
def Asks (e : Entry T) (f : DevFn) : Prop :=
  T.intIsPending (e.st T.cause) (devLine f) = true ∧ e.hw.pending f = true

instance (e : Entry T) (f : DevFn) : Decidable (Asks e f) := by
  unfold Asks
  infer_instance

/-- Between `s` and `s'` the function is acknowledged once, and its first waiter becomes ready with its status. It may
be the one that runs next. -/
structure Covered (cfg : Cfg T) (s : KState T) (e : Entry T) (s' : KState T) (f : DevFn) : Prop where
  once : acks f s'.hist = acks f s.hist + 1
  acked : Acked s'.m.hw f
  woken : ∃ p, waitingList s.m (devKey cfg f) = p :: waitingList s'.m (devKey cfg f) ∧
    (p ∈ readyList s'.m ∨ s'.m.currentProc = some p) ∧
    (s'.m.pool.pcbs p).pS = (s.m.pool.pcbs p).pS.setReturn (e.hw.status f)

/-- The function is not acknowledged, and who waits for it still does. -/
structure Passed (cfg : Cfg T) (s s' : KState T) (f : DevFn) : Prop where
  never : acks f s'.hist = acks f s.hist
  waiting : waitingList s'.m (devKey cfg f) = waitingList s.m (devKey cfg f)

/-- The interrupt covers the functions that ask, and no other. -/
def Covers (cfg : Cfg T) (s : KState T) (e : Entry T) : Prop :=
  ∃ st s', kernelStep cfg e s = .exit st s' ∧ ∀ f, Spec.Exists f →
    (Asks e f → Covered cfg s e s' f) ∧ (¬ Asks e f → Passed cfg s s' f)

/-- No printer asks; a printer interrupt without an Ethernet interrupt finds no network device interrupting; and of
the terminals that interrupt, the sides that have an interrupt pending are those with the status `ST_TRANSMITTED`. -/
structure Regular (e : Entry T) : Prop where
  printers : T.intIsPending (e.st T.cause) ilPrinter = true → ∀ i < 8, e.hw.pending ⟨devIndex ilPrinter i, false⟩ = false
  network : T.intIsPending (e.st T.cause) ilPrinter = true → T.intIsPending (e.st T.cause) ilEthernet = false →
    ∀ i < 8, e.hw.pending ⟨devIndex ilEthernet i, false⟩ = false
  terminals : T.intIsPending (e.st T.cause) ilTerminal = true → ∀ i < 8, e.hw.interrupting ilTerminal i = true → ∀ rx,
    (e.hw.pending ⟨devIndex ilTerminal i, rx⟩ = true ↔
      e.hw.status ⟨devIndex ilTerminal i, rx⟩ &&& termStatusMask = stTransmitted)

/-! ## What is regular -/

/-- A function by its line and its number. -/
theorem forall_exists_iff {P : DevFn → Prop} : (∀ f, Spec.Exists f → P f) ↔
    (∀ line, IsLine line → line ≠ ilTerminal → ∀ i < 8, P ⟨devIndex line i, false⟩) ∧
      ∀ i < 8, ∀ rx, P ⟨devIndex ilTerminal i, rx⟩ := by
  have hdev : ∀ {line i}, IsLine line → i < 8 → devIndex line i < 40 ∧ (line = ilTerminal → 32 ≤ devIndex line i) := by
    intro line i hl hi
    obtain ⟨h1, h2⟩ := hl
    unfold devIndex
    simp only [devIlStart, nDevPerIl, ilTerminal]
    omega
  constructor
  · intro h
    refine ⟨fun line hl _ i hi => h _ ⟨(hdev hl hi).1, fun _ => rfl⟩, fun i hi rx => h _ ?_⟩
    have hl : IsLine ilTerminal := ⟨by decide, by decide⟩
    exact ⟨(hdev hl hi).1, fun hlt => absurd ((hdev hl hi).2 rfl) (Nat.not_le_of_lt hlt)⟩
  · intro h f he
    obtain ⟨d, rx⟩ := f
    have hi : d % nDevPerIl < 8 := Nat.mod_lt _ (by decide)
    have hl := devLine_isLine he
    have hd : d = devIndex (devLine ⟨d, rx⟩) (d % nDevPerIl) := (dev_eq_iff hl hi ⟨d, rx⟩).mpr ⟨rfl, rfl⟩
    by_cases h7 : devLine ⟨d, rx⟩ = ilTerminal
    · rw [h7] at hd
      rw [hd]
      exact h.2 _ hi rx
    · have hrx : rx = false := by
        refine he.2 ?_
        have h40 := he.1
        unfold devLine at h7
        simp only [devIlStart, nDevPerIl, ilTerminal] at h7 h40 ⊢
        omega
      rw [hd, hrx]
      exact h.1 _ (hrx ▸ hl) (hrx ▸ h7) _ hi

section
variable {line i : Nat} (hl : IsLine line) (hi : i < 8)
include hl hi

theorem asks_iff (rx : Bool) : Asks e ⟨devIndex line i, rx⟩ ↔
    T.intIsPending (e.st T.cause) line = true ∧ e.hw.pending ⟨devIndex line i, rx⟩ = true := by
  unfold Asks devLine
  rw [devIndex_div hl hi]

theorem wakes_device_iff (h7 : line ≠ ilTerminal) : Wakes e ⟨devIndex line i, false⟩ ↔
    LineServed T (e.st T.cause) line ∧ e.hw.pending ⟨devIndex line i, false⟩ = true := by
  have hint : e.hw.interrupting line i = e.hw.pending ⟨devIndex line i, false⟩ := by
    unfold Hw.interrupting
    rw [beq_false_of_ne h7, Bool.false_and, Bool.or_false, devIndex]
  unfold Wakes
  rw [finished_device hl h7 hi, devIndex_div hl hi, devIndex_mod hi, hint]
  tauto

end

theorem wakes_terminal_iff {i : Nat} (hi : i < 8) (rx : Bool) : Wakes e ⟨devIndex ilTerminal i, rx⟩ ↔
    e.hw.status ⟨devIndex ilTerminal i, rx⟩ &&& termStatusMask = stTransmitted ∧
      T.intIsPending (e.st T.cause) ilTerminal = true ∧ e.hw.interrupting ilTerminal i = true := by
  have hl : IsLine ilTerminal := ⟨by decide, by decide⟩
  unfold Wakes
  rw [finished_terminal hi rx, devIndex_div hl hi, devIndex_mod hi]
  unfold LineServed
  simp

theorem regular_iff : Regular e ↔ ∀ f, Spec.Exists f → (Asks e f ↔ Wakes e f) := by
  have hlines : ∀ {line}, IsLine line → line = 3 ∨ line = 4 ∨ line = 5 ∨ line = 6 ∨ line = 7 := by
    intro line hl
    obtain ⟨h1, h2⟩ := hl
    omega
  have hinterrupting : ∀ i rx, e.hw.pending ⟨devIndex ilTerminal i, rx⟩ = true → e.hw.interrupting ilTerminal i = true := by
    intro i rx h
    unfold Hw.interrupting
    rw [← devIndex]
    cases rx <;> simp [h]
  rw [forall_exists_iff]
  constructor
  · intro h
    refine ⟨fun line hl h7 i hi => ?_, fun i hi rx => ?_⟩
    · rw [asks_iff hl hi, wakes_device_iff hl hi h7]
      unfold LineServed
      rcases hlines hl with rfl | rfl | rfl | rfl | rfl
      · simp
      · simp
      · have hnet := fun hp h5 => h.network hp h5 i hi
        cases h5 : T.intIsPending (e.st T.cause) 5 <;> cases h6 : T.intIsPending (e.st T.cause) 6 <;> simp [h5, h6] at hnet ⊢
        exact hnet
      · have hprn := fun hp => h.printers hp i hi
        cases h6 : T.intIsPending (e.st T.cause) 6 <;> simp [h6] at hprn ⊢
        exact hprn
      · exact absurd rfl h7
    · rw [asks_iff ⟨by decide, by decide⟩ hi, wakes_terminal_iff hi]
      constructor
      · intro ha
        obtain ⟨hp, hf⟩ := ha
        have hint := hinterrupting i rx hf
        exact ⟨(h.terminals hp i hi hint rx).mp hf, hp, hint⟩
      · intro hw
        obtain ⟨hst, hp, hint⟩ := hw
        exact ⟨hp, (h.terminals hp i hi hint rx).mpr hst⟩
  · intro h
    obtain ⟨hdev, hterm⟩ := h
    constructor
    · intro hp i hi
      have := hdev 6 ⟨by decide, by decide⟩ (by decide) i hi
      rw [asks_iff ⟨by decide, by decide⟩ hi, wakes_device_iff ⟨by decide, by decide⟩ hi (by decide)] at this
      simpa [LineServed, hp] using this
    · intro hp h5 i hi
      have := hdev 5 ⟨by decide, by decide⟩ (by decide) i hi
      rw [asks_iff ⟨by decide, by decide⟩ hi, wakes_device_iff ⟨by decide, by decide⟩ hi (by decide)] at this
      simpa [LineServed, hp, h5] using this
    · intro hp i hi hint rx
      have := hterm i hi rx
      rw [asks_iff ⟨by decide, by decide⟩ hi, wakes_terminal_iff hi] at this
      simpa [hp, hint] using this

/-! ## What the handler covers -/

/-- Every function that is served is covered, and the others are not touched. -/
theorem covered_of_interrupted {s' : KState T} {q q' : Queues} {fs : List DevFn}
    (h : Interrupted cfg (s.entered e) q fs s' q') (hr : Rep s.m.pool q) {f : DevFn} (he : Spec.Exists f) :
    (f ∈ fs → Covered cfg s e s' f) ∧ (f ∉ fs → Passed cfg s s' f) := by
  constructor
  · intro hf
    obtain ⟨p, hw, hp, hpS⟩ := h.woken f hf
    refine ⟨?_, h.acked f hf, p, ?_, ?_, hpS⟩
    · rw [h.acks f, List.count_eq_one_of_mem h.nodup hf, acks_entered]
    · rw [hr.waitingList_eq, h.sound.rep.waitingList_eq]
      exact hw
    · rw [h.sound.rep.readyList_eq]
      exact hp
  · intro hf
    constructor
    · rw [h.acks f, List.count_eq_zero_of_not_mem hf, acks_entered, Nat.add_zero]
    · rw [hr.waitingList_eq, h.sound.rep.waitingList_eq]
      refine h.waiting _ fun g hg hk => hf ?_
      rw [devKey_inj cfg he (h.finished g hg).exists hk]
      exact hg

/-- What is covered is what the handler takes for completed. -/
theorem asks_iff_of_covers {q : Queues} (hs : Sound s.m.pool q s.m.currentProc.toList) (hint : e.area = .int)
    (h : Covers cfg s e) {f : DevFn} (he : Spec.Exists f) : Asks e f ↔ Wakes e f := by
  obtain ⟨st, s', hk, hcov⟩ := h
  have hwp := kernelStep_interrupted cfg hs hint
  unfold Exec.wp at hwp
  rw [hk] at hwp
  obtain ⟨fs, q', hi, hfs⟩ := hwp
  rw [← hfs f]
  obtain ⟨hin, hnot⟩ := covered_of_interrupted hi hs.rep he
  constructor
  · intro ha
    by_contra hf
    have h1 := ((hcov f he).1 ha).once
    have h2 := (hnot hf).never
    omega
  · intro hf
    by_contra ha
    have h1 := (hin hf).once
    have h2 := ((hcov f he).2 ha).never
    omega

theorem covers_of_asks_iff {q : Queues} (hs : Sound s.m.pool q s.m.currentProc.toList) (hint : e.area = .int)
    (hwait : ∀ f, Spec.Exists f → Asks e f → waitingList s.m (devKey cfg f) ≠ [])
    (h : ∀ f, Spec.Exists f → (Asks e f ↔ Wakes e f)) : Covers cfg s e := by
  obtain ⟨st, s', hk, fs, q', hi, hfs⟩ := wp_exits (Exec.wp_mono (kernelStep_interrupted cfg hs hint)
    (fun _ _ h => h) (fun _ _ h => h) fun _ hstuck => by
      obtain ⟨f, hwake, hw⟩ := hstuck
      have he := hwake.1.exists
      exact hwait f he ((h f he).mpr hwake) ((hs.rep.waitingList_eq _).trans hw))
  refine ⟨st, s', hk, fun f he => ?_⟩
  rw [h f he, ← hfs f]
  exact covered_of_interrupted hi hs.rep he

/-- When all that ask have a waiter, an interrupt covers them, and no other, if and only if it is regular. -/
theorem covers_iff (h : Run cfg (Lawful cfg) s) (hint : e.area = .int)
    (hwait : ∀ f, Spec.Exists f → Asks e f → waitingList s.m (devKey cfg f) ≠ []) : Covers cfg s e ↔ Regular e := by
  obtain ⟨q, hb⟩ := run_between id h
  rw [regular_iff]
  exact ⟨fun hc _ he => asks_iff_of_covers hb.sound hint hc he, covers_of_asks_iff hb.sound hint hwait⟩

/-- The transmitter of terminal 0 has finished. -/
def transmitterDone : Entry .umps :=
  interrupt transmitting ilTerminal (finish transmitting.m.hw ⟨devIndex ilTerminal 0, false⟩ 0x4105)

theorem covers_transmitterDone : Covers demo transmitting transmitterDone ↔ Regular transmitterDone := by
  have hwait : ∀ d < 40, ∀ rx, Asks transmitterDone ⟨d, rx⟩ → waitingList transmitting.m (devKey demo ⟨d, rx⟩) ≠ [] := by
    decide +kernel
  exact covers_iff run_transmitting rfl fun f he => hwait f.dev he.1 f.rx

/-! ## A printer -/

/-- The first process waits for printer 0. -/
def printing : KState .umps :=
  after demo (booted demo) (syscall (booted demo) 6 2 (Target.devRegAddr .umps ilPrinter 0) 0)

/-- The printer has finished. -/
def printerDone : Entry .umps := interrupt printing ilPrinter (finish printing.m.hw ⟨devIndex ilPrinter 0, false⟩ stReady)

/-- Its waiter is not woken. -/
theorem covers_fails : ¬ ∀ (s : KState .umps) (e : Entry .umps), Run demo (Lawful demo) s → e.area = .int →
    (∀ f, Spec.Exists f → Asks e f → waitingList s.m (devKey demo f) ≠ []) → Covers demo s e := by
  intro h
  have hrun : Run demo (Lawful demo) printing :=
    run_after (run_booted demo _) (lawful_of_check (by decide +kernel)) (by decide +kernel)
  have hwait : ∀ d < 40, ∀ rx, Asks printerDone ⟨d, rx⟩ → waitingList printing.m (devKey demo ⟨d, rx⟩) ≠ [] := by
    decide +kernel
  obtain ⟨q, hb⟩ := run_between id hrun
  have hcov := h printing printerDone hrun rfl fun f he => hwait f.dev he.1 f.rx
  have hiff := asks_iff_of_covers hb.sound rfl hcov (f := ⟨devIndex ilPrinter 0, false⟩) ⟨by decide, fun _ => rfl⟩
  exact absurd hiff (by decide +kernel)

end Bikaya.Results
