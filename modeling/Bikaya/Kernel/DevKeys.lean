import Bikaya.Spec.Operations

/-!
# Device registers, functions and keys

Where the registers of an interrupt line are, which function each command register belongs to, and that
`interrupts_get_dev_key` gives the functions different keys (`devKey_inj`).
-/

namespace Bikaya.Kernel
open Bikaya.Lib Bikaya.Model Bikaya.Spec

variable {T : Target}

/-- The device lines. -/
def IsLine (line : Nat) : Prop := 3 ≤ line ∧ line ≤ 7

/-- The index of device `i` of a line. -/
def devIndex (line i : Nat) : Nat := (line - devIlStart) * nDevPerIl + i

theorem register_facts : ∀ (T : Target) (line : Fin 5) (i : Fin 8),
    T.isTerminal (T.devRegAddr (line + 3) i) = decide (line = 4) ∧
    (T.devRegAddr (line + 3) i - T.devRegStart).toNat / 16 = line * 8 + i ∧
    Hw.fnAt T (T.devRegAddr (line + 3) i + 4) = some ⟨line * 8 + i, decide (line = 4)⟩ ∧
    (line = 4 → Hw.fnAt T (T.devRegAddr (line + 3) i + 12) = some ⟨line * 8 + i, false⟩) := by
  intro T
  cases T <;> decide

section
variable {line i : Nat} (hl : IsLine line) (hi : i < 8)
include hl hi

theorem isTerminal_devRegAddr : T.isTerminal (T.devRegAddr line i) = decide (line = 7) := by
  obtain ⟨h1, h2⟩ := hl
  have := (register_facts T ⟨line - 3, by omega⟩ ⟨i, hi⟩).1
  simp only [show line - 3 + 3 = line by omega] at this
  rw [this]
  by_cases h : line = 7
  · subst h; rfl
  · rw [decide_eq_false h, decide_eq_false]
    intro hc
    have := congrArg Fin.val hc
    simp only at this
    omega

theorem devRegAddr_index : (T.devRegAddr line i - T.devRegStart).toNat / 16 = devIndex line i := by
  obtain ⟨h1, h2⟩ := hl
  have := (register_facts T ⟨line - 3, by omega⟩ ⟨i, hi⟩).2.1
  simp only [show line - 3 + 3 = line by omega] at this
  exact this

/-- The command register of a device, or of the receiver of a terminal. -/
theorem fnAt_command : Hw.fnAt T (T.devRegAddr line i + 4) = some ⟨devIndex line i, decide (line = 7)⟩ := by
  obtain ⟨h1, h2⟩ := hl
  have := (register_facts T ⟨line - 3, by omega⟩ ⟨i, hi⟩).2.2.1
  simp only [show line - 3 + 3 = line by omega] at this
  rw [this]
  congr 2
  by_cases h : line = 7
  · subst h; rfl
  · rw [decide_eq_false h, decide_eq_false]
    intro hc
    have := congrArg Fin.val hc
    simp only at this
    omega

/-- The command register of the transmitter of a terminal. -/
theorem fnAt_transm (h7 : line = 7) : Hw.fnAt T (T.devRegAddr line i + 12) = some ⟨devIndex line i, false⟩ := by
  subst h7
  exact (register_facts T 4 ⟨i, hi⟩).2.2.2 rfl

/-- `interrupts_get_dev_key` of a register. -/
theorem getDevKey_eq (cfg : Cfg T) (rcpt : Bool) (hr : line ≠ 7 → rcpt = false) :
    interruptsGetDevKey cfg (T.devRegAddr line i) rcpt.toNat = devKey cfg ⟨devIndex line i, rcpt⟩ := by
  have hidx := devRegAddr_index (T := T) hl hi
  obtain ⟨h1, h2⟩ := hl
  unfold interruptsGetDevKey devKey
  simp only [hidx]
  have hdiv : devIndex line i / nDevPerIl = line - 3 := by
    unfold devIndex
    simp only [devIlStart, nDevPerIl]
    omega
  rw [hdiv]
  by_cases h7 : line = 7
  · subst h7
    rfl
  · rw [hr h7, if_pos (by simp only [devIlStart, ilTerminal]; omega)]
    rfl

/-- For the other devices the second argument of `interrupts_get_dev_key` does not matter. -/
theorem getDevKey_rcpt (cfg : Cfg T) (rcpt : Nat) (h7 : line ≠ 7) :
    interruptsGetDevKey cfg (T.devRegAddr line i) rcpt = interruptsGetDevKey cfg (T.devRegAddr line i) 0 := by
  have hidx := devRegAddr_index (T := T) hl hi
  obtain ⟨h1, h2⟩ := hl
  unfold interruptsGetDevKey
  simp only [hidx]
  have hdiv : devIndex line i / nDevPerIl = line - 3 := by
    unfold devIndex
    simp only [devIlStart, nDevPerIl]
    omega
  rw [hdiv, if_pos (by simp only [devIlStart, ilTerminal]; omega),
    if_pos (by simp only [devIlStart, ilTerminal]; omega)]

end

/-- A WAITIO names a device register, and side 0 or 1 of it. -/
def ValidIo (e : Entry T) : Prop :=
  IsCall e 6 → (∃ line i, IsLine line ∧ i < 8 ∧ e.st T.sysArg2 = T.devRegAddr line i) ∧
    (e.st T.sysArg3).toNat % 256 ≤ 1

/-- WAITIO writes to the command register of a device function, and blocks on the key of that function. -/
theorem waitIo_fn (cfg : Cfg T) {device : Word} {subdev : Nat}
    (hd : ∃ line i, IsLine line ∧ i < 8 ∧ device = T.devRegAddr line i) (hs : subdev ≤ 1) :
    ∃ f : DevFn, Exists f ∧ Hw.fnAt T (commandAddr T device subdev) = some f ∧
      interruptsGetDevKey cfg device subdev = devKey cfg f := by
  obtain ⟨line, i, hl, hi, rfl⟩ := hd
  have hdev : devIndex line i < 40 ∧ (line ≠ 7 → devIndex line i < 32) ∧ (line = 7 → 32 ≤ devIndex line i) := by
    obtain ⟨h1, h2⟩ := hl
    unfold devIndex
    simp only [devIlStart, nDevPerIl]
    omega
  unfold commandAddr
  rw [isTerminal_devRegAddr hl hi]
  by_cases h7 : line = 7
  · have h32 := hdev.2.2 h7
    rw [decide_eq_true h7, if_pos rfl]
    by_cases h0 : subdev = 0
    · subst h0
      rw [if_neg (by simp)]
      exact ⟨_, ⟨hdev.1, fun hlt => by dsimp only at hlt; omega⟩, fnAt_transm hl hi h7,
        getDevKey_eq hl hi cfg false fun hne => absurd h7 hne⟩
    · obtain rfl : subdev = 1 := by omega
      rw [if_pos (by simp)]
      refine ⟨⟨devIndex line i, true⟩, ⟨hdev.1, fun hlt => by dsimp only at hlt; omega⟩, ?_,
        getDevKey_eq hl hi cfg true fun hne => absurd h7 hne⟩
      rw [fnAt_command hl hi, decide_eq_true h7]
  · rw [decide_eq_false h7, if_neg (by simp)]
    refine ⟨⟨devIndex line i, false⟩, ⟨hdev.1, fun _ => rfl⟩, ?_, ?_⟩
    · rw [fnAt_command hl hi, decide_eq_false h7]
    · rw [getDevKey_rcpt hl hi cfg subdev h7]
      exact getDevKey_eq hl hi cfg false fun _ => rfl

/-- The offset of a key in `devices_semkeys`: the rows of the terminals are apart. -/
theorem keyOffset_eq (d : Nat) (rx : Bool) :
    (d / nDevPerIl + rx.toNat) * nDevPerIl + d % nDevPerIl = d + rx.toNat * nDevPerIl := by
  rw [Nat.add_mul, Nat.add_right_comm, Nat.div_add_mod']

theorem devIndex_div {line i : Nat} (hl : IsLine line) (hi : i < 8) : devIlStart + devIndex line i / nDevPerIl = line := by
  obtain ⟨h1, h2⟩ := hl
  unfold devIndex
  simp only [devIlStart, nDevPerIl]
  omega

theorem devIndex_mod {line i : Nat} (hi : i < 8) : devIndex line i % nDevPerIl = i := by
  unfold devIndex
  simp only [devIlStart, nDevPerIl]
  omega

/-- Different functions have different keys. -/
theorem devKey_inj (cfg : Cfg T) {f g : DevFn} (hf : Exists f) (hg : Exists g) (h : devKey cfg f = devKey cfg g) :
    f = g := by
  unfold devKey Cfg.semKey at h
  rw [keyOffset_eq, keyOffset_eq] at h
  have h' := congrArg BitVec.toNat ((BitVec.add_right_inj _).mp h)
  simp only [BitVec.toNat_ofNat, nDevPerIl] at h'
  obtain ⟨df, rf⟩ := f
  obtain ⟨dg, rg⟩ := g
  obtain ⟨hf1, hf2⟩ := hf
  obtain ⟨hg1, hg2⟩ := hg
  dsimp only at h' hf1 hf2 hg1 hg2
  have h1 : df < 32 → rf.toNat = 0 := fun hlt => by rw [hf2 hlt]; rfl
  have h2 : dg < 32 → rg.toNat = 0 := fun hlt => by rw [hg2 hlt]; rfl
  have h3 := Bool.toNat_le rf
  have h4 := Bool.toNat_le rg
  rw [Nat.mod_eq_of_lt (by omega), Nat.mod_eq_of_lt (by omega)] at h'
  have h5 : df = dg := by omega
  have h6 : rf.toNat = rg.toNat := by omega
  have h7 : rf = rg := by
    cases rf <;> cases rg <;> simp at h6 ⊢
  rw [h5, h7]

/-- A terminal has finished when its status says so. -/
theorem finished_terminal {hw : Hw} {i : Nat} (hi : i < 8) (rx : Bool) :
    Finished hw ⟨devIndex ilTerminal i, rx⟩ ↔
      hw.status ⟨devIndex ilTerminal i, rx⟩ &&& termStatusMask = stTransmitted := by
  have hd : devIndex ilTerminal i = 32 + i := rfl
  unfold Finished
  dsimp only
  rw [hd, if_neg (by omega)]
  exact and_iff_right (by omega)

/-- The other devices have finished when their interrupt is pending. -/
theorem finished_device {hw : Hw} {line i : Nat} (hl : IsLine line) (h7 : line ≠ ilTerminal) (hi : i < 8) :
    Finished hw ⟨devIndex line i, false⟩ ↔ hw.interrupting line i = true := by
  have hterm : (line == ilTerminal) = false := beq_false_of_ne h7
  have hd : devIndex line i < 32 := by
    obtain ⟨h1, h2⟩ := hl
    unfold devIndex
    simp only [devIlStart, nDevPerIl, ilTerminal] at h7 ⊢
    omega
  unfold Finished Hw.interrupting
  dsimp only
  rw [if_pos hd, hterm, Bool.false_and, Bool.or_false]
  exact and_iff_right rfl

/-! ## Acknowledging -/

/-- An acknowledged function has nothing completed, and the others are as before. -/
theorem finished_issue_ack {hw : Hw} {f g : DevFn} : Finished (hw.issue f cmdAck) g ↔ Finished hw g ∧ g ≠ f := by
  by_cases h : g = f
  · subst h
    exact ⟨fun hg => absurd hg not_finished_issue, fun hg => absurd rfl hg.2⟩
  · rw [(sameFn_issue cmdAck h).finished]
    exact (and_iff_left h).symm

theorem interrupting_issue {hw : Hw} {f : DevFn} {cmd : Word} {line i : Nat}
    (h : (hw.issue f cmd).interrupting line i = true) : hw.interrupting line i = true := by
  have hle : ∀ g, (hw.issue f cmd).pending g = true → hw.pending g = true := by
    intro g hg
    unfold Hw.issue at hg
    split at hg
    next => exact hg
    next =>
      dsimp only at hg
      by_cases he : g = f
      · subst he
        simp at hg
      · rwa [Function.update_of_ne he] at hg
  unfold Hw.interrupting at h ⊢
  rw [Bool.or_eq_true, Bool.and_eq_true] at h ⊢
  exact h.imp (hle _) (And.imp_right (hle _))

/-! ## The bitmap -/

theorem ofBits_bit : ∀ (bs : List Bool) (j : Nat), Hw.ofBits bs / 2 ^ j % 2 = 1 ↔ bs[j]? = some true := by
  intro bs
  induction bs with
  | nil => simp [Hw.ofBits]
  | cons b bs ih =>
    intro j
    cases j with
    | zero => cases b <;> simp [Hw.ofBits]
    | succ j =>
      have hdiv : (b.toNat + 2 * Hw.ofBits bs) / 2 ^ (j + 1) = Hw.ofBits bs / 2 ^ j := by
        have hb := Bool.toNat_le b
        rw [Nat.pow_succ', ← Nat.div_div_eq_div_mul]
        congr 1
        omega
      rw [Hw.ofBits, hdiv, ih]
      simp

/-- Bit `j` of the bitmap of a line is the interrupt of its device `j`. -/
theorem bitmap_bit (hw : Hw) (line j : Nat) (hj : j < 8) :
    hw.bitmap line / 2 ^ j % 2 = 1 ↔ hw.interrupting line j = true := by
  unfold Hw.bitmap
  rw [ofBits_bit, List.getElem?_map, List.getElem?_range hj]
  simp

end Bikaya.Kernel
