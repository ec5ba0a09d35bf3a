import Bikaya.Kernel.Replay

/-!
# The keys of the devices

`wait_io` and the interrupt handler compute the key of a device function each for itself. For every device and
third argument of WAITIO they agree, inside the matrix, unless the device is a terminal and the low byte of the
argument is more than 1 (`key_agrees_iff`): the `bool` is a `uint8_t`, and the key is as many rows off.
-/

namespace Bikaya.Results
open Bikaya.Lib Bikaya.Model Bikaya.Spec Bikaya.Kernel

variable {T : Target}

/-- The `bool` that `wait_io` gets for the third argument of WAITIO. -/
def subdevOf (a3 : Word) : Nat := a3.toNat % 256

/-- The key on which `wait_io` blocks its caller. -/
def waitKey (cfg : Cfg T) (line i : Nat) (a3 : Word) : Key :=
  interruptsGetDevKey cfg (T.devRegAddr line i) (subdevOf a3)

/-- The device function that `wait_io` writes to. -/
def waitFn (T : Target) (line i : Nat) (a3 : Word) : Option DevFn :=
  Hw.fnAt T (commandAddr T (T.devRegAddr line i) (subdevOf a3))

/-- The key that `handle_dtp` or `handle_term` uses for one side of a device. -/
def handlerKey (cfg : Cfg T) (line i : Nat) (rx : Bool) : Key := interruptsGetDevKey cfg (T.devRegAddr line i) rx.toNat

/-- The key is an element of `devices_semkeys`. -/
def InMatrix (cfg : Cfg T) (key : Key) : Prop := ∃ row < nExtIl + 1, ∃ col < nDevPerIl, key = cfg.semKey row col

/-- WAITIO on device `i` of a line blocks on an element of the matrix, the one that the handler uses for the
function it wrote to, and no WAITIO on another function blocks there. -/
structure KeyAgrees (cfg : Cfg T) (line i : Nat) (a3 : Word) : Prop where
  inside : InMatrix cfg (waitKey cfg line i a3)
  handler : ∃ f, waitFn T line i a3 = some f ∧ f.dev = devIndex line i ∧ handlerKey cfg line i f.rx = waitKey cfg line i a3
  apart : ∀ line' i' a3', IsLine line' → i' < 8 → waitFn T line' i' a3' ≠ waitFn T line i a3 →
    waitKey cfg line' i' a3' ≠ waitKey cfg line i a3

/-! ## Rows and columns -/

/-- The row of `devices_semkeys` that `interrupts_get_dev_key` computes. -/
def keyRow (line rcpt : Nat) : Nat := if line = 7 then 4 + rcpt else line - 3

section
variable {line i : Nat} (hl : IsLine line) (hi : i < 8)

theorem semKey_inj (cfg : Cfg T) {row col row' col' : Nat} (hr : row < 300) (hr' : row' < 300) (hc : col < 8)
    (hc' : col' < 8) (h : cfg.semKey row col = cfg.semKey row' col') : row = row' ∧ col = col' := by
  unfold Cfg.semKey at h
  have hoff := congrArg BitVec.toNat ((BitVec.add_right_inj _).mp h)
  simp only [BitVec.toNat_ofNat, nDevPerIl] at hoff
  rw [Nat.mod_eq_of_lt (by omega), Nat.mod_eq_of_lt (by omega)] at hoff
  omega

include hl hi

theorem getDevKey_row (cfg : Cfg T) (rcpt : Nat) :
    interruptsGetDevKey cfg (T.devRegAddr line i) rcpt = cfg.semKey (keyRow line rcpt) i := by
  have hidx := devRegAddr_index (T := T) hl hi
  have hrow : devIndex line i / nDevPerIl = line - 3 := by
    have hdiv := devIndex_div hl hi
    simp only [devIlStart, nDevPerIl] at hdiv ⊢
    omega
  obtain ⟨h1, h2⟩ := hl
  unfold interruptsGetDevKey keyRow
  simp only [hidx]
  rw [hrow, devIndex_mod hi]
  by_cases h7 : line = 7
  · subst h7
    rfl
  · rw [if_pos (by simp only [devIlStart, ilTerminal]; omega), if_neg h7]

theorem waitFn_eq (T : Target) (a3 : Word) :
    waitFn T line i a3 = some ⟨devIndex line i, decide (line = 7 ∧ subdevOf a3 ≠ 0)⟩ := by
  unfold waitFn commandAddr
  rw [isTerminal_devRegAddr hl hi]
  by_cases h7 : line = 7
  · rw [if_pos (decide_eq_true h7)]
    by_cases h0 : subdevOf a3 = 0
    · rw [if_neg (fun h => h h0), fnAt_transm hl hi h7, decide_eq_false fun h => h.2 h0]
    · rw [if_pos h0, fnAt_command hl hi, decide_eq_true h7, decide_eq_true ⟨h7, h0⟩]
  · rw [if_neg (by simpa using h7), fnAt_command hl hi, decide_eq_false h7, decide_eq_false fun h => h7 h.1]

end

theorem subdevOf_lt (a3 : Word) : subdevOf a3 < 256 := Nat.mod_lt _ (by decide)

theorem keyRow_lt {line rcpt : Nat} (hl : IsLine line) (hr : rcpt < 256) : keyRow line rcpt < 300 := by
  obtain ⟨h1, h2⟩ := hl
  unfold keyRow
  split <;> omega

/-- The rows of different lines are different. -/
theorem keyRow_inj {line line' rcpt rcpt' : Nat} (hl : IsLine line) (hl' : IsLine line')
    (h : keyRow line rcpt = keyRow line' rcpt') : line = line' ∧ (line = 7 → rcpt = rcpt') := by
  obtain ⟨h1, h2⟩ := hl
  obtain ⟨h3, h4⟩ := hl'
  unfold keyRow at h
  split at h <;> split at h <;> omega

/-! ## The condition -/

theorem inMatrix_iff (cfg : Cfg T) {line i : Nat} (hl : IsLine line) (hi : i < 8) (a3 : Word) :
    InMatrix cfg (waitKey cfg line i a3) ↔ line ≠ 7 ∨ subdevOf a3 ≤ 1 := by
  have hrow : keyRow line (subdevOf a3) < 6 ↔ line ≠ 7 ∨ subdevOf a3 ≤ 1 := by
    obtain ⟨h1, h2⟩ := hl
    unfold keyRow
    split <;> omega
  unfold waitKey
  rw [getDevKey_row hl hi, ← hrow]
  constructor
  · intro h
    obtain ⟨row, hr, col, hc, he⟩ := h
    simp only [nExtIl] at hr
    have hsame := semKey_inj cfg (keyRow_lt hl (subdevOf_lt a3)) (by omega) hi hc he
    omega
  · intro h
    exact ⟨_, h, i, hi, rfl⟩

/-- No two functions share a key, whatever the arguments. -/
theorem waitKey_apart (cfg : Cfg T) {line i line' i' : Nat} (hl : IsLine line) (hi : i < 8) (hl' : IsLine line')
    (hi' : i' < 8) {a3 a3' : Word} (hne : waitFn T line' i' a3' ≠ waitFn T line i a3) :
    waitKey cfg line' i' a3' ≠ waitKey cfg line i a3 := by
  intro he
  apply hne
  unfold waitKey at he
  rw [getDevKey_row hl hi, getDevKey_row hl' hi'] at he
  obtain ⟨hrow, rfl⟩ := semKey_inj cfg (keyRow_lt hl' (subdevOf_lt a3')) (keyRow_lt hl (subdevOf_lt a3)) hi' hi he
  obtain ⟨rfl, hsub⟩ := keyRow_inj hl' hl hrow
  rw [waitFn_eq hl hi, waitFn_eq hl hi]
  by_cases h7 : line' = 7
  · rw [hsub h7]
  · rw [decide_eq_false fun h => h7 h.1, decide_eq_false fun h => h7 h.1]

/-- `wait_io` and the handler agree on the key, inside the matrix, unless a terminal gets a `bool` above 1. -/
theorem key_agrees_iff (cfg : Cfg T) {line i : Nat} (hl : IsLine line) (hi : i < 8) (a3 : Word) :
    KeyAgrees cfg line i a3 ↔ line ≠ 7 ∨ a3.toNat % 256 ≤ 1 := by
  constructor
  · exact fun h => (inMatrix_iff cfg hl hi a3).mp h.inside
  · intro h
    refine ⟨(inMatrix_iff cfg hl hi a3).mpr h, ⟨_, waitFn_eq hl hi T a3, rfl, ?_⟩,
      fun line' i' a3' hl' hi' => waitKey_apart cfg hl hi hl' hi'⟩
    unfold handlerKey waitKey
    rw [getDevKey_row hl hi, getDevKey_row hl hi]
    congr 1
    unfold keyRow
    by_cases h7 : line = 7
    · have hsub : subdevOf a3 ≤ 1 := h.resolve_left fun hne => hne h7
      rw [if_pos h7, if_pos h7]
      by_cases h0 : subdevOf a3 = 0
      · rw [decide_eq_false fun h => h.2 h0, h0]
        rfl
      · rw [decide_eq_true ⟨h7, h0⟩]
        show 4 + 1 = 4 + subdevOf a3
        omega
    · rw [if_neg h7, if_neg h7]

/-- The receiver of the first terminal, asked for with 1. -/
theorem key_agrees_receiver : KeyAgrees demo 7 0 1 ↔ (7 ≠ 7 ∨ (1 : Word).toNat % 256 ≤ 1) :=
  key_agrees_iff demo ⟨by decide, by decide⟩ (by decide) 1

/-- Asked for with 2 it is waited for outside the matrix. -/
theorem key_agrees_fails : ¬ ∀ (line i : Nat) (a3 : Word), IsLine line → i < 8 → KeyAgrees demo line i a3 := by
  intro h
  obtain ⟨row, hr, col, hc, he⟩ := (h 7 0 2 ⟨by decide, by decide⟩ (by decide)).inside
  have hout : ∀ row < 6, ∀ col < 8, waitKey demo 7 0 2 ≠ demo.semKey row col := by decide +kernel
  exact hout row hr col hc he

end Bikaya.Results
