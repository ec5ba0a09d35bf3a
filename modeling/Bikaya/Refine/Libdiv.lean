import Mathlib.Algebra.Order.Ring.Nat
import Mathlib.Tactic.Ring
import Bikaya.Model.Libdiv

/-!
# The loops of `__udivmodsi4`

`InFrame F s₀ x s` : the routine was called in `s₀`, its frame is at `F`, and `x` are its local variables. The first
loop shifts the divisor up to the top bit (`up`), the second one subtracts on the way down (`down`), so the routine
returns the quotient (`udivmodsi4_spec`).
-/

namespace Bikaya.Refine.Libdiv
open Bikaya.Lib.Arm Bikaya.Model.Libdiv

/-- The local variables, by the names that the algorithm gives them. -/
structure Locals where
  num : Word
  den : Word
  rem : Word
  res : Word
  bit : Word

structure InFrame (F : Word) (s₀ : State) (x : Locals) (s : State) : Prop where
  fp : s.reg .fp = F
  sp : s.reg .sp = F - 28#32
  num : s.mem (F + -16#32) = x.num
  den : s.mem (F + -20#32) = x.den
  rem : s.mem (F + -24#32) = x.rem
  res : s.mem (F + -8#32) = x.res
  bit : s.mem (F + -12#32) = x.bit
  saved : s.mem F = s₀.reg .fp
  regs : ∀ r, r ≠ .r0 → r ≠ .r2 → r ≠ .r3 → r ≠ .fp → r ≠ .sp → s.reg r = s₀.reg r
  frame : ∀ a, a ≠ F → a ≠ F + -8#32 → a ≠ F + -12#32 → a ≠ F + -16#32 → a ≠ F + -20#32 → a ≠ F + -24#32 →
    s.mem a = s₀.mem a

variable {F : Word} {s₀ s : State} {x : Locals} {Q : State → Prop}

/-- Only scratch registers changed. -/
theorem InFrame.scratch (h : InFrame F s₀ x s) {s' : State} (hmem : s'.mem = s.mem)
    (hreg : ∀ r, r ≠ .r0 → r ≠ .r2 → r ≠ .r3 → s'.reg r = s.reg r) : InFrame F s₀ x s' := by
  obtain ⟨hfp, hsp, hnum, hden, hrem, hres, hbit, hsaved, hregs, hframe⟩ := h
  rw [← hmem] at hnum hden hrem hres hbit hsaved hframe
  exact ⟨(hreg .fp (by decide) (by decide) (by decide)).trans hfp,
    (hreg .sp (by decide) (by decide) (by decide)).trans hsp, hnum, hden, hrem, hres, hbit, hsaved,
    fun r h0 h2 h3 hr hr' => (hreg r h0 h2 h3).trans (hregs r h0 h2 h3 hr hr'), hframe⟩

/-- The body of the first loop. -/
theorem block_L5 (h : InFrame F s₀ x s) (hpc : s.pc = target code .L5)
    (hQ : ∀ s', InFrame F s₀ { x with den := x.den <<< 1, bit := x.bit <<< 1 } s' → s'.pc = target code .L4 →
      Reaches code s' Q) : Reaches code s Q := by
  obtain ⟨reg, flags, mem, pc⟩ := s
  obtain rfl : pc = 16 := hpc
  obtain ⟨hfp, hsp, hnum, hden, hrem, hres, hbit, hsaved, hregs, hframe⟩ := h
  simp only at *
  refine .step rfl (.step rfl (.step rfl (.step rfl (.step rfl (.step rfl (.step rfl ?_))))))
  refine hQ _ ⟨?_, ?_, ?_, ?_, ?_, ?_, ?_, ?_, fun r h0 h2 h3 hr hr' => ?_, fun a h0 h8 h12 h16 h20 h24 => ?_⟩ rfl
  all_goals simp [-BitVec.reduceNeg, exec, State.value, *]

/-- The head of the first loop. -/
theorem block_L4 (h : InFrame F s₀ x s) (hpc : s.pc = target code .L4)
    (hloop : 0 ≤ x.den.toInt → ∀ s', InFrame F s₀ x s' → s'.pc = target code .L5 → Reaches code s' Q)
    (hdone : ¬ 0 ≤ x.den.toInt → ∀ s', InFrame F s₀ x s' → s'.pc = target code .L6 → Reaches code s' Q) :
    Reaches code s Q := by
  obtain ⟨reg, flags, mem, pc⟩ := s
  obtain rfl : pc = 23 := hpc
  have hfp : reg .fp = F := h.fp
  have hden : mem (F + -20#32) = x.den := h.den
  refine .step rfl (.step rfl (.step rfl (.branch rfl (fun hc => ?_) fun hc => .always rfl ?_)))
  · refine hloop ?_ _ (h.scratch rfl fun r _ _ h3 => ?_) rfl
    · simpa [-BitVec.reduceNeg, exec, State.value, ge_subFlags, hfp, hden] using hc
    · simp [exec, h3]
  · refine hdone ?_ _ (h.scratch rfl fun r _ _ h3 => ?_) rfl
    · simpa [-BitVec.reduceNeg, exec, State.value, ge_subFlags, hfp, hden] using hc
    · simp [exec, h3]

/-- The head of the second loop. -/
theorem block_L6 (h : InFrame F s₀ x s) (hpc : s.pc = target code .L6)
    (hloop : x.bit ≠ 0 → ∀ s', InFrame F s₀ x s' → s'.pc = target code .L8 → Reaches code s' Q)
    (hdone : x.bit = 0 → ∀ s', InFrame F s₀ x s' → s'.pc = 52 → Reaches code s' Q) : Reaches code s Q := by
  obtain ⟨reg, flags, mem, pc⟩ := s
  obtain rfl : pc = 48 := hpc
  have hfp : reg .fp = F := h.fp
  have hbit : mem (F + -12#32) = x.bit := h.bit
  refine .step rfl (.step rfl (.step rfl (.branch rfl (fun hc => ?_) fun hc => ?_)))
  · refine hloop ?_ _ (h.scratch rfl fun r _ _ h3 => ?_) rfl
    · simpa [-BitVec.reduceNeg, exec, State.value, ne_subFlags, hfp, hbit] using hc
    · simp [exec, h3]
  · refine hdone ?_ _ (h.scratch rfl fun r _ _ h3 => ?_) rfl
    · simpa [-BitVec.reduceNeg, exec, State.value, ne_subFlags, hfp, hbit] using hc
    · simp [exec, h3]

/-- The subtraction, where it goes. -/
def Locals.subtract (x : Locals) : Locals :=
  if x.num < x.den then x else { x with num := x.num - x.den, res := x.res + x.bit }

/-- The first half of the second loop's body. -/
theorem block_L8 (h : InFrame F s₀ x s) (hpc : s.pc = target code .L8)
    (hQ : ∀ s', InFrame F s₀ x.subtract s' → s'.pc = target code .L7 → Reaches code s' Q) : Reaches code s Q := by
  obtain ⟨reg, flags, mem, pc⟩ := s
  obtain rfl : pc = 28 := hpc
  have hfp : reg .fp = F := h.fp
  have hnum : mem (F + -16#32) = x.num := h.num
  have hden : mem (F + -20#32) = x.den := h.den
  refine .step rfl (.step rfl (.step rfl (.step rfl (.branch rfl (fun hc => ?_) fun hc => ?_))))
  · have hlt : x.num < x.den := by
      simpa [-BitVec.reduceNeg, exec, State.value, hi_subFlags, hfp, hden, hnum] using hc
    refine hQ _ ?_ rfl
    rw [Locals.subtract, if_pos hlt]
    exact h.scratch rfl fun r _ h2 h3 => by simp [exec, h2, h3]
  · have hle : ¬ x.num < x.den := by
      simpa [-BitVec.reduceNeg, exec, State.value, hi_subFlags, hfp, hden, hnum] using hc
    rw [Locals.subtract, if_neg hle] at hQ
    obtain ⟨hfp, hsp, hnum, hden, hrem, hres, hbit, hsaved, hregs, hframe⟩ := h
    simp only at *
    refine .step rfl (.step rfl (.step rfl (.step rfl (.step rfl (.step rfl (.step rfl (.step rfl ?_)))))))
    refine hQ _ ⟨?_, ?_, ?_, ?_, ?_, ?_, ?_, ?_, fun r h0 h2 h3 hr hr' => ?_, fun a h0 h8 h12 h16 h20 h24 => ?_⟩ rfl
    all_goals simp [-BitVec.reduceNeg, exec, State.value, *]

/-- The second half. -/
theorem block_L7 (h : InFrame F s₀ x s) (hpc : s.pc = target code .L7)
    (hQ : ∀ s', InFrame F s₀ { x with den := x.den >>> 1, bit := x.bit >>> 1 } s' → s'.pc = target code .L6 →
      Reaches code s' Q) : Reaches code s Q := by
  obtain ⟨reg, flags, mem, pc⟩ := s
  obtain rfl : pc = 41 := hpc
  obtain ⟨hfp, hsp, hnum, hden, hrem, hres, hbit, hsaved, hregs, hframe⟩ := h
  simp only at *
  refine .step rfl (.step rfl (.step rfl (.step rfl (.step rfl (.step rfl (.step rfl ?_))))))
  refine hQ _ ⟨?_, ?_, ?_, ?_, ?_, ?_, ?_, ?_, fun r h0 h2 h3 hr hr' => ?_, fun a h0 h8 h12 h16 h20 h24 => ?_⟩ rfl
  all_goals simp [-BitVec.reduceNeg, exec, State.value, *]

/-! ## The loops -/

/-- The first loop shifts until the top bit of the divisor is set. -/
theorem up : ∀ (m : Nat) {x : Locals} {s : State}, x.den.toNat * 2 ^ m < 2 ^ 32 → 2 ^ 31 ≤ x.den.toNat * 2 ^ m →
    InFrame F s₀ x s → s.pc = target code .L4 →
    (∀ s', InFrame F s₀ { x with den := x.den <<< m, bit := x.bit <<< m } s' → s'.pc = target code .L6 →
      Reaches code s' Q) → Reaches code s Q := by
  intro m
  induction m with
  | zero =>
    intro x s _ htop h hpc hQ
    refine block_L4 h hpc (fun hpos => ?_) fun _ s' h' hpc' => hQ s' ?_ hpc'
    · rw [BitVec.toInt_eq_toNat_cond] at hpos
      have := x.den.isLt
      split at hpos <;> omega
    · simpa using h'
  | succ m ih =>
    intro x s hlt htop h hpc hQ
    have hsplit : x.den.toNat * 2 ^ (m + 1) = x.den.toNat * 2 * 2 ^ m := by
      rw [pow_succ]
      ring
    rw [hsplit] at hlt htop
    have hsmall : x.den.toNat * 2 < 2 ^ 32 :=
      lt_of_le_of_lt (Nat.le_mul_of_pos_right _ (Nat.two_pow_pos m)) hlt
    have hshift : (x.den <<< 1).toNat = x.den.toNat * 2 := by
      rw [BitVec.toNat_shiftLeft, Nat.shiftLeft_eq, pow_one, Nat.mod_eq_of_lt hsmall]
    refine block_L4 h hpc (fun _ s₁ h₁ hpc₁ => ?_) fun hneg => absurd ?_ hneg
    · refine block_L5 h₁ hpc₁ fun s₂ h₂ hpc₂ => ih ?_ ?_ h₂ hpc₂ fun s' h' hpc' => hQ s' ?_ hpc'
      · rwa [hshift]
      · rwa [hshift]
      · have hadd : ∀ w : Word, w <<< 1 <<< m = w <<< (m + 1) := by
          intro w
          rw [Nat.add_comm m 1, BitVec.shiftLeft_add]
        simpa only [hadd] using h'
    · rw [BitVec.toInt_eq_toNat_cond]
      split <;> omega

/-- The second loop, `n` places before its end. -/
theorem down {d : Nat} : ∀ (n : Nat) {x : Locals} {s : State}, n ≤ 32 → x.bit.toNat = 2 ^ n / 2 →
    (n ≠ 0 → x.den.toNat = d * 2 ^ n / 2) → x.num.toNat < d * 2 ^ n → InFrame F s₀ x s → s.pc = target code .L6 →
    (∀ s' x', x'.num.toNat = x.num.toNat % d → x'.res = x.res + BitVec.ofNat 32 (x.num.toNat / d) → x'.rem = x.rem →
      InFrame F s₀ x' s' → s'.pc = 52 → Reaches code s' Q) → Reaches code s Q := by
  intro n
  induction n with
  | zero =>
    intro x s _ hbit _ hnum h hpc hQ
    have hlt : x.num.toNat < d := by simpa using hnum
    have hzero : x.bit = 0 := BitVec.eq_of_toNat_eq (by simpa using hbit)
    refine block_L6 h hpc (fun hne => absurd hzero hne) fun _ s' h' hpc' => hQ s' x ?_ ?_ rfl h' hpc'
    · rw [Nat.mod_eq_of_lt hlt]
    · rw [Nat.div_eq_of_lt hlt]
      simp
  | succ n ih =>
    intro x s hn hbit hden hnum h hpc hQ
    have hbit : x.bit.toNat = 2 ^ n := by
      rw [hbit, pow_succ]
      omega
    have hden : x.den.toNat = d * 2 ^ n := by
      rw [hden (Nat.succ_ne_zero n), pow_succ, ← Nat.mul_assoc]
      omega
    rw [pow_succ, ← Nat.mul_assoc] at hnum
    have hpow : 0 < 2 ^ n := Nat.two_pow_pos n
    have hne : x.bit ≠ 0 := by
      intro h0
      rw [h0] at hbit
      simp at hbit
      omega
    refine block_L6 h hpc (fun _ s₁ h₁ hpc₁ => ?_) fun h0 => absurd h0 hne
    refine block_L8 h₁ hpc₁ fun s₂ h₂ hpc₂ => ?_
    refine block_L7 h₂ hpc₂ fun s₃ h₃ hpc₃ => ?_
    have hsub : x.subtract.bit = x.bit ∧ x.subtract.den = x.den ∧ x.subtract.rem = x.rem ∧
        x.subtract.num.toNat < d * 2 ^ n ∧ x.subtract.num.toNat % d = x.num.toNat % d ∧
        x.subtract.res + BitVec.ofNat 32 (x.subtract.num.toNat / d) = x.res + BitVec.ofNat 32 (x.num.toNat / d) := by
      unfold Locals.subtract
      split
      · next hlt => exact ⟨rfl, rfl, rfl, by rw [BitVec.lt_def, hden] at hlt; exact hlt, rfl, rfl⟩
      · next hge =>
        rw [BitVec.lt_def, hden, Nat.not_lt] at hge
        have hdiff : (x.num - x.den).toNat = x.num.toNat - d * 2 ^ n := by
          rw [BitVec.toNat_sub_of_le (by rw [BitVec.le_def, hden]; exact hge), hden]
        have hsplit : x.num.toNat = (x.num.toNat - d * 2 ^ n) + d * 2 ^ n := (Nat.sub_add_cancel hge).symm
        have hd : 0 < d := by
          by_contra hd
          obtain rfl : d = 0 := by omega
          simp at hnum
        refine ⟨rfl, rfl, rfl, by rw [hdiff]; omega, ?_, ?_⟩
        · rw [hdiff]
          conv_rhs => rw [hsplit, Nat.add_mul_mod_self_left]
        · have hone : x.bit = BitVec.ofNat 32 (2 ^ n) := by
            refine BitVec.eq_of_toNat_eq ?_
            rw [hbit, BitVec.toNat_ofNat, Nat.mod_eq_of_lt (hbit ▸ x.bit.isLt)]
          have hquot : x.num.toNat / d = 2 ^ n + (x.num.toNat - d * 2 ^ n) / d := by
            conv_lhs => rw [hsplit, Nat.add_mul_div_left _ _ hd]
            omega
          rw [hdiff, hquot, hone, BitVec.ofNat_add, BitVec.add_assoc]
    obtain ⟨hb, hdn, hr, hlt, hmod, hquot⟩ := hsub
    refine ih (x := { x.subtract with den := x.subtract.den >>> 1, bit := x.subtract.bit >>> 1 }) (by omega) ?_ (fun hn0 => ?_) hlt h₃ hpc₃ fun s' x' hnum' hres' hrem' h' hpc' =>
      hQ s' x' (hnum'.trans hmod) (hres'.trans hquot) (hrem'.trans hr) h' hpc'
    · show (x.subtract.bit >>> 1).toNat = _
      rw [hb, BitVec.toNat_ushiftRight, hbit, Nat.shiftRight_one]
    · show (x.subtract.den >>> 1).toNat = _
      rw [hdn, BitVec.toNat_ushiftRight, hden, Nat.shiftRight_one]

/-- How far the divisor is from the top bit. -/
theorem exists_shift {d : Nat} (hd : 0 < d) (hlt : d < 2 ^ 32) : ∃ m ≤ 31, d * 2 ^ m < 2 ^ 32 ∧ 2 ^ 31 ≤ d * 2 ^ m := by
  have hlo : 2 ^ Nat.log2 d ≤ d := Nat.log2_self_le (by omega)
  have hhi : d < 2 ^ (Nat.log2 d + 1) := Nat.lt_log2_self
  have hk : Nat.log2 d < 32 := (Nat.log2_lt (by omega)).mpr hlt
  refine ⟨31 - Nat.log2 d, by omega, ?_, ?_⟩
  · calc d * 2 ^ (31 - Nat.log2 d) < 2 ^ (Nat.log2 d + 1) * 2 ^ (31 - Nat.log2 d) :=
          Nat.mul_lt_mul_of_pos_right hhi (Nat.two_pow_pos _)
      _ = 2 ^ 32 := by rw [← pow_add]; congr 1; omega
  · calc 2 ^ 31 = 2 ^ Nat.log2 d * 2 ^ (31 - Nat.log2 d) := by rw [← pow_add]; congr 1; omega
      _ ≤ d * 2 ^ (31 - Nat.log2 d) := Nat.mul_le_mul_right _ hlo

/-! ## The routine -/

/-- One of the `n` bytes below the stack pointer. -/
def Below (n : Nat) (sp a : Word) : Prop := a ≠ sp ∧ (sp - a).toNat ≤ n

/-- A routine called in `s` has returned `q` in `s'`; it used `n` bytes of the stack, and the registers in `scratch`. -/
structure Returned (n : Nat) (scratch : List Reg) (s : State) (q : Word) (s' : State) : Prop where
  pc : s'.pc = (s.reg .lr).toNat
  r0 : s'.reg .r0 = q
  regs : ∀ r, r ≠ .r0 → r ∉ scratch → s'.reg r = s.reg r
  mem : ∀ a, ¬ Below n (s.reg .sp) a → s'.mem a = s.mem a

theorem block_L3 {q : Word} (h : InFrame F s₀ x s) (hF : F = s₀.reg .sp + -4#32) (hpc : s.pc = target code .L3)
    (hq : s.reg .r3 = q) : Reaches code s (Returned 28 [.r2, .r3] s₀ q) := by
  obtain ⟨reg, flags, mem, pc⟩ := s
  obtain rfl : pc = 60 := hpc
  obtain ⟨hfp, hsp, hnum, hden, hrem, hres, hbit, hsaved, hregs, hframe⟩ := h
  simp only at *
  have hlr := hregs .lr (by decide) (by decide) (by decide) (by decide) (by decide)
  have hsp' : F + 4#32 = s₀.reg .sp := by
    rw [hF]
    bv_omega
  clear hF
  refine .step rfl (.step rfl (.step rfl (.step rfl (.step rfl (.done ⟨?_, ?_, fun r h0 hr => ?_, fun a ha => ?_⟩)))))
  · simp [exec, State.jump, *]
  · simp [exec, State.value, *]
  · simp only [List.mem_cons, List.not_mem_nil, or_false, not_or] at hr
    by_cases hrf : r = .fp
    · subst hrf
      simp [exec, State.value, *]
    · by_cases hrs : r = .sp
      · subst hrs
        simp [exec, State.value, *]
      · simp [exec, State.value, *]
  · have hall : a ≠ F ∧ a ≠ F + -8#32 ∧ a ≠ F + -12#32 ∧ a ≠ F + -16#32 ∧ a ≠ F + -20#32 ∧ a ≠ F + -24#32 := by
      rw [← hsp'] at ha
      unfold Below at ha
      bv_omega
    obtain ⟨h0, h8, h12, h16, h20, h24⟩ := hall
    exact hframe a h0 h8 h12 h16 h20 h24

/-- The prologue. -/
theorem block_udivmodsi4 (hpc : s.pc = target code .udivmodsi4)
    (hQ : ∀ s', InFrame (s.reg .sp + -4#32) s ⟨s.reg .r0, s.reg .r1, s.reg .r2, 0, 1⟩ s' → s'.pc = 11 →
      Reaches code s' Q) : Reaches code s Q := by
  obtain ⟨reg, flags, mem, pc⟩ := s
  obtain rfl : pc = 0 := hpc
  simp only at *
  refine .step rfl (.step rfl (.step rfl (.step rfl (.step rfl (.step rfl (.step rfl (.step rfl (.step rfl (.step rfl
    (.step rfl ?_))))))))))
  refine hQ _ ⟨?_, ?_, ?_, ?_, ?_, ?_, ?_, ?_, fun r h0 h2 h3 hr hr' => ?_, fun a h0 h8 h12 h16 h20 h24 => ?_⟩ rfl
  all_goals simp [-BitVec.reduceNeg, exec, State.value, *]

/-- The test of the divisor. -/
theorem block_test (h : InFrame F s₀ x s) (hpc : s.pc = 11)
    (hgo : x.den ≠ 0 → ∀ s', InFrame F s₀ x s' → s'.pc = target code .L4 → Reaches code s' Q)
    (hzero : x.den = 0 → ∀ s', InFrame F s₀ x s' → s'.reg .r3 = 0 → s'.pc = target code .L3 → Reaches code s' Q) :
    Reaches code s Q := by
  obtain ⟨reg, flags, mem, pc⟩ := s
  obtain rfl : pc = 11 := hpc
  have hfp : reg .fp = F := h.fp
  have hden : mem (F + -20#32) = x.den := h.den
  refine .step rfl (.step rfl (.branch rfl (fun hc => ?_) fun hc => .step rfl (.always rfl ?_)))
  · refine hgo ?_ _ (h.scratch rfl fun r _ _ h3 => ?_) rfl
    · simpa [-BitVec.reduceNeg, exec, State.value, ne_subFlags, hfp, hden] using hc
    · simp [exec, h3]
  · refine hzero ?_ _ (h.scratch rfl fun r _ _ h3 => ?_) ?_ rfl
    · simpa [-BitVec.reduceNeg, exec, State.value, ne_subFlags, hfp, hden] using hc
    · simp [exec, h3]
    · simp [exec, State.value]

/-- The caller's memory with the remainder where it asked for it. -/
def withRem (s : State) (x : Locals) : State := if x.rem = 0 then s else s.store x.rem x.num

theorem withRem_reg (s : State) (x : Locals) : (withRem s x).reg = s.reg := by
  unfold withRem
  split <;> rfl

/-- The results. -/
theorem block_results (h : InFrame F s₀ x s) (hpc : s.pc = 52) (hrem : x.rem ≠ 0 → ¬ Below 28 (F + 4#32) x.rem)
    (hQ : ∀ s', InFrame F (withRem s₀ x) x s' → s'.reg .r3 = x.res → s'.pc = target code .L3 → Reaches code s' Q) :
    Reaches code s Q := by
  obtain ⟨reg, flags, mem, pc⟩ := s
  obtain rfl : pc = 52 := hpc
  have hframe := h
  obtain ⟨hfp, hsp, hnum, hden, hremv, hres, hbit, hsaved, hregs, hmem⟩ := h
  simp only at *
  refine .step rfl (.step rfl (.branch rfl (fun hc => ?_) fun hc => ?_))
  · have hzero : x.rem = 0 := by
      simpa [-BitVec.reduceNeg, exec, State.value, eq_subFlags, hfp, hremv] using hc
    rw [withRem, if_pos hzero] at hQ
    refine .step rfl (.step rfl (hQ _ (hframe.scratch rfl fun r _ _ h3 => ?_) ?_ rfl))
    · simp [exec, h3]
    · simp [-BitVec.reduceNeg, exec, State.value, *]
  · have hne : x.rem ≠ 0 := by
      simpa [-BitVec.reduceNeg, exec, State.value, eq_subFlags, hfp, hremv] using hc
    rw [withRem, if_neg hne] at hQ
    have hout : F ≠ x.rem ∧ F + -8#32 ≠ x.rem ∧ F + -12#32 ≠ x.rem ∧ F + -16#32 ≠ x.rem ∧ F + -20#32 ≠ x.rem ∧
        F + -24#32 ≠ x.rem := by
      have hrem := hrem hne
      unfold Below at hrem
      bv_omega
    obtain ⟨h0, h8, h12, h16, h20, h24⟩ := hout
    refine .step rfl (.step rfl (.step rfl (.step rfl (.step rfl ?_))))
    refine hQ _ ⟨?_, ?_, ?_, ?_, ?_, ?_, ?_, ?_, fun r h0 h2 h3 hr hr' => ?_, fun a h0 h8 h12 h16 h20 h24 => ?_⟩ ?_ rfl
    all_goals simp [-BitVec.reduceNeg, exec, State.value, *]

/-- `__udivmodsi4` returns the quotient, 0 for the divisor 0, and stores the remainder where it is asked to. -/
theorem udivmodsi4_spec (hpc : s.pc = target code .udivmodsi4)
    (hrem : s.reg .r2 ≠ 0 → ¬ Below 28 (s.reg .sp) (s.reg .r2)) :
    Reaches code s (Returned 28 [.r2, .r3]
      (if s.reg .r1 = 0 ∨ s.reg .r2 = 0 then s else s.store (s.reg .r2) (s.reg .r0 % s.reg .r1))
      (s.reg .r0 / s.reg .r1)) := by
  refine block_udivmodsi4 hpc fun s₁ h₁ hpc₁ => block_test h₁ hpc₁ (fun hne s₂ h₂ hpc₂ => ?_) fun hzero s₂ h₂ hr3 hpc₂ => ?_
  · have hne : s.reg .r1 ≠ 0 := hne
    have hpos : 0 < (s.reg .r1).toNat := Nat.pos_of_ne_zero fun h0 => hne (BitVec.eq_of_toNat_eq h0)
    obtain ⟨m, hm, hlt, htop⟩ := exists_shift hpos (s.reg .r1).isLt
    refine up m hlt htop h₂ hpc₂ fun s₃ h₃ hpc₃ => ?_
    have hden : (s.reg .r1 <<< m).toNat = (s.reg .r1).toNat * 2 ^ m := by
      rw [BitVec.toNat_shiftLeft, Nat.shiftLeft_eq, Nat.mod_eq_of_lt hlt]
    have hbit : ((1 : Word) <<< m).toNat = 2 ^ m := by
      have hpow : 2 ^ m < 2 ^ 32 := Nat.pow_lt_pow_right (by omega) (by omega)
      rw [BitVec.toNat_shiftLeft, Nat.shiftLeft_eq]
      simpa using Nat.mod_eq_of_lt hpow
    have hhalf : ∀ k, k * 2 ^ (m + 1) / 2 = k * 2 ^ m := by
      intro k
      rw [pow_succ, ← Nat.mul_assoc]
      omega
    have hnum : (s.reg .r0).toNat < (s.reg .r1).toNat * 2 ^ (m + 1) := by
      have := (s.reg .r0).isLt
      rw [pow_succ, ← Nat.mul_assoc]
      omega
    refine down (d := (s.reg .r1).toNat) (m + 1) (by omega) ?_ (fun _ => ?_) hnum h₃ hpc₃ fun s₄ x' hmod hquot hr h₄ hpc₄ => ?_
    · rw [hbit]
      simpa using (hhalf 1).symm
    · rw [hden, hhalf]
    · have hmod' : x'.num = s.reg .r0 % s.reg .r1 := BitVec.eq_of_toNat_eq (by rw [hmod, BitVec.toNat_umod])
      have hquot' : x'.res = s.reg .r0 / s.reg .r1 := by
        refine BitVec.eq_of_toNat_eq ?_
        have hle := Nat.div_le_self (s.reg .r0).toNat (s.reg .r1).toNat
        have := (s.reg .r0).isLt
        have hquot : x'.res = 0#32 + BitVec.ofNat 32 ((s.reg .r0).toNat / (s.reg .r1).toNat) := hquot
        rw [hquot, BitVec.zero_add, BitVec.toNat_ofNat, BitVec.toNat_udiv, Nat.mod_eq_of_lt (by omega)]
      have hr : x'.rem = s.reg .r2 := hr
      have hcaller : withRem s x' =
          if s.reg .r1 = 0 ∨ s.reg .r2 = 0 then s else s.store (s.reg .r2) (s.reg .r0 % s.reg .r1) := by
        unfold withRem
        simp only [hne, hr, hmod', false_or]
      have hF : s.reg .sp + -4#32 + 4#32 = s.reg .sp := by bv_omega
      refine block_results h₄ hpc₄ (by rw [hF, hr]; exact hrem) fun s₅ h₅ hr3 hpc₅ => ?_
      rw [← hcaller, ← hquot']
      exact block_L3 h₅ (by rw [withRem_reg]) hpc₅ hr3
  · have hzero : s.reg .r1 = 0 := hzero
    rw [if_pos (Or.inl hzero), hzero]
    have hdiv : s.reg .r0 / 0 = 0 := BitVec.udiv_zero
    rw [hdiv]
    exact block_L3 h₂ rfl hpc₂ hr3

end Bikaya.Refine.Libdiv
