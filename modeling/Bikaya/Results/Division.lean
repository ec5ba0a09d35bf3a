import Mathlib.Data.BitVec
import Bikaya.Refine.Libdiv

/-!
# Division in software

On uARM the compiler calls `__aeabi_uidiv`, `__aeabi_uidivmod`, `__aeabi_idiv` and `__aeabi_idivmod`. For all operands
they return the quotient and the remainder, with 0 and the dividend for the divisor 0, and keep the registers and the
memory of their caller (`division`). `Framed`, `Pushed` and `Signed` say what a routine has on the stack at each point;
a callee keeps them.
-/

namespace Bikaya.Results
open Bikaya.Lib.Arm Bikaya.Model.Libdiv Bikaya.Refine.Libdiv

variable {s s' : State} {Q : State → Prop} {n : Nat}

/-- A frame of `n` bytes under the saved `fp` and `lr` of the caller's state `s`. -/
structure Framed (n : Nat) (s s' : State) : Prop where
  fp : s'.reg .fp = s.reg .sp + -4#32
  savedFp : s'.mem (s.reg .sp + -8#32) = s.reg .fp
  savedLr : s'.mem (s.reg .sp + -4#32) = s.reg .lr
  regs : ∀ r, r ∉ [Reg.r0, .r1, .r2, .r3, .fp, .sp, .lr] → s'.reg r = s.reg r
  mem : ∀ a, ¬ Below n (s.reg .sp) a → s'.mem a = s.mem a

/-- Only `r0` to `r3` changed. -/
theorem Framed.scratch {s'' : State} (h : Framed n s s') (hmem : s''.mem = s'.mem)
    (hreg : ∀ r, r ∉ [Reg.r0, .r1, .r2, .r3] → s''.reg r = s'.reg r) : Framed n s s'' := by
  obtain ⟨hfp, hsfp, hslr, hregs, hm⟩ := h
  rw [← hmem] at hsfp hslr hm
  exact ⟨(hreg .fp (by decide)).trans hfp, hsfp, hslr, fun r hr => (hreg r (by grind)).trans (hregs r hr), hm⟩

/-- The last three instructions of a routine with a frame. -/
theorem epilogue {k : Nat} {q : Word} (hsub : code[k]? = some (.sub .sp .fp (.imm 4)))
    (hload : code[k + 1]? = some (.ldmfd .sp [.fp, .lr])) (hret : code[k + 2]? = some (.bx .lr)) (hpc : s'.pc = k)
    (h : Framed n s s') (hq : s'.reg .r0 = q) : Reaches code s' (Returned n [.r1, .r2, .r3] s q) := by
  obtain ⟨reg, flags, mem, pc⟩ := s'
  obtain rfl : pc = k := hpc
  obtain ⟨hfp, hsfp, hslr, hregs, hmem⟩ := h
  simp only at *
  have h8 : s.reg .sp + -4#32 - 4#32 = s.reg .sp + -8#32 := by bv_omega
  have h4 : s.reg .sp + -8#32 + 4#32 = s.reg .sp + -4#32 := by bv_omega
  have h0 : s.reg .sp + -8#32 + 8#32 = s.reg .sp := by bv_omega
  refine .step hsub (.step hload (.step hret (.done ⟨?_, ?_, fun r hr0 hr => ?_, fun a ha => ?_⟩)))
  · simp [-BitVec.reduceNeg, exec, State.jump, State.loadAll, State.value, *]
  · simp [-BitVec.reduceNeg, exec, State.loadAll, State.value, *]
  · simp only [List.mem_cons, List.not_mem_nil, or_false, not_or] at hr
    by_cases hs : r = .fp ∨ r = .sp ∨ r = .lr
    · rcases hs with rfl | rfl | rfl <;> simp [-BitVec.reduceNeg, exec, State.loadAll, State.value, *]
    · rw [not_or, not_or] at hs
      have hr' := hregs r (by simp [hr0, hr, hs])
      simp [exec, State.loadAll, State.value, hs, hr']
  · simpa [exec, State.loadAll] using hmem a ha

/-- A callee works below the frame of its caller. -/
theorem below_frame {k : Nat} {sp a : Word} (h : Below k (sp - BitVec.ofNat 32 n) a) (hlt : n + k < 2 ^ 32) :
    Below (n + k) sp a := by
  unfold Below at *
  bv_omega

theorem Framed.call {k : Nat} {q : Word} {s'' : State} (h : Framed n s s') (hn : 8 ≤ n) (hlt : n + k < 2 ^ 32)
    (hsp : s'.reg .sp = s.reg .sp - BitVec.ofNat 32 n) (hr : Returned k [.r2, .r3] s' q s'') : Framed (n + k) s s'' := by
  have hout : ∀ a, ¬ Below (n + k) (s.reg .sp) a → s''.mem a = s'.mem a := fun a ha =>
    hr.mem a fun hb => ha (below_frame (by rwa [hsp] at hb) hlt)
  have hsaved : ∀ a, a = s.reg .sp + -8#32 ∨ a = s.reg .sp + -4#32 → s''.mem a = s'.mem a := by
    intro a ha
    refine hr.mem a ?_
    rw [hsp]
    unfold Below
    rcases ha with rfl | rfl <;> bv_omega
  refine ⟨?_, ?_, ?_, fun r hreg => ?_, fun a ha => ?_⟩
  · rw [hr.regs .fp (by decide) (by decide)]
    exact h.fp
  · rw [hsaved _ (.inl rfl)]
    exact h.savedFp
  · rw [hsaved _ (.inr rfl)]
    exact h.savedLr
  · rw [← h.regs r hreg]
    exact hr.regs r (by grind) (by grind)
  · rw [hout a ha]
    exact h.mem a fun hb => ha ⟨hb.1, hb.2.trans (Nat.le_add_right n k)⟩

theorem block_aeabiUidiv (hpc : s.pc = target code .aeabiUidiv)
    (hQ : ∀ s', Framed 16 s s' → s'.reg .sp = s.reg .sp - 16#32 → s'.reg .r0 = s.reg .r0 → s'.reg .r1 = s.reg .r1 →
      s'.reg .r2 = 0 → s'.reg .lr = 75 → s'.pc = target code .udivmodsi4 → Reaches code s' Q) : Reaches code s Q := by
  obtain ⟨reg, flags, mem, pc⟩ := s
  obtain rfl : pc = 65 := hpc
  simp only at *
  refine .step rfl (.step rfl (.step rfl (.step rfl (.step rfl (.step rfl (.step rfl (.step rfl (.step rfl (.step rfl
    ?_)))))))))
  refine hQ _ ⟨?_, ?_, ?_, fun r hr => ?_, fun a ha => ?_⟩ ?_ ?_ ?_ ?_ ?_ rfl
  case refine_4 =>
    simp only [List.mem_cons, List.not_mem_nil, or_false, not_or] at hr
    simp [exec, State.value, State.storeAll, hr]
  case refine_5 =>
    have hout : a ≠ reg .sp + -4#32 ∧ a ≠ reg .sp + -8#32 ∧ a ≠ reg .sp + -12#32 ∧ a ≠ reg .sp + -16#32 := by
      unfold Below at ha
      bv_omega
    simp [exec, State.value, State.storeAll, BitVec.add_assoc, BitVec.sub_eq_add_neg] at hout ⊢
    simp [hout]
  all_goals simp [exec, State.value, State.storeAll, BitVec.add_assoc, BitVec.sub_eq_add_neg]

theorem aeabiUidiv_spec (hpc : s.pc = target code .aeabiUidiv) :
    Reaches code s (Returned 44 [.r1, .r2, .r3] s (s.reg .r0 / s.reg .r1)) := by
  refine block_aeabiUidiv hpc fun s₁ h₁ hsp h0 h1 h2 hlr hpc₁ => ?_
  refine (udivmodsi4_spec hpc₁ fun hne => absurd h2 hne).trans fun s₂ h₂ => ?_
  rw [if_pos (Or.inr h2), h0, h1] at h₂
  have hpc₂ : s₂.pc = 75 := by
    rw [h₂.pc, hlr]
    rfl
  have h₃ : Framed 44 s s₂ := h₁.call (by omega) (by omega) hsp h₂
  obtain ⟨reg, flags, mem, pc⟩ := s₂
  obtain rfl : pc = 75 := hpc₂
  refine .step rfl (.step rfl (epilogue (k := 77) rfl rfl rfl rfl (h₃.scratch rfl fun r hr => ?_) ?_))
  · simp only [List.mem_cons, List.not_mem_nil, or_false, not_or] at hr
    simp [exec, hr]
  · simpa [exec, State.value] using h₂.r0

/-! ## The remainder -/

/-- The code of `__aeabi_uidivmod` and of `__aeabi_idivmod`. -/
def divmodCode (l callee : Label) : List (Instr Label) := [
  .label l,
  .stmfd .sp [.r0, .r1, .ip, .lr],
  .bl callee,
  .ldmfd .sp [.r1, .r2, .ip, .lr],
  .mul .r3 .r0 .r2,
  .sub .r1 .r1 (.reg .r3),
  .bx .lr]

/-- The operands, `ip` and `lr` are saved on the top of the stack. -/
structure Pushed (n : Nat) (s s' : State) : Prop where
  sp : s'.reg .sp = s.reg .sp + -16#32
  num : s'.mem (s.reg .sp + -16#32) = s.reg .r0
  den : s'.mem (s.reg .sp + -12#32) = s.reg .r1
  ip : s'.mem (s.reg .sp + -8#32) = s.reg .ip
  lr : s'.mem (s.reg .sp + -4#32) = s.reg .lr
  regs : ∀ r, r ∉ [Reg.r0, .r1, .r2, .r3, .sp, .lr] → s'.reg r = s.reg r
  mem : ∀ a, ¬ Below n (s.reg .sp) a → s'.mem a = s.mem a

theorem Pushed.call {k : Nat} {q : Word} {s'' : State} (h : Pushed 16 s s') (hlt : 16 + k < 2 ^ 32)
    (hr : Returned k [.r1, .r2, .r3] s' q s'') : Pushed (16 + k) s s'' := by
  have hsp : s'.reg .sp = s.reg .sp - BitVec.ofNat 32 16 := by
    rw [h.sp]
    bv_omega
  have hslot : ∀ a, a = s.reg .sp + -16#32 ∨ a = s.reg .sp + -12#32 ∨ a = s.reg .sp + -8#32 ∨ a = s.reg .sp + -4#32 →
      s''.mem a = s'.mem a := by
    intro a ha
    refine hr.mem a ?_
    rw [hsp]
    unfold Below
    rcases ha with rfl | rfl | rfl | rfl <;> bv_omega
  refine ⟨?_, ?_, ?_, ?_, ?_, fun r hreg => ?_, fun a ha => ?_⟩
  · rw [hr.regs .sp (by decide) (by decide)]
    exact h.sp
  · rw [hslot _ (by simp)]
    exact h.num
  · rw [hslot _ (by simp)]
    exact h.den
  · rw [hslot _ (by simp)]
    exact h.ip
  · rw [hslot _ (by simp)]
    exact h.lr
  · rw [← h.regs r hreg]
    exact hr.regs r (by grind) (by grind)
  · rw [hr.mem a fun hb => ha (below_frame (by rwa [hsp] at hb) hlt)]
    exact h.mem a fun hb => ha ⟨hb.1, hb.2.trans (Nat.le_add_right 16 k)⟩

theorem block_push {l callee : Label} {k : Nat} (hcode : ∀ i < 7, code[k + i]? = (divmodCode l callee)[i]?)
    (hpc : s.pc = k) (hQ : ∀ s', Pushed 16 s s' → s'.reg .r0 = s.reg .r0 → s'.reg .r1 = s.reg .r1 →
      s'.reg .lr = BitVec.ofNat 32 (k + 3) → s'.pc = target code callee → Reaches code s' Q) : Reaches code s Q := by
  obtain ⟨reg, flags, mem, pc⟩ := s
  obtain rfl : pc = k := hpc
  simp only at *
  refine .step (hcode 0 (by decide)) (.step (hcode 1 (by decide)) (.step (hcode 2 (by decide)) ?_))
  refine hQ _ ⟨?_, ?_, ?_, ?_, ?_, fun r hr => ?_, fun a ha => ?_⟩ ?_ ?_ ?_ rfl
  case refine_6 =>
    simp only [List.mem_cons, List.not_mem_nil, or_false, not_or] at hr
    simp [exec, State.storeAll, hr]
  case refine_7 =>
    have hout : a ≠ reg .sp + -4#32 ∧ a ≠ reg .sp + -8#32 ∧ a ≠ reg .sp + -12#32 ∧ a ≠ reg .sp + -16#32 := by
      unfold Below at ha
      bv_omega
    simp [exec, State.storeAll, BitVec.add_assoc, BitVec.sub_eq_add_neg] at hout ⊢
    simp [hout]
  all_goals simp [exec, State.storeAll, BitVec.add_assoc, BitVec.sub_eq_add_neg]

theorem block_pop {l callee : Label} {k : Nat} {q : Word}
    (hcode : ∀ i < 7, code[k + i]? = (divmodCode l callee)[i]?) (hpc : s'.pc = k + 3) (h : Pushed n s s')
    (hq : s'.reg .r0 = q) : Reaches code s' fun s'' => Returned n [.r1, .r2, .r3] s q s'' ∧
      s''.reg .r1 = s.reg .r0 - q * s.reg .r1 := by
  obtain ⟨reg, flags, mem, pc⟩ := s'
  obtain rfl : pc = k + 3 := hpc
  obtain ⟨hsp, hnum, hden, hip, hlr, hregs, hmem⟩ := h
  simp only at *
  have h12 : s.reg .sp + -16#32 + 4#32 = s.reg .sp + -12#32 := by bv_omega
  have h8 : s.reg .sp + -12#32 + 4#32 = s.reg .sp + -8#32 := by bv_omega
  have h4 : s.reg .sp + -8#32 + 4#32 = s.reg .sp + -4#32 := by bv_omega
  have h0 : s.reg .sp + -16#32 + 16#32 = s.reg .sp := by bv_omega
  refine .step (hcode 3 (by decide)) (.step (hcode 4 (by decide)) (.step (hcode 5 (by decide))
    (.step (hcode 6 (by decide)) (.done ⟨⟨?_, ?_, fun r hr0 hr => ?_, fun a ha => ?_⟩, ?_⟩))))
  · simp [-BitVec.reduceNeg, exec, State.jump, State.loadAll, State.value, *]
  · simp [-BitVec.reduceNeg, exec, State.loadAll, State.value, *]
  · simp only [List.mem_cons, List.not_mem_nil, or_false, not_or] at hr
    by_cases hs : r = .ip ∨ r = .sp ∨ r = .lr
    · rcases hs with rfl | rfl | rfl <;> simp [-BitVec.reduceNeg, exec, State.loadAll, State.value, *]
    · rw [not_or, not_or] at hs
      have hr' := hregs r (by simp [hr0, hr, hs])
      simp [exec, State.loadAll, State.value, hs, hr, hr']
  · simpa [exec, State.loadAll] using hmem a ha
  · simp [-BitVec.reduceNeg, exec, State.loadAll, State.value, *]

theorem divmod_spec {l callee : Label} {k m : Nat} {div : Word → Word → Word} (hpc : s.pc = k)
    (hcode : ∀ i < 7, code[k + i]? = (divmodCode l callee)[i]?) (hm : m + 16 < 2 ^ 32) (hk : k + 3 < 2 ^ 32)
    (hcallee : ∀ s : State, s.pc = target code callee →
      Reaches code s (Returned m [.r1, .r2, .r3] s (div (s.reg .r0) (s.reg .r1)))) :
    Reaches code s fun s' => Returned (16 + m) [.r1, .r2, .r3] s (div (s.reg .r0) (s.reg .r1)) s' ∧
      s'.reg .r1 = s.reg .r0 - div (s.reg .r0) (s.reg .r1) * s.reg .r1 := by
  refine block_push hcode hpc fun s₁ h₁ h0 h1 hlr hpc₁ => (hcallee s₁ hpc₁).trans fun s₂ h₂ => ?_
  rw [h0, h1] at h₂
  refine block_pop hcode ?_ (h₁.call (by omega) h₂) h₂.r0
  rw [h₂.pc, hlr, BitVec.toNat_ofNat, Nat.mod_eq_of_lt hk]

/-! ## Signed operands -/

/-- The frame of `__aeabi_idiv` with its local variables. -/
structure Signed (n : Nat) (num den sign : Word) (s s' : State) : Prop extends Framed n s s' where
  sp : s'.reg .sp = s.reg .sp - 24#32
  num : s'.mem (s.reg .sp + -20#32) = num
  den : s'.mem (s.reg .sp + -24#32) = den
  sign : s'.mem (s.reg .sp + -12#32) = sign

/-- The local variables are addressed from `fp`. -/
theorem slots (w : Word) : w + -4#32 + -8#32 = w + -12#32 ∧ w + -4#32 + -12#32 = w + -16#32 ∧
    w + -4#32 + -16#32 = w + -20#32 ∧ w + -4#32 + -20#32 = w + -24#32 := by
  simp only [BitVec.add_assoc]
  exact ⟨rfl, rfl, rfl, rfl⟩

def signBit (w : Word) : Word := if w.msb then 1 else 0

variable {s₀ : State} {num den sign : Word}

theorem block_aeabiIdiv (hpc : s.pc = target code .aeabiIdiv)
    (hQ : ∀ s', Signed 24 (s.reg .r0) (s.reg .r1) 0 s s' → s'.pc = 95 → Reaches code s' Q) : Reaches code s Q := by
  obtain ⟨reg, flags, mem, pc⟩ := s
  obtain rfl : pc = 87 := hpc
  simp only at *
  refine .step rfl (.step rfl (.step rfl (.step rfl (.step rfl (.step rfl (.step rfl (.step rfl ?_)))))))
  refine hQ _ ⟨⟨?_, ?_, ?_, fun r hr => ?_, fun a ha => ?_⟩, ?_, ?_, ?_, ?_⟩ rfl
  case refine_4 =>
    simp only [List.mem_cons, List.not_mem_nil, or_false, not_or] at hr
    simp [exec, State.value, State.storeAll, hr]
  case refine_5 =>
    have hout : a ≠ reg .sp + -4#32 ∧ a ≠ reg .sp + -8#32 ∧ a ≠ reg .sp + -12#32 ∧ a ≠ reg .sp + -20#32 ∧
        a ≠ reg .sp + -24#32 := by
      unfold Below at ha
      bv_omega
    simp [exec, State.value, State.storeAll, BitVec.add_assoc, BitVec.sub_eq_add_neg] at hout ⊢
    simp [hout]
  all_goals simp [exec, State.value, State.storeAll, BitVec.add_assoc, BitVec.sub_eq_add_neg]

theorem Signed.scratch (h : Signed n num den sign s₀ s) (hmem : s'.mem = s.mem)
    (hreg : ∀ r, r ∉ [Reg.r0, .r1, .r2, .r3] → s'.reg r = s.reg r) : Signed n num den sign s₀ s' := by
  obtain ⟨hf, hsp, hnum, hden, hsign⟩ := h
  rw [← hmem] at hnum hden hsign
  exact ⟨hf.scratch hmem hreg, (hreg .sp (by decide)).trans hsp, hnum, hden, hsign⟩

theorem target_L13 : 103 = target code .L13 := by decide +kernel
theorem target_L15 : 127 = target code .L15 := by decide +kernel
theorem target_L14 : 113 = target code .L14 := by decide +kernel

/-- The dividend without its sign. -/
theorem block_num (h : Signed 24 num den 0 s₀ s) (hpc : s.pc = 95)
    (hQ : ∀ s', Signed 24 num.abs den (signBit num) s₀ s' → s'.pc = target code .L13 → Reaches code s' Q) :
    Reaches code s Q := by
  obtain ⟨reg, flags, mem, pc⟩ := s
  obtain rfl : pc = 95 := hpc
  have hall := h
  obtain ⟨⟨hfp, hsfp, hslr, hregs, hmem⟩, hsp, hnum, hden, hsign⟩ := h
  simp only at *
  have hslot : mem (reg .fp + -16#32) = num := by
    rw [hfp, BitVec.add_assoc]
    exact hnum
  obtain ⟨h8, h12, h16, h20⟩ := slots (s₀.reg .sp)
  refine .step rfl (.step rfl (.branch rfl (fun hc => ?_) fun hc => ?_))
  · have hmsb : num.msb = false := by
      simpa [-BitVec.reduceNeg, exec, State.value, ge_subFlags, hslot, BitVec.msb_eq_toInt] using hc
    rw [BitVec.abs, signBit, hmsb, if_neg (by decide), if_neg (by decide)] at hQ
    refine hQ _ (hall.scratch rfl fun r hr => ?_) (State.jump_pc _ _)
    simp only [List.mem_cons, List.not_mem_nil, or_false, not_or] at hr
    simp [exec, hr]
  · have hmsb : num.msb = true := by
      simpa [-BitVec.reduceNeg, exec, State.value, ge_subFlags, hslot, BitVec.msb_eq_toInt] using hc
    rw [BitVec.abs, signBit, if_pos hmsb, if_pos hmsb] at hQ
    refine .step rfl (.step rfl (.step rfl (.step rfl (.step rfl ?_))))
    refine hQ _ ⟨⟨?_, ?_, ?_, fun r hr => ?_, fun a ha => ?_⟩, ?_, ?_, ?_, ?_⟩ target_L13
    case refine_5 =>
      have hout : a ≠ s₀.reg .sp + -12#32 ∧ a ≠ s₀.reg .sp + -20#32 := by
        unfold Below at ha
        bv_omega
      simp [-BitVec.reduceNeg, exec, State.value, *]
    case refine_4 =>
      have hr3 : r ≠ .r3 := by grind
      simp [exec, hr3, hregs r hr]
    all_goals simp [-BitVec.reduceNeg, exec, State.value, *]

/-- The divisor without its sign. -/
theorem block_L13 (h : Signed 24 num den sign s₀ s) (hpc : s.pc = target code .L13)
    (hQ : ∀ s', Signed 24 num den.abs (sign ^^^ signBit den) s₀ s' → s'.pc = target code .L14 → Reaches code s' Q) :
    Reaches code s Q := by
  rw [← target_L13] at hpc
  obtain ⟨reg, flags, mem, pc⟩ := s
  obtain rfl : pc = 103 := hpc
  have hall := h
  obtain ⟨⟨hfp, hsfp, hslr, hregs, hmem⟩, hsp, hnum, hden, hsign⟩ := h
  simp only at *
  obtain ⟨h8, h12, h16, h20⟩ := slots (s₀.reg .sp)
  refine .step rfl (.step rfl (.step rfl (.branch rfl (fun hc => ?_) fun hc => ?_)))
  · have hmsb : den.msb = false := by
      simpa [-BitVec.reduceNeg, exec, State.value, ge_subFlags, BitVec.msb_eq_toInt, hfp, h20, hden] using hc
    have hxor : sign ^^^ 0 = sign := BitVec.xor_zero
    rw [BitVec.abs, signBit, hmsb, if_neg (by decide), if_neg (by decide), hxor] at hQ
    refine hQ _ (hall.scratch rfl fun r hr => ?_) (State.jump_pc _ _)
    simp only [List.mem_cons, List.not_mem_nil, or_false, not_or] at hr
    simp [exec, hr]
  · have hmsb : den.msb = true := by
      simpa [-BitVec.reduceNeg, exec, State.value, ge_subFlags, BitVec.msb_eq_toInt, hfp, h20, hden] using hc
    rw [BitVec.abs, signBit, if_pos hmsb, if_pos hmsb] at hQ
    refine .step rfl (.step rfl (.step rfl (.step rfl (.step rfl (.step rfl ?_)))))
    refine hQ _ ⟨⟨?_, ?_, ?_, fun r hr => ?_, fun a ha => ?_⟩, ?_, ?_, ?_, ?_⟩ target_L14
    case refine_5 =>
      have hout : a ≠ s₀.reg .sp + -12#32 ∧ a ≠ s₀.reg .sp + -24#32 := by
        unfold Below at ha
        bv_omega
      simp [-BitVec.reduceNeg, exec, State.value, *]
    case refine_4 =>
      have hr3 : r ≠ .r3 := by grind
      simp [exec, hr3, hregs r hr]
    all_goals simp [-BitVec.reduceNeg, exec, State.value, *]

/-- The call. -/
theorem block_L14 (h : Signed 24 num den sign s₀ s) (hpc : s.pc = target code .L14)
    (hQ : ∀ s', Signed 24 num den sign s₀ s' → s'.reg .r0 = num → s'.reg .r1 = den → s'.reg .r2 = 0 →
      s'.reg .lr = 119 → s'.pc = target code .udivmodsi4 → Reaches code s' Q) : Reaches code s Q := by
  rw [← target_L14] at hpc
  obtain ⟨reg, flags, mem, pc⟩ := s
  obtain rfl : pc = 113 := hpc
  obtain ⟨⟨hfp, hsfp, hslr, hregs, hmem⟩, hsp, hnum, hden, hsign⟩ := h
  simp only at *
  obtain ⟨h8, h12, h16, h20⟩ := slots (s₀.reg .sp)
  refine .step rfl (.step rfl (.step rfl (.step rfl (.step rfl (.step rfl ?_)))))
  refine hQ _ ⟨⟨?_, ?_, ?_, fun r hr => ?_, hmem⟩, ?_, ?_, ?_, ?_⟩ ?_ ?_ ?_ ?_ rfl
  case refine_4 =>
    have hr' := hregs r hr
    simp only [List.mem_cons, List.not_mem_nil, or_false, not_or] at hr
    simp [exec, hr, hr']
  all_goals simp [-BitVec.reduceNeg, exec, State.value, *]

theorem Signed.call {k : Nat} {q : Word} (h : Signed 24 num den sign s₀ s) (hlt : 24 + k < 2 ^ 32)
    (hr : Returned k [.r2, .r3] s q s') : Signed (24 + k) num den sign s₀ s' := by
  have hslot : ∀ a, a = s₀.reg .sp + -20#32 ∨ a = s₀.reg .sp + -24#32 ∨ a = s₀.reg .sp + -12#32 →
      s'.mem a = s.mem a := by
    intro a ha
    refine hr.mem a ?_
    rw [h.sp]
    unfold Below
    rcases ha with rfl | rfl | rfl <;> bv_omega
  refine ⟨h.toFramed.call (by omega) hlt h.sp hr, ?_, ?_, ?_, ?_⟩
  · rw [hr.regs .sp (by decide) (by decide)]
    exact h.sp
  · rw [hslot _ (by simp)]
    exact h.num
  · rw [hslot _ (by simp)]
    exact h.den
  · rw [hslot _ (by simp)]
    exact h.sign

/-- The sign of the quotient. -/
theorem block_sign {q : Word} (h : Signed 52 num den sign s₀ s) (hpc : s.pc = 119) (hq : s.reg .r0 = q)
    (hQ : ∀ s', Framed 52 s₀ s' → s'.reg .r0 = (if sign = 0 then q else -q) → s'.pc = 130 → Reaches code s' Q) :
    Reaches code s Q := by
  obtain ⟨reg, flags, mem, pc⟩ := s
  obtain rfl : pc = 119 := hpc
  obtain ⟨⟨hfp, hsfp, hslr, hregs, hmem⟩, hsp, hnum, hden, hsign⟩ := h
  simp only at *
  obtain ⟨h8, h12, h16, h20⟩ := slots (s₀.reg .sp)
  have hout : ∀ a, ¬ Below 52 (s₀.reg .sp) a → a ≠ s₀.reg .sp + -16#32 := by
    intro a ha
    unfold Below at ha
    bv_omega
  refine .step rfl (.step rfl (.step rfl (.step rfl (.branch rfl (fun hc => ?_) fun hc => ?_))))
  · have hzero : sign = 0 := by
      simpa [-BitVec.reduceNeg, exec, State.value, eq_subFlags, hfp, h8, h12, hsign] using hc
    rw [if_pos hzero] at hQ
    rw [← target_L15]
    refine .step rfl (.step rfl (.step rfl (hQ _ ⟨?_, ?_, ?_, fun r hr => ?_, fun a ha => ?_⟩ ?_ rfl)))
    case refine_5 => simp [-BitVec.reduceNeg, exec, State.value, hout a ha, *]
    case refine_4 =>
      have hr' := hregs r hr
      simp only [List.mem_cons, List.not_mem_nil, or_false, not_or] at hr
      simp [exec, hr, hr']
    all_goals simp [-BitVec.reduceNeg, exec, State.value, *]
  · have hne : sign ≠ 0 := by
      simpa [-BitVec.reduceNeg, exec, State.value, eq_subFlags, hfp, h8, h12, hsign] using hc
    rw [if_neg hne] at hQ
    refine .step rfl (.step rfl (.step rfl (.step rfl (.step rfl (.step rfl
      (hQ _ ⟨?_, ?_, ?_, fun r hr => ?_, fun a ha => ?_⟩ ?_ rfl))))))
    case refine_5 => simp [-BitVec.reduceNeg, exec, State.value, hout a ha, *]
    case refine_4 =>
      have hr' := hregs r hr
      simp only [List.mem_cons, List.not_mem_nil, or_false, not_or] at hr
      simp [exec, hr, hr']
    all_goals simp [-BitVec.reduceNeg, exec, State.value, *]

theorem sdiv_eq_abs (a b : Word) :
    a.sdiv b = if signBit a ^^^ signBit b = 0 then a.abs / b.abs else -(a.abs / b.abs) := by
  rw [BitVec.sdiv_eq]
  unfold signBit BitVec.abs
  cases ha : a.msb <;> cases hb : b.msb <;> simp

theorem aeabiIdiv_spec (hpc : s.pc = target code .aeabiIdiv) :
    Reaches code s (Returned 52 [.r1, .r2, .r3] s ((s.reg .r0).sdiv (s.reg .r1))) := by
  refine block_aeabiIdiv hpc fun s₁ h₁ hpc₁ => block_num h₁ hpc₁ fun s₂ h₂ hpc₂ => block_L13 h₂ hpc₂ fun s₃ h₃ hpc₃ =>
    block_L14 h₃ hpc₃ fun s₄ h₄ h0 h1 h2 hlr hpc₄ => ?_
  refine (udivmodsi4_spec hpc₄ fun hne => absurd h2 hne).trans fun s₅ h₅ => ?_
  rw [if_pos (Or.inr h2), h0, h1] at h₅
  have hpc₅ : s₅.pc = 119 := by
    rw [h₅.pc, hlr]
    rfl
  refine block_sign (h₄.call (by omega) h₅) hpc₅ h₅.r0 fun s₆ h₆ hq hpc₆ => ?_
  rw [← sdiv_eq_abs] at hq
  exact epilogue (k := 130) rfl rfl rfl hpc₆ h₆ hq

/-! ## The entry points -/

theorem umod_eq_sub (a b : Word) : a % b = a - a / b * b := by
  have h : a / b * b + a % b = a := by
    calc a / b * b + a % b = BitVec.ofNat 32 (a.toNat / b.toNat * b.toNat + a.toNat % b.toNat) := by
          simp [BitVec.ofNat_add, BitVec.ofNat_mul, BitVec.udiv_def, BitVec.umod_def]
      _ = a := by rw [Nat.div_add_mod', BitVec.ofNat_toNat, BitVec.setWidth_eq]
  rw [eq_sub_iff_add_eq, add_comm]
  exact h

theorem srem_eq_sub (a b : Word) : a.srem b = a - a.sdiv b * b := by
  rw [BitVec.srem_eq, BitVec.sdiv_eq]
  cases ha : a.msb <;> cases hb : b.msb <;> simp only [BitVec.udiv_eq, umod_eq_sub] <;> ring

/-- Every routine returns the quotient of `r0` by `r1` in `r0`; the remainder goes where `r2` points, or to `r1`. By 0
the quotient is 0; `__udivmodsi4` then stores no remainder, and the others return the dividend. -/
theorem division (s : State) :
    (s.pc = target code .udivmodsi4 → (s.reg .r2 ≠ 0 → ¬ Below 28 (s.reg .sp) (s.reg .r2)) →
      Reaches code s (Returned 28 [.r2, .r3]
        (if s.reg .r1 = 0 ∨ s.reg .r2 = 0 then s else s.store (s.reg .r2) (s.reg .r0 % s.reg .r1))
        (s.reg .r0 / s.reg .r1))) ∧
    (s.pc = target code .aeabiUidiv → Reaches code s (Returned 44 [.r1, .r2, .r3] s (s.reg .r0 / s.reg .r1))) ∧
    (s.pc = target code .aeabiUidivmod → Reaches code s fun s' =>
      Returned 60 [.r1, .r2, .r3] s (s.reg .r0 / s.reg .r1) s' ∧ s'.reg .r1 = s.reg .r0 % s.reg .r1) ∧
    (s.pc = target code .aeabiIdiv →
      Reaches code s (Returned 52 [.r1, .r2, .r3] s ((s.reg .r0).sdiv (s.reg .r1)))) ∧
    (s.pc = target code .aeabiIdivmod → Reaches code s fun s' =>
      Returned 68 [.r1, .r2, .r3] s ((s.reg .r0).sdiv (s.reg .r1)) s' ∧
        s'.reg .r1 = (s.reg .r0).srem (s.reg .r1)) := by
  refine ⟨udivmodsi4_spec, aeabiUidiv_spec, fun hpc => ?_, aeabiIdiv_spec, fun hpc => ?_⟩
  · rw [umod_eq_sub]
    exact divmod_spec (l := .aeabiUidivmod) (k := 80) (m := 44) hpc (by decide) (by omega) (by omega)
      fun _ => aeabiUidiv_spec
  · rw [srem_eq_sub]
    exact divmod_spec (l := .aeabiIdivmod) (k := 133) (m := 52) hpc (by decide) (by omega) (by omega)
      fun _ => aeabiIdiv_spec

/-- A call. -/
def calling (l : Label) (a b : Word) : State where
  reg := Function.update (Function.update (fun _ => 0x1000) .r0 a) .r1 b
  flags := ⟨false, false, false, false⟩
  mem := fun _ => 0
  pc := target code l

theorem calling_pc (l : Label) (a b : Word) : (calling l a b).pc = target code l := rfl

theorem division_signed : Reaches code (calling .aeabiIdivmod (-7) 2) fun s' => s'.reg .r0 = -3 ∧ s'.reg .r1 = -1 :=
  ((division (calling .aeabiIdivmod (-7) 2)).2.2.2.2 (calling_pc _ _ _)).trans fun _ h =>
    .done ⟨h.1.r0.trans (by decide), h.2.trans (by decide)⟩

end Bikaya.Results
