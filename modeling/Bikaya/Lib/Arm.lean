import Mathlib.Logic.Function.Basic

/-!
# A fragment of the ARM instruction set

Registers, condition flags and a word-addressed memory; a program is a list of lines, and `pc` the number of the next
one. A label is a line that does nothing, so a program reads like its source. Return addresses are line numbers.

`Reaches prog s Q` : from `s` the program comes to a state in `Q` (total correctness, for a step has one outcome). It is
proved by `Reaches.step`, one line at a time; `ge_subFlags` and the like say what the conditions after a comparison
mean.
-/

namespace Bikaya.Lib.Arm

abbrev Word := BitVec 32

inductive Reg where
  | r0 | r1 | r2 | r3 | r4 | r5 | r6 | r7 | r8 | r9 | r10 | fp | ip | sp | lr
  deriving DecidableEq

/-- The second operand of a data processing instruction. -/
inductive Operand where
  | imm (w : Word)
  | reg (r : Reg)
  /-- Shifted by a constant. -/
  | asl (r : Reg) (n : Nat)
  | lsr (r : Reg) (n : Nat)
  deriving DecidableEq

inductive Cond where
  | al | eq | ne | ge | hi
  deriving DecidableEq

inductive Instr (L : Type) where
  | label (l : L)
  | mov (rd : Reg) (x : Operand)
  | add (rd rn : Reg) (x : Operand)
  | sub (rd rn : Reg) (x : Operand)
  | rsb (rd rn : Reg) (x : Operand)
  | eor (rd rn : Reg) (x : Operand)
  | mul (rd rm rs : Reg)
  | cmp (rn : Reg) (x : Operand)
  /-- `[rn, #off]`. -/
  | str (rd rn : Reg) (off : Word)
  | ldr (rd rn : Reg) (off : Word)
  /-- `[rn, #off]!`. -/
  | strPre (rd rn : Reg) (off : Word)
  /-- `[rn], #off`. -/
  | ldrPost (rd rn : Reg) (off : Word)
  /-- `rn!, {rs}`, the registers in ascending order. -/
  | stmfd (rn : Reg) (rs : List Reg)
  | ldmfd (rn : Reg) (rs : List Reg)
  | b (c : Cond) (l : L)
  | bl (l : L)
  /-- `bx r`, or `mov pc, r`. -/
  | bx (r : Reg)
  deriving DecidableEq

structure Flags where
  n : Bool
  z : Bool
  c : Bool
  v : Bool

structure State where
  reg : Reg → Word
  flags : Flags
  mem : Word → Word
  pc : Nat

/-- The flags of `a - b`. -/
def subFlags (a b : Word) : Flags where
  n := (a - b).msb
  z := a - b == 0
  c := decide (b ≤ a)
  v := a.msb != b.msb && (a - b).msb != a.msb

def Cond.holds : Cond → Flags → Bool
  | .al, _ => true
  | .eq, f => f.z
  | .ne, f => !f.z
  | .ge, f => f.n == f.v
  | .hi, f => f.c && !f.z

namespace State

def value (s : State) : Operand → Word
  | .imm w => w
  | .reg r => s.reg r
  | .asl r n => s.reg r <<< n
  | .lsr r n => s.reg r >>> n

def set (s : State) (r : Reg) (w : Word) : State := { s with reg := Function.update s.reg r w }

def store (s : State) (a w : Word) : State := { s with mem := Function.update s.mem a w }

/-- Words at ascending addresses. -/
def storeAll (s : State) (a : Word) : List Reg → State
  | [] => s
  | r :: rs => (s.store a (s.reg r)).storeAll (a + 4) rs

def loadAll (s : State) (a : Word) : List Reg → State
  | [] => s
  | r :: rs => (s.set r (s.mem a)).loadAll (a + 4) rs

def next (s : State) : State := { s with pc := s.pc + 1 }

def jump (s : State) (pc : Nat) : State := { s with pc := pc }

section
variable (s : State) (r r' : Reg) (a a' w : Word) (pc : Nat)

@[simp] theorem set_reg : (s.set r w).reg r' = if r' = r then w else s.reg r' := Function.update_apply _ _ _ _
@[simp] theorem set_mem : (s.set r w).mem = s.mem := rfl
@[simp] theorem set_flags : (s.set r w).flags = s.flags := rfl
@[simp] theorem set_pc : (s.set r w).pc = s.pc := rfl
@[simp] theorem store_reg : (s.store a w).reg = s.reg := rfl
@[simp] theorem store_mem : (s.store a w).mem a' = if a' = a then w else s.mem a' := Function.update_apply _ _ _ _
@[simp] theorem store_flags : (s.store a w).flags = s.flags := rfl
@[simp] theorem store_pc : (s.store a w).pc = s.pc := rfl
@[simp] theorem next_reg : s.next.reg = s.reg := rfl
@[simp] theorem next_mem : s.next.mem = s.mem := rfl
@[simp] theorem next_flags : s.next.flags = s.flags := rfl
@[simp] theorem next_pc : s.next.pc = s.pc + 1 := rfl
@[simp] theorem jump_reg : (s.jump pc).reg = s.reg := rfl
@[simp] theorem jump_pc : (s.jump pc).pc = pc := rfl
@[simp] theorem jump_mem : (s.jump pc).mem = s.mem := rfl

end

end State

section
variable {L : Type} [DecidableEq L]

/-- Where a label stands. -/
def target (prog : List (Instr L)) (l : L) : Nat := prog.idxOf (.label l)

def exec (prog : List (Instr L)) (s : State) : Instr L → State
  | .label _ => s.next
  | .mov rd x => (s.set rd (s.value x)).next
  | .add rd rn x => (s.set rd (s.reg rn + s.value x)).next
  | .sub rd rn x => (s.set rd (s.reg rn - s.value x)).next
  | .rsb rd rn x => (s.set rd (s.value x - s.reg rn)).next
  | .eor rd rn x => (s.set rd (s.reg rn ^^^ s.value x)).next
  | .mul rd rm rs => (s.set rd (s.reg rm * s.reg rs)).next
  | .cmp rn x => { s with flags := subFlags (s.reg rn) (s.value x) }.next
  | .str rd rn off => (s.store (s.reg rn + off) (s.reg rd)).next
  | .ldr rd rn off => (s.set rd (s.mem (s.reg rn + off))).next
  | .strPre rd rn off => ((s.store (s.reg rn + off) (s.reg rd)).set rn (s.reg rn + off)).next
  | .ldrPost rd rn off => ((s.set rn (s.reg rn + off)).set rd (s.mem (s.reg rn))).next
  | .stmfd rn rs =>
    let a := s.reg rn - BitVec.ofNat 32 (4 * rs.length)
    ((s.storeAll a rs).set rn a).next
  | .ldmfd rn rs => ((s.set rn (s.reg rn + BitVec.ofNat 32 (4 * rs.length))).loadAll (s.reg rn) rs).next
  | .b c l => if c.holds s.flags then s.jump (target prog l) else s.next
  | .bl l => (s.set .lr (BitVec.ofNat 32 (s.pc + 1))).jump (target prog l)
  | .bx r => s.jump (s.reg r).toNat

/-- The program comes to a state in `Q`. -/
inductive Reaches (prog : List (Instr L)) : State → (State → Prop) → Prop where
  | done {s : State} {Q : State → Prop} : Q s → Reaches prog s Q
  | step {s : State} {Q : State → Prop} {i : Instr L} : prog[s.pc]? = some i → Reaches prog (exec prog s i) Q →
      Reaches prog s Q

namespace Reaches
variable {prog : List (Instr L)} {s : State} {P Q : State → Prop}

theorem trans (h : Reaches prog s P) (hPQ : ∀ s', P s' → Reaches prog s' Q) : Reaches prog s Q := by
  induction h with
  | done hP => exact hPQ _ hP
  | step hi _ ih => exact .step hi (ih hPQ)

/-- A branch, taken or not. -/
theorem branch {c : Cond} {l : L} (hi : prog[s.pc]? = some (.b c l))
    (htaken : c.holds s.flags = true → Reaches prog (s.jump (target prog l)) Q)
    (hnot : c.holds s.flags = false → Reaches prog s.next Q) : Reaches prog s Q := by
  refine .step hi ?_
  show Reaches prog (if c.holds s.flags then s.jump (target prog l) else s.next) Q
  cases hc : c.holds s.flags with
  | true => exact htaken hc
  | false => exact hnot hc

theorem always {l : L} (hi : prog[s.pc]? = some (.b .al l)) (h : Reaches prog (s.jump (target prog l)) Q) :
    Reaches prog s Q := .branch hi (fun _ => h) fun hc => absurd hc (by simp [Cond.holds])

end Reaches

end

/-! ## Conditions -/

theorem eq_subFlags (a b : Word) : Cond.eq.holds (subFlags a b) = decide (a = b) := by
  show (a - b == 0) = _
  rw [Bool.eq_iff_iff, beq_iff_eq, decide_eq_true_eq]
  exact ⟨fun h => by bv_omega, fun h => by rw [h, BitVec.sub_self]; rfl⟩

theorem ne_subFlags (a b : Word) : Cond.ne.holds (subFlags a b) = decide (a ≠ b) := by
  show (!Cond.eq.holds (subFlags a b)) = _
  rw [eq_subFlags, decide_not]

theorem hi_subFlags (a b : Word) : Cond.hi.holds (subFlags a b) = decide (b < a) := by
  have hsub : (a - b == 0) = decide (a = b) := eq_subFlags a b
  simp only [Cond.holds, subFlags, hsub, BitVec.le_def, BitVec.lt_def, BitVec.toNat_eq]
  rw [Bool.eq_iff_iff]
  simp only [Bool.and_eq_true, decide_eq_true_eq, Bool.not_eq_true', decide_eq_false_iff_not]
  omega

theorem ge_subFlags (a b : Word) : Cond.ge.holds (subFlags a b) = decide (b.toInt ≤ a.toInt) := by
  have hmsb : ∀ x : Word, x.msb = decide (2 ^ 31 ≤ x.toNat) := fun x => BitVec.msb_eq_decide x
  have hsub : (a - b).toNat = (2 ^ 32 - b.toNat + a.toNat) % 2 ^ 32 := BitVec.toNat_sub a b
  have ha := a.isLt
  have hb := b.isLt
  simp only [Cond.holds, subFlags, hmsb, hsub, BitVec.toInt_eq_toNat_cond]
  rw [Bool.eq_iff_iff, beq_iff_eq, decide_eq_true_eq]
  -- the signs of the operands and of the difference
  by_cases h1 : 2 ^ 31 ≤ a.toNat <;> by_cases h2 : 2 ^ 31 ≤ b.toNat <;>
    by_cases h3 : 2 ^ 31 ≤ (2 ^ 32 - b.toNat + a.toNat) % 2 ^ 32 <;>
    simp only [h1, h2, h3, decide_true, decide_false, bne_self_eq_false, Bool.bne_true, Bool.bne_false, Bool.not_false,
      Bool.false_and, Bool.and_false, Bool.and_self, Bool.true_eq_false, Bool.false_eq_true, false_iff, true_iff] <;>
    omega

end Bikaya.Lib.Arm
