import Mathlib.Data.BitVec
import Mathlib.Logic.Function.Basic

/-!
# Bytes and words

A memory of bytes with addresses that wrap around, and its words, little endian.

* `off p x` : how far `x` is behind `p`; the `n` bytes from `p` on are those with `off p x < n`;
* `wordAt`, `setWord` : a word, read and written; words whose addresses differ by a multiple of 4 do not overlap.
-/

namespace Bikaya.Lib.Bytes

abbrev Addr := BitVec 32

/-- The memory. -/
abbrev Mem := Addr → BitVec 8

def off (p x : Addr) : Nat := (x - p).toNat

theorem off_lt (p x : Addr) : off p x < 2 ^ 32 := (x - p).isLt

@[simp] theorem off_self (p : Addr) : off p p = 0 := by simp [off]

theorem add_off (p x : Addr) : p + BitVec.ofNat 32 (off p x) = x := by
  unfold off
  rw [BitVec.ofNat_toNat, BitVec.setWidth_eq, BitVec.add_comm, BitVec.sub_add_cancel]

theorem off_add {k : Nat} (p : Addr) (hk : k < 2 ^ 32) : off p (p + BitVec.ofNat 32 k) = k := by
  unfold off
  bv_omega

theorem add_succ (p : Addr) (k : Nat) : p + BitVec.ofNat 32 k + 1 = p + BitVec.ofNat 32 (k + 1) := by
  rw [BitVec.ofNat_add, BitVec.add_assoc]
  rfl

theorem off_eq_zero {p x : Addr} : off p x = 0 ↔ x = p := by
  unfold off
  constructor <;> intro h <;> bv_omega

/-- The next byte. -/
theorem off_succ {p x : Addr} (h : x ≠ p) : off p x = off (p + 1) x + 1 := by
  unfold off
  bv_omega

theorem off_succ_self (p : Addr) : off (p + 1) p = 2 ^ 32 - 1 := by
  unfold off
  bv_omega

theorem off_add_right {p x : Addr} {k : Nat} (h : off p x + k < 2 ^ 32) : off p (x + BitVec.ofNat 32 k) = off p x + k := by
  unfold off at *
  bv_omega

/-! ## Words -/

def wordAt (mem : Mem) (a : Addr) : BitVec 32 := mem (a + 3) ++ mem (a + 2) ++ mem (a + 1) ++ mem a

def setWord (mem : Mem) (a : Addr) (w : BitVec 32) : Mem := fun x =>
  if off a x < 4 then (w >>> (8 * off a x)).setWidth 8 else mem x

/-- The words depend on their four bytes. -/
theorem wordAt_congr {mem mem' : Mem} {a a' : Addr}
    (h : ∀ k < 4, mem (a + BitVec.ofNat 32 k) = mem' (a' + BitVec.ofNat 32 k)) : wordAt mem a = wordAt mem' a' := by
  have h0 := h 0 (by decide)
  rw [BitVec.add_zero, BitVec.add_zero] at h0
  unfold wordAt
  rw [h0]
  congr 1
  · congr 1
    · congr 1
      · exact h 3 (by decide)
      · exact h 2 (by decide)
    · exact h 1 (by decide)

theorem wordAt_setWord (mem : Mem) (a : Addr) (w : BitVec 32) : wordAt (setWord mem a w) a = w := by
  have hoff : ∀ k < 4, off a (a + BitVec.ofNat 32 k) = k := fun k hk => off_add a (by omega)
  have h0 : off a a = 0 := off_self a
  have h1 : off a (a + 1) = 1 := hoff 1 (by decide)
  have h2 : off a (a + 2) = 2 := hoff 2 (by decide)
  have h3 : off a (a + 3) = 3 := hoff 3 (by decide)
  unfold wordAt setWord
  simp only [h0, h1, h2, h3]
  ext i hi
  grind

theorem wordAt_setWord_of_ne (mem : Mem) {a b : Addr} (w : BitVec 32) (hab : off a b % 4 = 0) (hne : b ≠ a) :
    wordAt (setWord mem a w) b = wordAt mem b := by
  refine wordAt_congr fun k hk => ?_
  have hpos : off a b ≠ 0 := fun h => hne (off_eq_zero.mp h)
  have hlt := off_lt a b
  have hoff : off a (b + BitVec.ofNat 32 k) = off a b + k := off_add_right (by omega)
  exact if_neg (by omega)

theorem setWord_of_off {mem : Mem} {a x : Addr} {w : BitVec 32} (h : 4 ≤ off a x) : setWord mem a w x = mem x :=
  if_neg (Nat.not_lt.mpr h)

end Bikaya.Lib.Bytes
