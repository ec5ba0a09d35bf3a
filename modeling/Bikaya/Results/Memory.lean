import Bikaya.Model.Memory

/-!
# The copies of the kernel

`memcpyLoop_apply` : byte `k` of the destination comes from byte `k % δ` of the source, where `δ` is the distance from
the source up to the destination. So the copy is exact when the destination does not start inside the source
(`memcpy_exact_iff`), and the copy of a `state_t` is the assignment of the processor state (`memcpy_storeState`).
`main` leaves in every new area the state in which its handler is to run (`newAreas_loaded`).
-/

namespace Bikaya.Results
open Bikaya.Lib.Bytes Bikaya.Model

variable {mem : Mem} {x d s : Word} {n : Nat}

theorem memsetLoop_apply (c : BitVec 8) : ∀ (n : Nat) (p : Word) (mem : Mem), n < 2 ^ 32 →
    memsetLoop c n p mem x = if off p x < n then c else mem x := by
  intro n
  induction n with
  | zero => exact fun _ _ _ => rfl
  | succ n ih =>
    intro p mem hn
    rw [memsetLoop, ih (p + 1) _ (by omega)]
    by_cases hx : x = p
    · subst hx
      rw [off_succ_self, off_self, Function.update_self, if_neg (by omega), if_pos (by omega)]
    · have hoff := off_succ hx
      rw [hoff, Function.update_of_ne hx]
      simp only [Nat.add_lt_add_iff_right]

/-- Byte `k` of the source; `off s d` bytes on, it is byte `k` of the destination. -/
theorem src_off (h : off s d ≤ n) (hn : n < 2 ^ 32) : off d (s + BitVec.ofNat 32 n) = n - off s d := by
  unfold off at *
  bv_omega

theorem src_off_lt (h : n < off s d) : off d (s + BitVec.ofNat 32 n) = 2 ^ 32 - off s d + n := by
  unfold off at *
  bv_omega

/-- The loop has `k` bytes behind it; each was read before or after the loop wrote over it. -/
theorem memcpyLoop_from : ∀ (n k : Nat) (mem mem₀ : Mem), k + n < 2 ^ 32 →
    (∀ x, mem x = if off d x < k then mem₀ (s + BitVec.ofNat 32 (off d x % off s d)) else mem₀ x) →
    memcpyLoop n (d + BitVec.ofNat 32 k) (s + BitVec.ofNat 32 k) mem x =
      if off d x < k + n then mem₀ (s + BitVec.ofNat 32 (off d x % off s d)) else mem₀ x := by
  intro n
  induction n with
  | zero => exact fun k mem mem₀ _ h => h x
  | succ n ih =>
    intro k mem mem₀ hk h
    have hread : mem (s + BitVec.ofNat 32 k) = mem₀ (s + BitVec.ofNat 32 (k % off s d)) := by
      rw [h]
      rcases Nat.lt_or_ge k (off s d) with hlt | hge
      · rw [src_off_lt hlt, if_neg (by omega), Nat.mod_eq_of_lt hlt]
      · rw [src_off hge (by omega), ← Nat.mod_eq_sub_mod hge]
        rcases Nat.eq_zero_or_pos (off s d) with hzero | hpos
        · rw [hzero, Nat.mod_zero, ite_self]
        · rw [if_pos (by omega)]
    rw [memcpyLoop, add_succ, add_succ, ih (k + 1) _ mem₀ (by omega) fun y => ?_, Nat.add_right_comm, Nat.add_assoc]
    by_cases hy : off d y = k
    · have hy' : y = d + BitVec.ofNat 32 k := by rw [← hy, add_off]
      rw [hy, if_pos (by omega), ← hread, hy', Function.update_self]
    · have hne : y ≠ d + BitVec.ofNat 32 k := by
        rintro rfl
        exact hy (off_add d (by omega))
      have hiff : off d y < k + 1 ↔ off d y < k := by omega
      rw [Function.update_of_ne hne, h]
      simp only [hiff]

theorem memcpyLoop_apply (hn : n < 2 ^ 32) : memcpyLoop n d s mem x =
    if off d x < n then mem (s + BitVec.ofNat 32 (off d x % off s d)) else mem x := by
  have h := memcpyLoop_from (d := d) (s := s) (x := x) n 0 mem mem (by omega) fun y => (if_neg (Nat.not_lt_zero _)).symm
  rw [BitVec.add_zero, BitVec.add_zero, Nat.zero_add] at h
  exact h

/-- Byte for byte. The copy is exact, whatever the memory holds, if and only if the destination does not start inside
the source; otherwise the bytes in front of it are repeated. -/
theorem memcpy_exact_iff (dest src len : Word) :
    (∀ mem x, (memcpy dest src len mem).2 x =
      if off dest x < len.toNat then mem (src + BitVec.ofNat 32 (off dest x % off src dest)) else mem x) ∧
    ((∀ mem, ∀ k < len.toNat, (memcpy dest src len mem).2 (dest + BitVec.ofNat 32 k) = mem (src + BitVec.ofNat 32 k)) ↔
      dest = src ∨ len.toNat ≤ off src dest) := by
  have hall : ∀ mem x, (memcpy dest src len mem).2 x =
      if off dest x < len.toNat then mem (src + BitVec.ofNat 32 (off dest x % off src dest)) else mem x :=
    fun mem x => memcpyLoop_apply len.isLt
  refine ⟨hall, fun h => ?_, fun h mem k hk => ?_⟩
  · by_contra hno
    obtain ⟨hne, hlt⟩ := not_or.mp hno
    -- the byte at the start of the destination, read after it was written
    have hread := h (fun x => if x = src then 1 else 0) (off src dest) (by omega)
    rw [hall, off_add dest (off_lt src dest), if_pos (by omega), Nat.mod_self, BitVec.add_zero, if_pos rfl, add_off,
      if_neg hne] at hread
    exact absurd hread (by decide)
  · have hk' : k < 2 ^ 32 := hk.trans len.isLt
    rw [hall, off_add dest hk', if_pos hk]
    rcases h with rfl | h
    · rw [off_self, Nat.mod_zero]
    · rw [Nat.mod_eq_of_lt (by omega)]

/-! ## Processor states -/

variable {T : Target}

theorem stateSize_toNat (T : Target) : T.stateSize.toNat = 4 * T.stateWords := by cases T <;> rfl

theorem stateWords_le (T : Target) : T.stateWords ≤ 35 := by cases T <;> decide

theorem off_field (area : Word) (i : Fin T.stateWords) {k : Nat} (hk : k < 4) :
    off area (fieldAddr area i + BitVec.ofNat 32 k) = 4 * i + k := by
  have hi := i.isLt
  have hT := stateWords_le T
  unfold fieldAddr
  rw [BitVec.add_assoc, ← BitVec.ofNat_add]
  exact off_add area (by omega)

theorem off_fieldAddr (area : Word) (i : Fin T.stateWords) : off area (fieldAddr area i) = 4 * i := by
  have h0 := off_field area i (k := 0) (by omega)
  rwa [BitVec.add_zero] at h0

/-- The words of a state are bytes of its area. -/
theorem stateAt_congr {mem mem' : Mem} {area : Word} (h : ∀ x, off area x < 4 * T.stateWords → mem x = mem' x) :
    (KM.stateAt (wordAt mem) area : CpuState T) = KM.stateAt (wordAt mem') area := by
  funext i
  refine wordAt_congr fun k hk => h _ ?_
  have hoff := off_field area i hk
  unfold fieldAddr at hoff
  have hi := i.isLt
  omega

/-- The bytes behind the copy of a `state_t`. -/
theorem memcpy_state_apply (T : Target) {dest src : Word} (hd : dest = src ∨ 4 * T.stateWords ≤ off src dest)
    (mem : Mem) (x : Word) : (memcpy dest src T.stateSize mem).2 x =
      if off dest x < 4 * T.stateWords then mem (src + BitVec.ofNat 32 (off dest x)) else mem x := by
  have hcopy : memcpyLoop T.stateSize.toNat dest src mem x = _ := memcpyLoop_apply T.stateSize.isLt
  rw [stateSize_toNat] at hcopy
  refine Eq.trans (congrFun (congrArg (fun n => memcpyLoop n dest src mem) (stateSize_toNat T)) x) (hcopy.trans ?_)
  rcases hd with rfl | hd
  · rw [off_self, Nat.mod_zero]
  · by_cases hlt : off dest x < 4 * T.stateWords
    · rw [Nat.mod_eq_of_lt (by omega)]
    · rw [if_neg hlt, if_neg hlt]

/-- Its words: all four bytes of a word are in the destination, or none is. -/
theorem wordAt_memcpy_state (T : Target) {dest src x : Word} (hd : dest = src ∨ 4 * T.stateWords ≤ off src dest)
    (mem : Mem) (hx : off dest x % 4 = 0) : wordAt (memcpy dest src T.stateSize mem).2 x =
      if off dest x < 4 * T.stateWords then wordAt mem (src + BitVec.ofNat 32 (off dest x)) else wordAt mem x := by
  have hlast := off_lt dest x
  by_cases hlt : off dest x < 4 * T.stateWords
  · rw [if_pos hlt]
    refine wordAt_congr fun k hk => ?_
    rw [memcpy_state_apply T hd, off_add_right (by omega), if_pos (by omega), BitVec.ofNat_add, BitVec.add_assoc]
  · rw [if_neg hlt]
    refine wordAt_congr fun k hk => ?_
    rw [memcpy_state_apply T hd, off_add_right (by omega), if_neg (by omega)]

/-- `memcpy` of a `state_t` is the assignment of the state, for source and destination that are the same or where the
destination does not start inside the source. -/
theorem memcpy_storeState (T : Target) (mem : Mem) {dest src : Word}
    (hd : dest = src ∨ 4 * T.stateWords ≤ off src dest) :
    (KM.stateAt (wordAt (memcpy dest src T.stateSize mem).2) dest : CpuState T) = KM.stateAt (wordAt mem) src ∧
    ∀ x, off dest x % 4 = 0 → wordAt (memcpy dest src T.stateSize mem).2 x =
      KM.storeState (wordAt mem) dest (KM.stateAt (wordAt mem) src : CpuState T) x := by
  refine ⟨funext fun i => ?_, fun x hx => ?_⟩
  · have hoff := off_fieldAddr dest i
    have hi := i.isLt
    have h := wordAt_memcpy_state T (x := fieldAddr dest i) hd mem (by omega)
    rwa [hoff, if_pos (by omega)] at h
  · rw [wordAt_memcpy_state T hd mem hx]
    unfold KM.storeState
    have hiff : off dest x < 4 * T.stateWords ↔ (x - dest).toNat % 4 = 0 ∧ (x - dest).toNat / 4 < T.stateWords := by
      unfold off at *
      omega
    dsimp only
    by_cases hlt : off dest x < 4 * T.stateWords
    · rw [if_pos hlt, dif_pos (hiff.mp hlt)]
      have hmul : 4 * ((x - dest).toNat / 4) = off dest x := by
        unfold off at *
        omega
      exact congrArg (fun m => wordAt mem (src + BitVec.ofNat 32 m)) hmul.symm
    · rw [if_neg hlt, dif_neg fun h => hlt (hiff.mpr h)]

/-- An interrupt's old area is saved in a `pcb_t`. -/
theorem memcpy_storeState_saved :
    (KM.stateAt (wordAt (memcpy 0x20001000 0x20000000 Target.umps.stateSize fun a => a.setWidth 8).2) 0x20001000 :
      CpuState .umps) = KM.stateAt (wordAt fun a => a.setWidth 8) 0x20000000 :=
  (memcpy_storeState .umps (fun a => a.setWidth 8) (.inr (by decide))).1

/-! ## The new areas -/

/-- The state in which a handler is to run: in kernel mode, without interrupts and virtual memory. -/
def handlerState (T : Target) (ramTop handler : Word) : CpuState T := fun i =>
  if i = T.pc then handler
  else if i = T.sp then ramTop
  else if i = T.status then T.allIntDisable (T.kernelMode 0)
  else 0

theorem setField_outside {area : Word} (i : Fin T.stateWords) (f : Word → Word) (hx : 4 * T.stateWords ≤ off area x) :
    setField area i f mem x = mem x := by
  refine setWord_of_off ?_
  have hi := i.isLt
  by_contra hlt
  have h4 : off (fieldAddr area i) x < 4 := by omega
  have hoff := off_field area i h4
  rw [add_off] at hoff
  omega

theorem stateAt_setField (area : Word) (i : Fin T.stateWords) (f : Word → Word) (mem : Mem) :
    (KM.stateAt (wordAt (setField area i f mem)) area : CpuState T) =
      Function.update (KM.stateAt (wordAt mem) area) i (f (KM.stateAt (wordAt mem) area i)) := by
  funext j
  by_cases hj : j = i
  · subst hj
    rw [Function.update_self]
    exact wordAt_setWord mem _ _
  · rw [Function.update_of_ne hj]
    refine wordAt_setWord_of_ne mem _ ?_ ?_
    · have hi := i.isLt
      have hj := j.isLt
      have hT := stateWords_le T
      unfold off fieldAddr
      bv_omega
    · intro he
      have h4 : 4 * (j : Nat) = 4 * i :=
        (off_fieldAddr area j).symm.trans ((congrArg (off area) he).trans (off_fieldAddr area i))
      exact hj (Fin.ext (by omega))

theorem initNewArea_outside (ramTop handler : Word) {area : Word} (hx : 4 * T.stateWords ≤ off area x) :
    initNewArea T ramTop area handler mem x = mem x := by
  unfold initNewArea
  rw [setField_outside _ _ hx, setField_outside _ _ hx, setField_outside _ _ hx, setField_outside _ _ hx,
    setField_outside _ _ hx]
  refine (memsetLoop_apply _ _ _ _ T.stateSize.isLt).trans (if_neg ?_)
  rw [stateSize_toNat]
  omega

theorem wordAt_zero (a : Word) : wordAt (fun _ => 0) a = 0 := by
  show (0#8 ++ 0#8 ++ 0#8 ++ 0#8 : BitVec 32) = 0
  decide

theorem stateAt_memset (area : Word) (mem : Mem) :
    (KM.stateAt (wordAt (memset area 0 T.stateSize mem).2) area : CpuState T) = fun _ => 0 := by
  have hzero : (KM.stateAt (wordAt (memset area 0 T.stateSize mem).2) area : CpuState T) =
      KM.stateAt (wordAt fun _ => 0) area := by
    refine stateAt_congr fun x hx => ?_
    refine (memsetLoop_apply _ _ _ _ T.stateSize.isLt).trans (if_pos ?_)
    rw [stateSize_toNat]
    exact hx
  rw [hzero]
  funext i
  exact wordAt_zero _

theorem stateAt_initNewArea (ramTop area handler : Word) (mem : Mem) :
    KM.stateAt (wordAt (initNewArea T ramTop area handler mem)) area = handlerState T ramTop handler := by
  unfold initNewArea
  dsimp only
  simp only [stateAt_setField, stateAt_memset]
  funext i
  have hpc : T.status ≠ T.pc := by cases T <;> decide
  have hsp : T.status ≠ T.sp := by cases T <;> decide
  have hvp : T.vm ≠ T.pc := by cases T <;> decide
  have hvs : T.vm ≠ T.sp := by cases T <;> decide
  have hps : T.sp ≠ T.pc := by cases T <;> decide
  have hoff : T.allIntDisable (T.kernelMode 0) &&& T.vmOff = T.allIntDisable (T.kernelMode 0) ∨ T.vm ≠ T.status := by
    cases T
    · exact .inl (by decide)
    · exact .inr (by decide)
  have hzero : (0 : Word) &&& T.vmOff = 0 := BitVec.zero_and
  unfold handlerState
  simp only [Function.update_apply, hpc, hsp, hvp, hvs, if_true, if_false]
  grind

/-- The areas are disjoint. -/
theorem newArea_disjoint {a b : OldArea} (hab : a ≠ b) (hx : off (T.newArea a) x < 4 * T.stateWords) :
    4 * T.stateWords ≤ off (T.newArea b) x := by
  have hareas : ∀ T : Target, ∀ a b : OldArea, a ≠ b →
      4 * T.stateWords ≤ off (T.newArea b) (T.newArea a) ∧
        off (T.newArea b) (T.newArea a) + 4 * T.stateWords ≤ 2 ^ 32 := by
    intro T a b
    cases T <;> cases a <;> cases b <;> decide
  obtain ⟨hlo, hhi⟩ := hareas T a b hab
  unfold off at *
  bv_omega

/-- When `main` has filled the new areas, whatever the memory held, the state of each area is the one in which its
handler is to run, and the rest of the memory is as it was. -/
theorem newAreas_loaded (T : Target) (ramTop : Word) (handlers : OldArea → Word) (mem : Mem) :
    (∀ a, KM.stateAt (wordAt (initNewAreas T ramTop handlers mem)) (T.newArea a) =
      handlerState T ramTop (handlers a)) ∧
    ∀ x, (∀ a, 4 * T.stateWords ≤ off (T.newArea a) x) → initNewAreas T ramTop handlers mem x = mem x := by
  have hkeep : ∀ {a b : OldArea} (mem : Mem), a ≠ b →
      (KM.stateAt (wordAt (initNewArea T ramTop (T.newArea b) (handlers b) mem)) (T.newArea a) : CpuState T) =
        KM.stateAt (wordAt mem) (T.newArea a) :=
    fun mem hab => stateAt_congr fun x hx => initNewArea_outside _ _ (newArea_disjoint hab hx)
  refine ⟨fun a => ?_, fun x hx => ?_⟩
  · unfold initNewAreas
    cases a with
    | int =>
      rw [hkeep _ (by decide), hkeep _ (by decide), hkeep _ (by decide)]
      exact stateAt_initNewArea _ _ _ _
    | tlb =>
      rw [hkeep _ (by decide), hkeep _ (by decide)]
      exact stateAt_initNewArea _ _ _ _
    | pgmtrap =>
      rw [hkeep _ (by decide)]
      exact stateAt_initNewArea _ _ _ _
    | sysbk => exact stateAt_initNewArea _ _ _ _
  · unfold initNewAreas
    rw [initNewArea_outside _ _ (hx .sysbk), initNewArea_outside _ _ (hx .pgmtrap), initNewArea_outside _ _ (hx .tlb),
      initNewArea_outside _ _ (hx .int)]

end Bikaya.Results
