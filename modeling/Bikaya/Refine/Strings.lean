import Bikaya.Refine.Terminal
/-!
# Numbers and strings

`convert` stays inside its buffer and leaves the numeral there; `tputs` transmits a string up to its NUL.
-/

namespace Bikaya.Refine
open Bikaya.Lib Bikaya.Model Bikaya.Spec

variable {T : Target}

/-! ## Numerals -/

theorem digits_getElem? : ∀ d < 16, digits[d]? = some (digitChar d) := by decide

/-- The digits of a number, from the last one on. -/
theorem numeral_lt {base n : Nat} (h : n < base) : numeral base n = [digitChar n] := by
  unfold numeral
  split
  · simp [*]
  · rename_i hn
    rw [Nat.digits_of_lt base n hn h]
    rfl

theorem numeral_div {base n : Nat} (hbase : 1 < base) (h : n / base ≠ 0) :
    numeral base n = numeral base (n / base) ++ [digitChar (n % base)] := by
  have hn : n ≠ 0 := by
    rintro rfl
    exact h (Nat.zero_div base)
  unfold numeral
  rw [if_neg hn, if_neg h, Nat.digits_eq_cons_digits_div hbase hn, List.map_cons, List.reverse_cons]

/-- Storing a character in front of what has been stored. -/
theorem drop_update (b : Fin 64 → Byte) {i : Nat} (h : i < 64) (c : Byte) :
    (List.ofFn (Function.update b ⟨i, h⟩ c)).drop i = c :: (List.ofFn b).drop (i + 1) := by
  rw [List.drop_eq_getElem_cons (by simpa using h), List.getElem_ofFn, Function.update_self]
  refine congrArg (c :: ·) (List.ext_getElem (by simp) fun j h₁ h₂ => ?_)
  rw [List.getElem_drop, List.getElem_drop, List.getElem_ofFn, List.getElem_ofFn]
  refine Function.update_of_ne (fun he => ?_) _ _
  have : i + 1 + j = i := congrArg Fin.val he
  omega

theorem setBuffer_ret {i : Nat} (h : i < 64) (c : Byte) (t : Terminal) :
    setBuffer i c t = .ret () { t with buffer := Function.update t.buffer ⟨i, h⟩ c } := by
  unfold setBuffer
  rw [dif_pos h]
  rfl

/-- The loop has room for as many digits as the number can have. -/
theorem convertFrom_ret {base : Word} (hbase : 1 < base.toNat) (hdigits : base.toNat ≤ 16) :
    ∀ (ptr : Nat) (num : Word) (t : Terminal), ptr < 64 → 0 < ptr → num.toNat < 2 ^ ptr →
      ∃ ptr' b, convertFrom base ptr num t = .ret ptr' { t with buffer := b } ∧
        (List.ofFn b).drop ptr' = numeral base.toNat num.toNat ++ (List.ofFn t.buffer).drop ptr := by
  intro ptr
  induction ptr with
  | zero => exact fun num t _ h => absurd h (Nat.lt_irrefl 0)
  | succ ptr ih =>
    intro num t hptr _ hnum
    have hmod : (num % base).toNat = num.toNat % base.toNat := BitVec.toNat_umod
    have hdiv : (num / base).toNat = num.toNat / base.toNat := BitVec.toNat_udiv
    have hlt : num.toNat % base.toNat < 16 :=
      Nat.lt_of_lt_of_le (Nat.mod_lt _ (Nat.lt_of_succ_lt hbase)) hdigits
    have hset := setBuffer_ret (Nat.lt_of_succ_lt hptr) (digitChar (num.toNat % base.toNat)) t
    have hdigit : (Exec.orFault .badIndex digits[(num % base).toNat]? : TM Byte) t =
        .ret (digitChar (num.toNat % base.toNat)) t := by
      rw [hmod, digits_getElem? _ hlt]
      rfl
    unfold convertFrom
    rw [bind_ret hdigit, bind_ret hset]
    by_cases hz : num / base = 0
    · have hsmall : num.toNat / base.toNat = 0 := by rw [← hdiv, hz]; rfl
      have hnumlt : num.toNat < base.toNat := (Nat.div_eq_zero_iff_lt (Nat.lt_of_succ_lt hbase)).mp hsmall
      rw [if_neg (not_not.mpr hz)]
      refine ⟨ptr, _, rfl, ?_⟩
      rw [drop_update, numeral_lt hnumlt, Nat.mod_eq_of_lt hnumlt]
      rfl
    · have hbig : num.toNat / base.toNat ≠ 0 := fun h => hz (BitVec.eq_of_toNat_eq (hdiv.trans h))
      have hhalf : num.toNat / base.toNat < 2 ^ ptr := by
        have hle : num.toNat / base.toNat ≤ num.toNat / 2 := Nat.div_le_div_left hbase (by decide)
        omega
      have hpos : 0 < ptr := by
        rcases Nat.eq_zero_or_pos ptr with rfl | h
        · exact absurd (Nat.lt_one_iff.mp hhalf) hbig
        · exact h
      obtain ⟨ptr', b, hret, hdrop⟩ := ih (num / base) { t with buffer := _ } (Nat.lt_of_succ_lt hptr) hpos
        (hdiv ▸ hhalf)
      rw [if_pos hz, hret]
      refine ⟨ptr', b, rfl, ?_⟩
      rw [hdrop, drop_update, hdiv, numeral_div hbase hbig, List.append_assoc]
      rfl

/-- `convert` stays inside its buffer and returns the numeral, with its NUL. -/
theorem convert_ret (num : Word) {base : Word} (hbase : 1 < base.toNat) (hdigits : base.toNat ≤ 16) (t : Terminal) :
    ∃ b, convert num base t = .ret (numeral base.toNat num.toNat ++ [0]) { t with buffer := b } := by
  obtain ⟨ptr, b, hret, hdrop⟩ := convertFrom_ret hbase hdigits 63 num
    { t with buffer := Function.update t.buffer ⟨63, by decide⟩ 0 } (by decide) (by decide)
    (Nat.lt_trans num.isLt (by decide))
  refine ⟨b, ?_⟩
  unfold convert
  have hnul : (List.ofFn (Function.update t.buffer ⟨63, by decide⟩ 0)).drop 63 = [0] := by
    rw [drop_update, List.drop_eq_nil_of_le (by simp)]
  rw [bind_ret (setBuffer_ret (by decide) 0 t), bind_ret hret, ← hnul, ← hdrop]
  rfl

/-- What a numeral consists of. -/
theorem mem_numeral {base n : Nat} (hbase : 1 < base) (hdigits : base ≤ 16) : 
    ∀ c ∈ numeral base n, ∃ d < 16, c = digitChar d := by
  intro c hc
  unfold numeral at hc
  split at hc
  · exact ⟨0, by decide, List.mem_singleton.mp hc⟩
  · rw [List.mem_reverse, List.mem_map] at hc
    obtain ⟨d, hd, rfl⟩ := hc
    exact ⟨d, Nat.lt_of_lt_of_le (Nat.digits_lt_base hbase hd) hdigits, rfl⟩

/-! ## Strings -/

theorem tputs_shows : ∀ (str : List Byte) {t : Terminal}, 0 ∈ str → Accepts t →
    ∃ t', Shows (fun n => tputs T n str) t () (str.takeWhile (· ≠ 0)) t' := by
  intro str
  induction str with
  | nil => exact fun h => absurd h List.not_mem_nil
  | cons c str ih =>
    intro t hnul hacc
    unfold tputs
    by_cases hc : c = 0
    · subst hc
      refine ⟨t, Filter.Eventually.of_forall fun n => rfl, hacc, ?_⟩
      simp
    · simp only [if_neg hc]
      obtain ⟨t', hshow⟩ := tputchar_shows hacc (charInt T c)
      obtain ⟨t'', hrest⟩ := ih ((List.mem_cons.mp hnul).resolve_left (Ne.symm hc)) hshow.accepts
      refine ⟨t'', ?_⟩
      rw [ofInt_charInt] at hshow
      rw [List.takeWhile_cons_of_pos (by simpa using hc)]
      refine hshow.bind ?_
      simpa only [ne_eq, not_true_eq_false, if_false] using hrest

theorem takeWhile_numeral {base n : Nat} (hbase : 1 < base) (hdigits : base ≤ 16) :
    (numeral base n ++ [0]).takeWhile (· ≠ 0) = numeral base n := by
  have hdigit : ∀ d < 16, digitChar d ≠ 0 := by decide
  have hall : ∀ c ∈ numeral base n, decide (c ≠ 0) = true := fun c hc => by
    obtain ⟨d, hd, rfl⟩ := mem_numeral hbase hdigits c hc
    exact decide_eq_true (hdigit d hd)
  rw [List.takeWhile_append_of_pos hall]
  simp

/-- A number is converted and transmitted. -/
theorem numeral_shows {α : Type} (num : Word) {base : Word} (hbase : 1 < base.toNat) (hdigits : base.toNat ≤ 16)
    (a : α) {t : Terminal} (hacc : Accepts t) :
    ∃ t', Shows (fun n => convert num base >>= fun s => tputs T n s >>= fun _ => pure a) t a
      (numeral base.toNat num.toNat) t' := by
  obtain ⟨b, hret⟩ := convert_ret num hbase hdigits t
  have hacc' : Accepts { t with buffer := b } := ⟨hacc.idle, hacc.shown⟩
  obtain ⟨t', hshow⟩ := tputs_shows (T := T) (numeral base.toNat num.toNat ++ [0]) (by simp) hacc'
  have hconvert : Shows (fun _ => convert num base) t (numeral base.toNat num.toNat ++ [0]) [] { t with buffer := b } :=
    ⟨Filter.Eventually.of_forall fun _ => hret, hacc', (List.append_nil _).symm⟩
  rw [takeWhile_numeral hbase hdigits] at hshow
  exact ⟨t', hconvert.bind (hshow.result a)⟩

end Bikaya.Refine
