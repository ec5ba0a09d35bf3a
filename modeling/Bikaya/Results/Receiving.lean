import Bikaya.Refine.Terminal

/-!
# `tgets` and the characters that were not received

A failed `tgetchar` returns -1, and `tgets` stores it as a character. It delivers what was received exactly when
none of the attempts that it makes fails (`tgets_delivers_iff`); then successive calls deliver a whole line.
-/

namespace Bikaya.Results
open Bikaya.Lib Bikaya.Model Bikaya.Spec Bikaya.Refine

variable {T : Target}

/-- What a failed attempt leaves in the buffer. -/
def junk : Byte := 0xFF

/-- What `tgets` stores in at most `k` rounds. -/
def stored (script : Nat → Response) : Nat → Nat → List Byte
  | 0, _ => []
  | k + 1, pos =>
    let c := (char? (script pos)).getD junk
    if c = newline then [c] else c :: stored script k (pos + 1)

/-- The characters and the NUL, from an index of the buffer on. -/
def written (buf : Word) : Nat → List Byte → (Word → Byte) → Word → Byte
  | i, [], mem => Function.update mem (buf + BitVec.ofNat 32 i) 0
  | i, c :: cs, mem => written buf (i + 1) cs (Function.update mem (buf + BitVec.ofNat 32 i) c)

/-! ## The run -/

section
variable {script : Nat → Response}

theorem getD_ne_newline {r : Response} (h : char? r ≠ some newline) : (char? r).getD junk ≠ newline := by
  cases hc : char? r with
  | none => decide
  | some c =>
    rintro rfl
    exact h hc

theorem stored_newline {k pos : Nat} (h : char? (script pos) = some newline) :
    stored script (k + 1) pos = [newline] := by
  simp [stored, h]

theorem stored_other {k pos : Nat} (h : char? (script pos) ≠ some newline) :
    stored script (k + 1) pos = (char? (script pos)).getD junk :: stored script k (pos + 1) := by
  simp only [stored, if_neg (getD_ne_newline h)]

theorem getLast?_stored_other {k pos : Nat} (h : char? (script pos) ≠ some newline) :
    (stored script (k + 1) pos).getLast? = some newline ↔ (stored script k (pos + 1)).getLast? = some newline := by
  rw [stored_other h]
  cases stored script k (pos + 1) with
  | cons c cs => rw [List.getLast?_cons_cons]
  | nil => simp [getD_ne_newline h]

/-- `k` rounds of `tgets` from index `i` on. -/
theorem tgetsFrom_run (buf : Word) {n : Nat} : ∀ (k i pos : Nat) (t : Terminal),
    (∀ j < k, busyFor (script (pos + j)) < n) →
    tgetsFrom T n buf k i (receiving t script pos) =
      .ret (if (stored script k pos).getLast? = some newline then none else some buf)
        (receiving { t with mem := written buf i (stored script k pos) t.mem } script
          (pos + (stored script k pos).length)) := by
  intro k
  induction k with
  | zero => exact fun i pos t _ => rfl
  | succ k ih =>
    intro i pos t hbusy
    have hget := tgetchar_ret (T := T) t script (hbusy 0 (Nat.succ_pos k))
    rw [Nat.add_zero] at hget
    have hchar : BitVec.ofInt 8 ((char? (script pos)).elim (-1) (charInt T)) = (char? (script pos)).getD junk := by
      cases char? (script pos) with
      | none => rfl
      | some c => exact ofInt_charInt c
    have hstore : ∀ c, storeByte (buf + BitVec.ofNat 32 i) c (receiving t script (pos + 1)) = .ret ()
        (receiving { t with mem := Function.update t.mem (buf + BitVec.ofNat 32 i) c } script (pos + 1)) := fun _ => rfl
    unfold tgetsFrom
    rw [bind_ret hget, hchar, bind_ret (hstore _)]
    by_cases hc : char? (script pos) = some newline
    · rw [stored_newline hc, hc, Option.getD_some, if_pos rfl]
      rfl
    · rw [if_neg (getD_ne_newline hc), ih (i + 1) (pos + 1) _ fun j hj => by
        rw [Nat.add_assoc, Nat.add_comm 1]
        exact hbusy (j + 1) (Nat.succ_lt_succ hj)]
      simp only [getLast?_stored_other hc]
      rw [stored_other hc, List.length_cons, Nat.add_assoc, Nat.add_comm 1]
      rfl

/-! ## What is stored -/

theorem length_stored_le : ∀ (k pos : Nat), (stored script k pos).length ≤ k := by
  intro k
  induction k with
  | zero => exact fun _ => Nat.le_refl 0
  | succ k ih =>
    intro pos
    by_cases hc : char? (script pos) = some newline
    · rw [stored_newline hc]
      exact Nat.succ_le_succ (Nat.zero_le k)
    · rw [stored_other hc]
      exact Nat.succ_le_succ (ih (pos + 1))

theorem stored_getElem : ∀ (k pos j : Nat) (h : j < (stored script k pos).length),
    (stored script k pos)[j] = (char? (script (pos + j))).getD junk := by
  intro k
  induction k with
  | zero => exact fun pos j h => absurd h (Nat.not_lt_zero j)
  | succ k ih =>
    intro pos j h
    by_cases hc : char? (script pos) = some newline
    · simp only [stored_newline hc, List.length_singleton, Nat.lt_one_iff] at h
      subst h
      simp [stored_newline hc, hc]
    · simp only [stored_other hc, List.length_cons] at h ⊢
      cases j with
      | zero => rfl
      | succ j =>
        rw [List.getElem_cons_succ, ih (pos + 1) j (Nat.lt_of_succ_lt_succ h), Nat.add_assoc, Nat.add_comm 1]

/-- A newline ends it. -/
theorem newline_not_mem_dropLast : ∀ k pos : Nat, newline ∉ (stored script k pos).dropLast := by
  intro k
  induction k with
  | zero => exact fun pos => List.not_mem_nil
  | succ k ih =>
    intro pos
    by_cases hc : char? (script pos) = some newline
    · rw [stored_newline hc]
      exact List.not_mem_nil
    · rw [stored_other hc]
      cases hs : stored script k (pos + 1) with
      | nil => exact List.not_mem_nil
      | cons c cs =>
        rw [List.dropLast_cons_cons, List.mem_cons, not_or, ← hs]
        exact ⟨Ne.symm (getD_ne_newline hc), ih (pos + 1)⟩

theorem stored_stop : ∀ k pos : Nat,
    (stored script k pos).getLast? = some newline ∨ (stored script k pos).length = k := by
  intro k
  induction k with
  | zero => exact fun pos => Or.inr rfl
  | succ k ih =>
    intro pos
    by_cases hc : char? (script pos) = some newline
    · rw [stored_newline hc]
      exact Or.inl rfl
    · rw [getLast?_stored_other hc, stored_other hc]
      exact (ih (pos + 1)).imp_right (congrArg Nat.succ)

end

/-! ## Where it is stored -/

/-- Indices of a buffer are different addresses. -/
theorem address_ne (buf : Word) {i j : Nat} (hi : i < 2 ^ 32) (hj : j < 2 ^ 32) (hne : i ≠ j) :
    buf + BitVec.ofNat 32 i ≠ buf + BitVec.ofNat 32 j := by
  intro he
  have := congrArg BitVec.toNat ((BitVec.add_right_inj buf).mp he)
  rw [BitVec.toNat_ofNat, BitVec.toNat_ofNat, Nat.mod_eq_of_lt hi, Nat.mod_eq_of_lt hj] at this
  exact hne this

section
variable (buf : Word)

theorem written_outside {a : Word} : ∀ (cs : List Byte) (i : Nat) (mem : Word → Byte),
    (∀ j ≤ cs.length, a ≠ buf + BitVec.ofNat 32 (i + j)) → written buf i cs mem a = mem a := by
  intro cs
  induction cs with
  | nil => exact fun i mem h => Function.update_of_ne (h 0 (Nat.le_refl 0)) _ _
  | cons c cs ih =>
    intro i mem h
    have hrest := ih (i + 1) (Function.update mem (buf + BitVec.ofNat 32 i) c) fun j hj => by
      rw [Nat.add_assoc, Nat.add_comm 1]
      exact h (j + 1) (Nat.succ_le_succ hj)
    rw [written, hrest]
    exact Function.update_of_ne (h 0 (Nat.zero_le _)) _ _

theorem written_getElem : ∀ (cs : List Byte) (i : Nat) (mem : Word → Byte) (j : Nat) (h : j < cs.length),
    i + cs.length < 2 ^ 32 → written buf i cs mem (buf + BitVec.ofNat 32 (i + j)) = cs[j] := by
  intro cs
  induction cs with
  | nil => exact fun i mem j h => absurd h (Nat.not_lt_zero j)
  | cons c cs ih =>
    intro i mem j h hlt
    rw [List.length_cons] at h hlt
    cases j with
    | zero =>
      rw [written, written_outside buf cs (i + 1) _ fun j hj => address_ne buf (by omega) (by omega) (by omega)]
      exact Function.update_self _ _ _
    | succ j =>
      rw [written, List.getElem_cons_succ, ← Nat.add_assoc, Nat.add_right_comm]
      exact ih (i + 1) _ j (by omega) (by omega)

theorem written_nul : ∀ (cs : List Byte) (i : Nat) (mem : Word → Byte),
    written buf i cs mem (buf + BitVec.ofNat 32 (i + cs.length)) = 0 := by
  intro cs
  induction cs with
  | nil => exact fun i mem => Function.update_self _ _ _
  | cons c cs ih =>
    intro i mem
    rw [written, List.length_cons, Nat.add_comm cs.length, ← Nat.add_assoc]
    exact ih (i + 1) _

theorem written_holds {cs : List Byte} (mem : Word → Byte) (t : Terminal) (hlt : cs.length < 2 ^ 32) :
    Holds { t with mem := written buf 0 cs mem } buf cs := by
  refine ⟨fun i h => ?_, ?_⟩
  · have := written_getElem buf cs 0 mem i h (by omega)
    rwa [Nat.zero_add] at this
  · have := written_nul buf cs 0 mem
    rwa [Nat.zero_add] at this

end

/-! ## One call -/

section
variable {script : Nat → Response} {pos : Nat}

/-- Enough rounds of polling. -/
theorem eventually_busyFor (script : Nat → Response) (pos k : Nat) :
    ∀ᶠ n in Filter.atTop, ∀ j ∈ Finset.range k, busyFor (script (pos + j)) < n :=
  (Filter.eventually_all_finset _).mpr fun _ _ => Filter.eventually_gt_atTop _

theorem tgets_run (t : Terminal) (script : Nat → Response) (pos : Nat) (buf : Word) (size : Int) :
    ∀ᶠ n in Filter.atTop, tgets T n buf size (receiving t script pos) =
      .ret (if (stored script (size - 1).toNat pos).getLast? = some newline then none else some buf)
        (receiving { t with mem := written buf 0 (stored script (size - 1).toNat pos) t.mem } script
          (pos + (stored script (size - 1).toNat pos).length)) := by
  filter_upwards [eventually_busyFor script pos (size - 1).toNat] with n hn
  exact tgetsFrom_run buf _ 0 pos t fun j hj => hn j (Finset.mem_range.mpr hj)

/-- As many characters are received as attempts are made exactly when none fails. -/
theorem length_received (script : Nat → Response) (pos k : Nat) :
    (received script pos (pos + k)).length = k ↔ ∀ j < k, char? (script (pos + j)) ≠ none := by
  unfold received
  rw [Nat.add_sub_cancel_left]
  have hall := List.filterMap_length_eq_length (f := fun i => char? (script i)) (l := List.range' pos k)
  rw [List.length_range'] at hall
  rw [hall]
  constructor
  · intro h j hj
    have := h (pos + j) (List.mem_range'_1.mpr ⟨Nat.le_add_right _ _, Nat.add_lt_add_left hj _⟩)
    exact Option.isSome_iff_ne_none.mp this
  · intro h i hi
    obtain ⟨hle, hlt⟩ := List.mem_range'_1.mp hi
    obtain ⟨j, rfl⟩ := Nat.exists_eq_add_of_le hle
    exact Option.isSome_iff_ne_none.mpr (h j (Nat.lt_of_add_lt_add_left hlt))

theorem spells_tail {c : Byte} {line : List Byte} (h : Spells script pos (c :: line)) :
    Spells script (pos + 1) line := by
  intro i hi
  rw [Nat.add_assoc, Nat.add_comm 1]
  exact h (i + 1) (Nat.succ_lt_succ hi)

theorem received_spells : ∀ {line : List Byte} {pos : Nat}, Spells script pos line →
    received script pos (pos + line.length) = line := by
  intro line
  induction line with
  | nil =>
    intro pos _
    unfold received
    rw [List.length_nil, Nat.add_zero, Nat.sub_self]
    rfl
  | cons c line ih =>
    intro pos h
    have hc : char? (script pos) = some c := h 0 (Nat.succ_pos _)
    have hrest := ih (spells_tail h)
    unfold received at hrest ⊢
    rw [Nat.add_sub_cancel_left] at hrest ⊢
    rw [List.length_cons, List.range'_succ, List.filterMap_cons, hc]
    exact congrArg (c :: ·) hrest

/-- When no attempt fails, what is stored is what was received. -/
theorem stored_spells {k : Nat} (h : ∀ j < (stored script k pos).length, char? (script (pos + j)) ≠ none) :
    Spells script pos (stored script k pos) := by
  intro i hi
  obtain ⟨c, hc⟩ := Option.ne_none_iff_exists'.mp (h i hi)
  rw [stored_getElem k pos i hi, hc]
  rfl

theorem getElem_mem_dropLast {xs : List Byte} {i : Nat} (h : i + 1 < xs.length) : xs[i] ∈ xs.dropLast := by
  have hi : i < xs.dropLast.length := by
    rw [List.length_dropLast]
    omega
  rw [← List.getElem_dropLast hi]
  exact List.getElem_mem hi

/-- The last element, by its index. -/
theorem exists_last {xs : List Byte} {c : Byte} (h : xs.getLast? = some c) :
    ∃ i, ∃ h : i < xs.length, i + 1 = xs.length ∧ xs[i] = c := by
  obtain ⟨ys, rfl⟩ := List.getLast?_eq_some_iff.mp h
  exact ⟨ys.length, by simp, by simp, by simp⟩

theorem length_received_le (script : Nat → Response) (pos k : Nat) : (received script pos (pos + k)).length ≤ k := by
  unfold received
  rw [Nat.add_sub_cancel_left]
  exact (List.length_filterMap_le _ _).trans_eq List.length_range'

/-- The attempts up to the first newline are those that are made. -/
theorem clean_iff {k : Nat} :
    Clean script pos k ↔ ∀ j < (stored script k pos).length, char? (script (pos + j)) ≠ none := by
  have hnot : newline ∉ (stored script k pos).dropLast := newline_not_mem_dropLast k pos
  constructor
  · intro h j hj
    refine h j (Nat.lt_of_lt_of_le hj (length_stored_le k pos)) fun i hij hn => hnot ?_
    have hm := getElem_mem_dropLast (Nat.lt_of_le_of_lt hij hj)
    rwa [stored_getElem, hn] at hm
  · intro h j hj hbefore
    refine h j ?_
    by_contra hge
    have hshort : (stored script k pos).length ≠ k := fun he => hge (by rwa [he])
    obtain ⟨i, hlt', hi, he⟩ := exists_last ((stored_stop k pos).resolve_right hshort)
    rw [stored_getElem k pos i (by omega)] at he
    exact getD_ne_newline (hbefore i (by omega)) he

theorem clean_add {a b : Nat} :
    Clean script pos (a + b) ↔
      Clean script pos a ∧ ((∀ j < a, char? (script (pos + j)) ≠ some newline) → Clean script (pos + a) b) := by
  constructor
  · intro h
    refine ⟨fun j hj => h j (Nat.lt_add_right b hj), fun hnone j hj hbefore => ?_⟩
    rw [Nat.add_assoc]
    refine h (a + j) (Nat.add_lt_add_left hj a) fun i hi => ?_
    rcases Nat.lt_or_ge i a with hia | hai
    · exact hnone i hia
    · obtain ⟨i, rfl⟩ := Nat.exists_eq_add_of_le hai
      rw [← Nat.add_assoc]
      exact hbefore i (Nat.lt_of_add_lt_add_left hi)
  · rintro ⟨ha, hb⟩ j hj hbefore
    rcases Nat.lt_or_ge j a with hja | haj
    · exact ha j hja hbefore
    · obtain ⟨j, rfl⟩ := Nat.exists_eq_add_of_le haj
      rw [← Nat.add_assoc]
      refine hb (fun i hi => hbefore i (Nat.lt_add_right j hi)) j (Nat.lt_of_add_lt_add_left hj) fun i hi => ?_
      rw [Nat.add_assoc]
      exact hbefore (a + i) (Nat.add_lt_add_left hi a)

/-- A call whose attempts succeed. -/
theorem delivered (t : Terminal) (buf : Word) {size : Int} (h₁ : 1 ≤ size) (h₂ : size < 2 ^ 31)
    (h : Clean script pos (size - 1).toNat) :
    Delivered (receiving t script pos)
      (receiving { t with mem := written buf 0 (stored script (size - 1).toNat pos) t.mem } script
        (pos + (stored script (size - 1).toNat pos).length)) buf size
      (if (stored script (size - 1).toNat pos).getLast? = some newline then none else some buf)
      (stored script (size - 1).toNat pos) := by
  have hle : (stored script (size - 1).toNat pos).length ≤ (size - 1).toNat := length_stored_le _ pos
  have hnot : newline ∉ (stored script (size - 1).toNat pos).dropLast := newline_not_mem_dropLast _ pos
  have hstop : (stored script (size - 1).toNat pos).getLast? = some newline ∨
      (stored script (size - 1).toNat pos).length = (size - 1).toNat := stored_stop _ pos
  have hgot := received_spells (stored_spells (clean_iff.mp h))
  generalize stored script (size - 1).toNat pos = xs at *
  exact {
    exact := hgot.symm
    holds := written_holds buf t.mem t (by omega)
    inside := fun a ha => written_outside buf xs 0 t.mem fun j hj => by
      rw [Nat.zero_add]
      exact ha j (by omega)
    first := hnot
    stop := hstop
    fits := hle
    null := by split <;> simp_all
    pointer := by split <;> simp_all }

/-- A call that delivers makes no attempt that fails. -/
theorem clean_of_delivered (t : Terminal) (script : Nat → Response) (pos : Nat) (buf : Word) {size : Int}
    (h₁ : 1 ≤ size) (h₂ : size < 2 ^ 31) {r : Option Word} {t' : Terminal} {xs : List Byte}
    (hret : ∀ᶠ n in Filter.atTop, tgets T n buf size (receiving t script pos) = .ret r t')
    (hd : Delivered (receiving t script pos) t' buf size r xs) : Clean script pos (size - 1).toNat := by
  obtain ⟨rfl, rfl⟩ := eventually_unique hret (tgets_run t script pos buf size)
  have hle : (stored script (size - 1).toNat pos).length ≤ (size - 1).toNat := length_stored_le _ pos
  have hnot : newline ∉ (stored script (size - 1).toNat pos).dropLast := newline_not_mem_dropLast _ pos
  have hgot := hd.exact
  rw [clean_iff]
  generalize stored script (size - 1).toNat pos = ys at *
  change xs = received script pos (pos + ys.length) at hgot
  refine (length_received script pos _).mp (Nat.le_antisymm (length_received_le script pos _) ?_)
  rw [← hgot]
  by_contra hlt
  have hshort : xs.length < ys.length := Nat.not_le.mp hlt
  have hlast := hd.stop.resolve_right (Nat.ne_of_lt (Nat.lt_of_lt_of_le hshort hle))
  obtain ⟨i, hlt', hi, he⟩ := exists_last hlast
  have hmem := hd.holds.1 i hlt'
  have hi' : i + 1 < ys.length := hi ▸ hshort
  have heq : ys[i] = newline :=
    ((written_holds buf t.mem t (by omega)).1 i (Nat.lt_of_succ_lt hi')).symm.trans (hmem.trans he)
  exact hnot (heq ▸ getElem_mem_dropLast hi')

/-- One call delivers what it received exactly when none of its attempts fails. -/
theorem delivers_iff (t : Terminal) (script : Nat → Response) (pos : Nat) (buf : Word) {size : Int} (h₁ : 1 ≤ size)
    (h₂ : size < 2 ^ 31) : Delivers T (receiving t script pos) buf size ↔ Clean script pos (size - 1).toNat := by
  constructor
  · rintro ⟨r, t', hret, hd⟩
    exact clean_of_delivered t script pos buf h₁ h₂ hret hd
  · intro hclean
    have hd := delivered t buf h₁ h₂ hclean
    exact ⟨_, _, tgets_run t script pos buf size, hd.exact ▸ hd⟩

/-! ## Successive calls -/

@[simp] theorem room_cons (size : Int) (sizes : List Int) : room (size :: sizes) = (size - 1).toNat + room sizes := rfl

/-- The last character stored is a newline exactly when one was received in the attempts. -/
theorem getLast?_stored_iff (script : Nat → Response) : ∀ k pos : Nat,
    (stored script k pos).getLast? = some newline ↔ ∃ j < k, char? (script (pos + j)) = some newline := by
  intro k
  induction k with
  | zero => exact fun pos => ⟨fun h => absurd h (List.getLast?_nil ▸ nofun), fun ⟨j, hj, _⟩ => absurd hj (Nat.not_lt_zero j)⟩
  | succ k ih =>
    intro pos
    by_cases hc : char? (script pos) = some newline
    · rw [stored_newline hc]
      exact ⟨fun _ => ⟨0, Nat.succ_pos k, hc⟩, fun _ => rfl⟩
    · rw [getLast?_stored_other hc, ih (pos + 1)]
      constructor
      · rintro ⟨j, hj, hn⟩
        exact ⟨j + 1, Nat.succ_lt_succ hj, by rwa [Nat.add_comm j, ← Nat.add_assoc]⟩
      · rintro ⟨j, hj, hn⟩
        cases j with
        | zero => exact absurd hn hc
        | succ j => exact ⟨j, Nat.lt_of_succ_lt_succ hj, by rwa [Nat.add_assoc, Nat.add_comm 1]⟩

/-- The rounds of two calls, one after the other. -/
theorem stored_add (script : Nat → Response) (b : Nat) : ∀ a pos : Nat, stored script (a + b) pos =
    if (stored script a pos).getLast? = some newline then stored script a pos
    else stored script a pos ++ stored script b (pos + a) := by
  intro a
  induction a with
  | zero =>
    intro pos
    rw [Nat.zero_add]
    rfl
  | succ a ih =>
    intro pos
    rw [Nat.add_right_comm]
    by_cases hc : char? (script pos) = some newline
    · simp [stored_newline hc]
    · simp only [getLast?_stored_other hc]
      rw [stored_other hc, stored_other hc, ih (pos + 1), Nat.add_assoc, Nat.add_comm 1]
      split <;> rfl

/-- The calls of a clean script deliver, together, what one call with room for all would store. -/
theorem calls_run (script : Nat → Response) (buf : Word) : ∀ (sizes : List Int) (pos : Nat) (t : Terminal),
    (∀ size ∈ sizes, 1 ≤ size ∧ size < 2 ^ 31) → Clean script pos (room sizes) →
      ∃ xss, Calls T buf (receiving t script pos) sizes xss ∧ xss.flatten = stored script (room sizes) pos := by
  intro sizes
  induction sizes with
  | nil => exact fun pos t _ _ => ⟨[], .nil, rfl⟩
  | cons size sizes ih =>
    intro pos t hsizes hclean
    obtain ⟨⟨h₁, h₂⟩, hrest⟩ := List.forall_mem_cons.mp hsizes
    rw [room_cons] at hclean ⊢
    obtain ⟨hnow, hlater⟩ := clean_add.mp hclean
    have hrun := tgets_run (T := T) t script pos buf size
    have hd := delivered t buf h₁ h₂ hnow
    rw [stored_add]
    by_cases hlast : (stored script (size - 1).toNat pos).getLast? = some newline
    · simp only [if_pos hlast] at hrun hd ⊢
      exact ⟨_, .last hrun hd, List.flatten_singleton⟩
    · simp only [if_neg hlast] at hrun hd ⊢
      have hfull := (stored_stop (size - 1).toNat pos).resolve_left hlast
      rw [hfull] at hrun hd
      have hnone : ∀ j < (size - 1).toNat, char? (script (pos + j)) ≠ some newline := fun j hj hn =>
        hlast ((getLast?_stored_iff script _ pos).mpr ⟨j, hj, hn⟩)
      obtain ⟨xss, hcalls, hflat⟩ := ih (pos + (size - 1).toNat) _ hrest (hlater hnone)
      exact ⟨_, .more hrun hd hcalls, by rw [List.flatten_cons, hflat]⟩

/-- Calls that deliver make no attempt that fails. -/
theorem clean_of_calls (script : Nat → Response) (buf : Word) : ∀ (sizes : List Int) (pos : Nat) (t : Terminal)
    (xss : List (List Byte)), (∀ size ∈ sizes, 1 ≤ size ∧ size < 2 ^ 31) →
      Calls T buf (receiving t script pos) sizes xss → Clean script pos (room sizes) := by
  intro sizes
  induction sizes with
  | nil => exact fun pos t xss _ _ j hj => absurd hj (Nat.not_lt_zero j)
  | cons size sizes ih =>
    intro pos t xss hsizes hcalls
    obtain ⟨⟨h₁, h₂⟩, hrest⟩ := List.forall_mem_cons.mp hsizes
    have hrun := tgets_run (T := T) t script pos buf size
    rw [room_cons]
    cases hcalls with
    | more hret hd hmore =>
      refine clean_add.mpr ⟨clean_of_delivered t script pos buf h₁ h₂ hret hd, fun hnone => ?_⟩
      have hlast : (stored script (size - 1).toNat pos).getLast? ≠ some newline := fun he => by
        obtain ⟨j, hj, hn⟩ := (getLast?_stored_iff script _ pos).mp he
        exact hnone j hj hn
      have hfull := (stored_stop (size - 1).toNat pos).resolve_left hlast
      rw [(eventually_unique hret hrun).2, hfull] at hmore
      exact ih _ _ _ hrest hmore
    | last hret hd =>
      refine clean_add.mpr ⟨clean_of_delivered t script pos buf h₁ h₂ hret hd, fun hnone => ?_⟩
      have hlast : (stored script (size - 1).toNat pos).getLast? = some newline := by
        by_contra hne
        rw [if_neg hne] at hrun
        exact absurd (eventually_unique hret hrun).1 nofun
      obtain ⟨j, hj, hn⟩ := (getLast?_stored_iff script _ pos).mp hlast
      exact absurd hn (hnone j hj)

theorem stored_line {line : List Byte} : ∀ {pos k : Nat}, Spells script pos (line ++ [newline]) → newline ∉ line →
    line.length < k → stored script k pos = line ++ [newline] := by
  induction line with
  | nil =>
    intro pos k h _ hk
    obtain ⟨k, rfl⟩ := Nat.exists_eq_add_one_of_ne_zero (Nat.ne_of_gt hk)
    exact stored_newline (h 0 (Nat.succ_pos 0))
  | cons c line ih =>
    intro pos k h hnot hk
    obtain ⟨k, rfl⟩ := Nat.exists_eq_add_one_of_ne_zero (Nat.ne_of_gt (Nat.lt_of_le_of_lt (Nat.zero_le _) hk))
    obtain ⟨hc, hnot⟩ := not_or.mp (mt List.mem_cons.mpr hnot)
    have hfirst : char? (script pos) = some c := h 0 (Nat.succ_pos _)
    rw [stored_other (hfirst ▸ fun he => hc (Option.some.inj he).symm), hfirst,
      ih (spells_tail h) hnot (Nat.lt_of_succ_lt_succ hk)]
    rfl

theorem clean_spells {line : List Byte} (h : Spells script pos (line ++ [newline])) (k : Nat) : Clean script pos k := by
  intro j _ hbefore
  have hend : char? (script (pos + line.length)) = some newline := by
    rw [h line.length (by simp)]
    simp
  rcases Nat.lt_or_ge line.length j with hlt | hge
  · exact absurd hend (hbefore _ hlt)
  · rw [h j (by simpa using Nat.lt_succ_of_le hge)]
    exact Option.some_ne_none _

/-- `tgets` delivers exactly the characters received if and only if none of the attempts that it makes, up to the
first newline, fails; likewise for successive calls, which then deliver a line in pieces. -/
theorem tgets_delivers_iff (t : Terminal) (script : Nat → Response) (pos : Nat) (buf : Word) :
    (∀ size : Int, 1 ≤ size → size < 2 ^ 31 →
      (Delivers T (receiving t script pos) buf size ↔ Clean script pos (size - 1).toNat)) ∧
    ∀ sizes : List Int, (∀ size ∈ sizes, 2 ≤ size ∧ size < 2 ^ 31) →
      ((∃ xss, Calls T buf (receiving t script pos) sizes xss) ↔ Clean script pos (room sizes)) ∧
      ∀ line, Spells script pos (line ++ [newline]) → newline ∉ line → line.length < room sizes →
        ∃ xss, Calls T buf (receiving t script pos) sizes xss ∧ xss.flatten = line ++ [newline] := by
  refine ⟨fun size h₁ h₂ => delivers_iff t script pos buf h₁ h₂, fun sizes hsizes => ⟨⟨?_, ?_⟩, ?_⟩⟩
  all_goals have hsizes' : ∀ size ∈ sizes, 1 ≤ size ∧ size < 2 ^ 31 := fun size h =>
    ⟨le_trans (by decide) (hsizes size h).1, (hsizes size h).2⟩
  · rintro ⟨xss, hcalls⟩
    exact clean_of_calls script buf sizes pos t xss hsizes' hcalls
  · intro hclean
    obtain ⟨xss, hcalls, _⟩ := calls_run script buf sizes pos t hsizes' hclean
    exact ⟨xss, hcalls⟩
  · intro line hline hnot hlen
    obtain ⟨xss, hcalls, hflat⟩ := calls_run script buf sizes pos t hsizes' (clean_spells hline _)
    exact ⟨xss, hcalls, hflat.trans (stored_line hline hnot hlen)⟩

end

/-! ## Two receivers -/

/-- The character is received at once. -/
def typed (c : Byte) : Response :=
  .answer stReady 0 (c.setWidth 32 <<< charOffset ||| stReceived) (Or.inl rfl)
    ((by decide +kernel : ∀ c : Byte, (c.setWidth 32 <<< charOffset ||| stReceived) &&& termStatusMask ≠ stBusy) c)

/-- A line and then newlines. -/
def typing (xs : List Byte) (i : Nat) : Response := typed (xs[i]?.getD newline)

/-- The receiver is not ready at the first attempt. -/
def startsUnready (i : Nat) : Response := if i = 0 then .unready 0 (by decide) else typed newline

/-- A terminal in front of a receiver. -/
def blank (script : Nat → Response) : Terminal :=
  ⟨⟨script, 0, .idle⟩, ⟨script, 0, .idle⟩, [], fun _ => 0, fun _ => 0⟩

theorem tgets_delivers_iff_typing :
    Delivers .umps (blank (typing [97, 98])) 0x20001000 10 ∧
    ∃ xss, Calls .umps 0x20001000 (blank (typing [97, 98])) [2, 3] xss ∧ xss.flatten = [97, 98] ++ [newline] := by
  have hspells : Spells (typing [97, 98]) 0 ([97, 98] ++ [newline]) := by
    unfold Spells
    decide
  have h := tgets_delivers_iff (T := .umps) (blank (typing [97, 98])) (typing [97, 98]) 0 0x20001000
  exact ⟨(h.1 10 (by decide) (by decide)).mpr (clean_spells hspells _),
    (h.2 [2, 3] (by decide)).2 [97, 98] hspells (by decide) (by decide)⟩

/-- After a first attempt that fails, the buffer begins with a character that was not received. -/
theorem tgets_junk : ¬ Delivers .umps (blank startsUnready) 0x20001000 10 := by
  refine mt (delivers_iff (blank startsUnready) startsUnready 0 0x20001000 (by decide) (by decide)).mp fun h => ?_
  exact h 0 (by decide) (fun j hj => absurd hj (Nat.not_lt_zero j)) rfl

end Bikaya.Results
