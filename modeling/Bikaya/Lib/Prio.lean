import Mathlib.Data.List.Nodup
import Mathlib.Data.List.Perm.Basic
import Mathlib.Data.Finset.Card
import Mathlib.Data.Finset.Range

/-!
# Stable priority queues as lists

`insertPrio prio p xs` puts `p` before the first element of lower priority. On a list in non-increasing
order that is: after every element of priority at least `p`'s and before every lower one
(`insertPrio_split`), and the order is kept (`insertPrio_pairwise`, for any relation that holds between
elements of decreasing priority). `StablySorted` is what a queue filled so holds: its members by priority, and
by arrival among equals.
-/

namespace Bikaya.Lib

variable {α : Type}

/-- Put `p` before the first element of lower priority. -/
def insertPrio (prio : α → Int) (p : α) : List α → List α
  | [] => [p]
  | x :: xs => if prio x < prio p then p :: x :: xs else x :: insertPrio prio p xs

/-- The list is in non-increasing order of priority. -/
def Descending (prio : α → Int) (xs : List α) : Prop := xs.Pairwise fun x y => prio y ≤ prio x

section
variable (prio : α → Int) (p : α)

/-- Where the element goes, on any list. -/
theorem insertPrio_eq : ∀ xs : List α, ∃ as bs, xs = as ++ bs ∧ insertPrio prio p xs = as ++ p :: bs ∧
    (∀ x ∈ as, prio p ≤ prio x) ∧ (∀ y ∈ bs.head?, prio y < prio p) ∧
    xs.find? (fun x => decide (prio x < prio p)) = bs.head? := by
  intro xs
  induction xs with
  | nil => exact ⟨[], [], rfl, rfl, by simp, by simp, rfl⟩
  | cons x xs ih =>
    by_cases h : prio x < prio p
    · refine ⟨[], x :: xs, rfl, by simp [insertPrio, h], by simp, by simpa using h, by simp [h]⟩
    · obtain ⟨as, bs, h1, h2, h3, h4, h5⟩ := ih
      refine ⟨x :: as, bs, by rw [h1]; rfl, by simp [insertPrio, h, h2], ?_, h4, by simp [h, h5]⟩
      intro y hy
      rcases List.mem_cons.mp hy with rfl | hy
      · omega
      · exact h3 y hy

theorem insertPrio_perm (xs : List α) : (insertPrio prio p xs).Perm (p :: xs) := by
  obtain ⟨as, bs, h1, h2, -⟩ := insertPrio_eq prio p xs
  rw [h2, h1]
  exact List.perm_middle

@[simp] theorem mem_insertPrio {xs : List α} {x : α} : x ∈ insertPrio prio p xs ↔ x = p ∨ x ∈ xs := by
  rw [(insertPrio_perm prio p xs).mem_iff, List.mem_cons]

theorem insertPrio_ne_nil (xs : List α) : insertPrio prio p xs ≠ [] := by
  obtain ⟨as, bs, -, h2, -⟩ := insertPrio_eq prio p xs
  rw [h2]
  simp

theorem insertPrio_nodup {xs : List α} (hp : p ∉ xs) (hnd : xs.Nodup) : (insertPrio prio p xs).Nodup :=
  (insertPrio_perm prio p xs).nodup_iff.mpr (List.nodup_cons.mpr ⟨hp, hnd⟩)

theorem length_insertPrio (xs : List α) : (insertPrio prio p xs).length = xs.length + 1 := by
  rw [(insertPrio_perm prio p xs).length_eq, List.length_cons]

/-- Insertion reads only the priorities of the elements and of `p`. -/
theorem insertPrio_congr {prio' : α → Int} : ∀ {xs : List α}, prio' p = prio p →
    (∀ x ∈ xs, prio' x = prio x) → insertPrio prio' p xs = insertPrio prio p xs := by
  intro xs hp
  induction xs with
  | nil => exact fun _ => rfl
  | cons x xs ih =>
    intro h
    have hx := h x List.mem_cons_self
    have hxs := ih (fun y hy => h y (List.mem_cons_of_mem _ hy))
    simp only [insertPrio, hx, hp, hxs]

/-- Where lower elements stand only behind the others, the element goes between the two. -/
theorem insertPrio_between {xs : List α} (h : xs.Pairwise fun x y => prio x < prio p → prio y < prio p) :
    ∃ as bs, xs = as ++ bs ∧ insertPrio prio p xs = as ++ p :: bs ∧
      (∀ x ∈ as, prio p ≤ prio x) ∧ (∀ y ∈ bs, prio y < prio p) := by
  obtain ⟨as, bs, h1, h2, h3, h4, -⟩ := insertPrio_eq prio p xs
  refine ⟨as, bs, h1, h2, h3, fun y hy => ?_⟩
  cases bs with
  | nil => simp at hy
  | cons b bs =>
    have hb : prio b < prio p := h4 b rfl
    rw [h1] at h
    have hbs := (List.pairwise_append.mp h).2.1
    rcases List.mem_cons.mp hy with rfl | hy
    · exact hb
    · exact (List.pairwise_cons.mp hbs).1 y hy hb

/-- On a descending list the element goes after the ones of at least its priority and before the rest. -/
theorem insertPrio_split {xs : List α} (h : Descending prio xs) :
    ∃ as bs, xs = as ++ bs ∧ insertPrio prio p xs = as ++ p :: bs ∧
      (∀ x ∈ as, prio p ≤ prio x) ∧ (∀ y ∈ bs, prio y < prio p) :=
  insertPrio_between prio p (h.imp fun hyx hx => lt_of_le_of_lt hyx hx)

/-- A list falls into the elements of at least a priority and lower ones behind them only if no lower one stands
before one that is not. -/
theorem pairwise_of_split {xs as bs : List α} {c : Int} (h : xs = as ++ bs) (ha : ∀ x ∈ as, c ≤ prio x)
    (hb : ∀ y ∈ bs, prio y < c) : xs.Pairwise fun x y => prio x < c → prio y < c := by
  subst h
  refine List.pairwise_append.mpr ⟨?_, ?_, fun x _ y hy _ => hb y hy⟩
  · exact List.pairwise_of_forall_mem_list fun x hx _ _ hlt => absurd hlt (not_lt.mpr (ha x hx))
  · exact List.pairwise_of_forall_mem_list fun _ _ y hy _ => hb y hy

/-- Insertion keeps every pairwise relation that holds from the elements of at least `p`'s priority to `p`
and from `p` to the lower ones. -/
theorem insertPrio_pairwise {r : α → α → Prop} {xs : List α} (hd : Descending prio xs) (h : xs.Pairwise r)
    (hle : ∀ x ∈ xs, prio p ≤ prio x → r x p) (hlt : ∀ y ∈ xs, prio y < prio p → r p y) :
    (insertPrio prio p xs).Pairwise r := by
  obtain ⟨as, bs, h1, h2, h3, h4⟩ := insertPrio_split prio p hd
  subst h1
  rw [h2]
  obtain ⟨ha, hb, hab⟩ := List.pairwise_append.mp h
  refine List.pairwise_append.mpr ⟨ha, List.pairwise_cons.mpr ⟨fun y hy => ?_, hb⟩, fun x hx y hy => ?_⟩
  · exact hlt y (List.mem_append_right _ hy) (h4 y hy)
  · rcases List.mem_cons.mp hy with rfl | hy
    · exact hle x (List.mem_append_left _ hx) (h3 x hx)
    · exact hab x hx y hy

/-- Insertion on a descending list, by the elements that stay in front and the ones that go behind. -/
theorem insertPrio_eq_filter {xs : List α} (h : Descending prio xs) :
    insertPrio prio p xs = xs.filter (fun x => decide (prio p ≤ prio x)) ++
      p :: xs.filter (fun x => decide (prio x < prio p)) := by
  obtain ⟨as, bs, h1, h2, h3, h4⟩ := insertPrio_split prio p h
  have ha : as.filter (fun x => decide (prio p ≤ prio x)) = as :=
    List.filter_eq_self.mpr fun x hx => decide_eq_true (h3 x hx)
  have ha' : as.filter (fun x => decide (prio x < prio p)) = [] :=
    List.filter_eq_nil_iff.mpr fun x hx => by simpa using h3 x hx
  have hb : bs.filter (fun x => decide (prio p ≤ prio x)) = [] :=
    List.filter_eq_nil_iff.mpr fun x hx => by simpa using h4 x hx
  have hb' : bs.filter (fun x => decide (prio x < prio p)) = bs :=
    List.filter_eq_self.mpr fun x hx => decide_eq_true (h4 x hx)
  rw [h2, h1, List.filter_append, List.filter_append, ha, ha', hb, hb', List.append_nil, List.nil_append]

theorem insertPrio_descending {xs : List α} (h : Descending prio xs) :
    Descending prio (insertPrio prio p xs) :=
  insertPrio_pairwise prio p h h (fun _ _ hle => hle) (fun _ _ hlt => by omega)

end

theorem Descending.congr {prio prio' : α → Int} {xs : List α} (h : Descending prio xs)
    (hp : ∀ x ∈ xs, prio' x = prio x) : Descending prio' xs :=
  h.imp_of_mem fun hx hy hle => by rwa [hp _ hx, hp _ hy]

/-! ## Stability -/

/-- `xs` is `arrivals` in non-increasing order of priority, and in order of arrival among equals. -/
structure StablySorted (prio : α → Int) (arrivals xs : List α) : Prop where
  perm : xs.Perm arrivals
  order : xs.Pairwise fun x y => prio y < prio x ∨ prio y = prio x ∧ [x, y].Sublist arrivals

namespace StablySorted
variable {prio : α → Int} {p : α} {arrivals xs : List α}

theorem nil : StablySorted prio ([] : List α) [] := ⟨List.Perm.refl _, List.Pairwise.nil⟩

/-- Only the priorities of the members matter. -/
theorem congr {prio' : α → Int} (h : StablySorted prio arrivals xs) (hp : ∀ x ∈ xs, prio' x = prio x) :
    StablySorted prio' arrivals xs := by
  refine ⟨h.perm, h.order.imp_of_mem fun {x y} hx hy hxy => ?_⟩
  rw [hp x hx, hp y hy]
  exact hxy

theorem descending (h : StablySorted prio arrivals xs) : Descending prio xs :=
  h.order.imp fun hxy => hxy.elim Int.le_of_lt fun he => Int.le_of_eq he.1

/-- Insertion is stable: the element arrives last. -/
theorem insert (h : StablySorted prio arrivals xs) :
    StablySorted prio (arrivals ++ [p]) (insertPrio prio p xs) where
  perm := by
    have hcons := h.perm.cons p
    exact (insertPrio_perm prio p xs).trans (hcons.trans (List.perm_append_singleton p arrivals).symm)
  order := by
    refine insertPrio_pairwise prio p h.descending ?_ (fun x hx hle => ?_) (fun y _ hlt => Or.inl hlt)
    · exact h.order.imp fun hxy => hxy.imp_right fun he => ⟨he.1, he.2.trans (List.sublist_append_left _ _)⟩
    · rcases Int.lt_or_eq_of_le hle with hlt | heq
      · exact Or.inl hlt
      · refine Or.inr ⟨heq, ?_⟩
        have hx : [x].Sublist arrivals := List.singleton_sublist.mpr (h.perm.mem_iff.mp hx)
        exact hx.append (List.Sublist.refl [p])

/-- Taking an element out keeps the order of the others. -/
theorem erase [DecidableEq α] (h : StablySorted prio arrivals xs) (hnd : xs.Nodup) :
    StablySorted prio (arrivals.erase p) (xs.erase p) where
  perm := h.perm.erase p
  order := by
    refine (h.order.sublist List.erase_sublist).imp_of_mem fun {x y} hx hy hxy => hxy.imp_right fun he => ⟨he.1, ?_⟩
    have hne : ∀ z ∈ xs.erase p, z ≠ p := fun z hz => ((hnd.mem_erase_iff).mp hz).1
    have herase : [x, y].erase p = [x, y] := by
      refine List.erase_of_not_mem fun hm => ?_
      rcases List.mem_pair.mp hm with rfl | rfl
      · exact hne _ hx rfl
      · exact hne _ hy rfl
    rw [← herase]
    exact he.2.erase p

/-- The first element beats every other one, or equals it and came earlier. -/
theorem head_first {ys : List α} (h : StablySorted prio arrivals (p :: ys)) :
    p ∈ arrivals ∧ ∀ y ∈ arrivals, y ≠ p → prio y < prio p ∨ prio y = prio p ∧ [p, y].Sublist arrivals := by
  refine ⟨h.perm.mem_iff.mp List.mem_cons_self, fun y hy hne => ?_⟩
  have hm := (List.mem_cons.mp (h.perm.mem_iff.mpr hy)).resolve_left hne
  exact (List.pairwise_cons.mp h.order).1 y hm

end StablySorted

/-! ## How many are ahead -/

section
variable [DecidableEq α] (prio : α → Int) {p r : α}

/-- Behind an element of at least its priority an insertion does not delay it. -/
theorem idxOf_insertPrio {xs : List α} (h : Descending prio xs) (hp : p ∈ xs) (hne : r ≠ p) (hle : prio r ≤ prio p) :
    (insertPrio prio r xs).idxOf p = xs.idxOf p := by
  induction xs with
  | nil => cases hp
  | cons x xs ih =>
    obtain ⟨hx, hxs⟩ := List.pairwise_cons.mp h
    have hpx : prio p ≤ prio x := by
      rcases List.mem_cons.mp hp with rfl | hm
      · exact le_refl _
      · exact hx p hm
    unfold insertPrio
    rw [if_neg (by omega)]
    by_cases he : x = p
    · subst he
      rw [List.idxOf_cons_self, List.idxOf_cons_self]
    · rw [List.idxOf_cons_ne _ he, List.idxOf_cons_ne _ he]
      have hm : p ∈ xs := (List.mem_cons.mp hp).resolve_left (Ne.symm he)
      rw [ih hxs hm]

/-- An insertion delays nobody by more than one. -/
theorem idxOf_insertPrio_le (hne : r ≠ p) (xs : List α) : (insertPrio prio r xs).idxOf p ≤ xs.idxOf p + 1 := by
  induction xs with
  | nil => simp [insertPrio, List.idxOf_cons_ne _ hne]
  | cons x xs ih =>
    unfold insertPrio
    split
    · rw [List.idxOf_cons_ne _ hne]
    · by_cases he : x = p
      · subst he
        simp
      · rw [List.idxOf_cons_ne _ he, List.idxOf_cons_ne _ he]
        omega

/-- Whoever leaves a list delays nobody in it. -/
theorem idxOf_sublist_le {xs ys : List α} (h : xs.Sublist ys) (hnd : ys.Nodup) (hp : p ∈ xs) :
    xs.idxOf p ≤ ys.idxOf p := by
  induction h with
  | slnil => exact Nat.le_refl _
  | @cons xs ys y h ih =>
    obtain ⟨hy, hnd⟩ := List.nodup_cons.mp hnd
    have hne : y ≠ p := fun he => hy (he ▸ h.subset hp)
    rw [List.idxOf_cons_ne _ hne]
    have := ih hnd hp
    omega
  | @cons_cons xs ys y h ih =>
    by_cases he : y = p
    · subst he
      simp
    · rw [List.idxOf_cons_ne _ he, List.idxOf_cons_ne _ he]
      have := ih (List.nodup_cons.mp hnd).2 ((List.mem_cons.mp hp).resolve_left (Ne.symm he))
      omega

theorem idxOf_erase_le (hne : r ≠ p) (xs : List α) : (xs.erase r).idxOf p ≤ xs.idxOf p := by
  induction xs with
  | nil => exact Nat.le_refl _
  | cons x xs ih =>
    by_cases hx : x = r
    · subst hx
      rw [List.erase_cons_head, List.idxOf_cons_ne _ hne]
      omega
    · rw [List.erase_cons_tail (by simpa using hx)]
      by_cases he : x = p
      · subst he
        rw [List.idxOf_cons_self, List.idxOf_cons_self]
      · rw [List.idxOf_cons_ne _ he, List.idxOf_cons_ne _ he]
        omega

end

/-- A duplicate-free list of numbers below `n` has at most `n` elements. -/
theorem length_le_of_nodup_lt {xs : List Nat} {n : Nat} (hnd : xs.Nodup) (h : ∀ x ∈ xs, x < n) :
    xs.length ≤ n := by
  rw [← List.toFinset_card_of_nodup hnd]
  calc xs.toFinset.card ≤ (Finset.range n).card :=
        Finset.card_le_card (fun x hx => Finset.mem_range.mpr (h x (List.mem_toFinset.mp hx)))
    _ = n := Finset.card_range n

end Bikaya.Lib
