import Mathlib.Data.Finset.Card
import Mathlib.Logic.Relation

/-!
# Forests given by a parent-child relation

A relation `R` (read: `R p c`, `c` is a child of `p`) is a forest when nothing has two parents and some rank
grows from every parent to its children (`IsForest`). Then nothing is its own ancestor, siblings are not
descendants of each other (`IsForest.siblings`), and when the children lie in a finite set every node has a
`Height` : the depth of the recursion that a walk over its descendants needs.
-/

namespace Bikaya.Lib

variable {α : Type}

structure IsForest (R : α → α → Prop) : Prop where
  parent_unique : ∀ {a b c}, R a c → R b c → a = b
  ranked : ∃ r : α → Nat, ∀ p c, R p c → r p < r c

/-- `d` is `a` or below it. -/
abbrev Desc (R : α → α → Prop) (a d : α) : Prop := Relation.ReflTransGen R a d

theorem Desc.mono {R R' : α → α → Prop} (hsub : ∀ p c, R p c → R' p c) {a d : α} (h : Desc R a d) :
    Desc R' a d := by
  induction h with
  | refl => exact Relation.ReflTransGen.refl
  | tail _ he ih => exact ih.tail (hsub _ _ he)

/-- A path stays in what is closed upwards. -/
theorem Desc.within {R : α → α → Prop} {P : α → Prop} {a d : α} (h : Desc R a d) (hup : ∀ p c, R p c → P c → P p)
    (hd : P d) : Desc (fun p c => R p c ∧ P c) a d := by
  induction h with
  | refl => exact Relation.ReflTransGen.refl
  | tail _ he ih => exact (ih (hup _ _ he hd)).tail ⟨he, hd⟩

namespace IsForest
variable {R R' : α → α → Prop}

theorem mono (h : IsForest R) (hsub : ∀ p c, R' p c → R p c) : IsForest R' := by
  obtain ⟨r, hr⟩ := h.ranked
  exact ⟨fun ha hb => h.parent_unique (hsub _ _ ha) (hsub _ _ hb), r, fun p c hc => hr p c (hsub p c hc)⟩

theorem empty : IsForest (fun _ _ : α => False) := ⟨fun h => h.elim, fun _ => 0, fun _ _ h => h.elim⟩

section
variable (h : IsForest R)
include h

theorem not_desc {p c : α} (hc : R p c) : ¬ Desc R c p := by
  obtain ⟨r, hr⟩ := h.ranked
  have hle : ∀ d, Desc R c d → r c ≤ r d := by
    intro d hd
    induction hd with
    | refl => exact Nat.le_refl _
    | tail _ he ih => exact Nat.le_trans ih (Nat.le_of_lt (hr _ _ he))
  intro hd
  have h1 := hle p hd
  have h2 := hr p c hc
  omega

theorem irrefl (p : α) : ¬ R p p := fun hp => h.not_desc hp Relation.ReflTransGen.refl

/-- The parent of a proper descendant is a descendant. -/
theorem desc_parent {a p d : α} (hd : Desc R a d) (hne : d ≠ a) (hp : R p d) : Desc R a p := by
  cases hd with
  | refl => exact absurd rfl hne
  | tail hb he => exact h.parent_unique he hp ▸ hb

/-- A child of `p` is below another child of `p` only if they are the same. -/
theorem siblings {p c d : α} (hc : R p c) (hd : R p d) (hcd : Desc R c d) : d = c := by
  by_contra hne
  exact h.not_desc hc (h.desc_parent hcd hne hd)

/-- Descendants of two siblings are different. -/
theorem desc_disjoint {p c c' d : α} (hc : R p c) (hc' : R p c') (hne : c ≠ c') (hd : Desc R c d) :
    ¬ Desc R c' d := by
  induction hd with
  | refl => exact fun hd' => hne (h.siblings hc' hc hd')
  | @tail b e hb he ih =>
    intro hd'
    by_cases hec : e = c'
    · subst hec
      exact hne (h.siblings hc hc' (hb.tail he)).symm
    · exact ih (h.desc_parent hd' hec he)

/-- A root, with everything below it, gets a parent that is not below it. -/
theorem attach {p c : α} (hroot : ∀ a, ¬ R a c) (hnot : ¬ Desc R c p)
    (hadd : ∀ a d, R' a d → R a d ∨ (a = p ∧ d = c)) : IsForest R' := by
  classical
  obtain ⟨r, hr⟩ := h.ranked
  refine ⟨fun {a b d} ha hb => ?_, fun x => if Desc R c x then r x + r p + 1 else r x, fun a d had => ?_⟩
  · rcases hadd a d ha with ha | ⟨rfl, rfl⟩ <;> rcases hadd b _ hb with hb | ⟨rfl, hd⟩
    · exact h.parent_unique ha hb
    · subst hd; exact absurd ha (hroot a)
    · exact absurd hb (hroot b)
    · rfl
  · dsimp only
    rcases hadd a d had with had | ⟨rfl, rfl⟩
    · have hrank := hr a d had
      by_cases ha : Desc R c a
      · rw [if_pos ha, if_pos (ha.tail had)]
        omega
      · have hd : ¬ Desc R c d := fun hd => ha (h.desc_parent hd (fun e => hroot a (e ▸ had)) had)
        rw [if_neg ha, if_neg hd]
        exact hrank
    · rw [if_neg hnot, if_pos Relation.ReflTransGen.refl]
      omega

end
end IsForest

/-! ## Heights -/

/-- Below `p` there are at most `n` levels, its own included. -/
def Height (R : α → α → Prop) : Nat → α → Prop
  | 0, _ => False
  | n + 1, p => ∀ c, R p c → Height R n c

theorem Height.mono {R R' : α → α → Prop} (hsub : ∀ p c, R' p c → R p c) :
    ∀ {n : Nat} {p : α}, Height R n p → Height R' n p := by
  intro n
  induction n with
  | zero => exact fun h => h
  | succ n ih => exact fun h c hc => ih (h c (hsub _ _ hc))

theorem Height.le {R : α → α → Prop} : ∀ {n m : Nat} {p : α}, n ≤ m → Height R n p → Height R m p := by
  intro n
  induction n with
  | zero => exact fun _ h => h.elim
  | succ n ih =>
    intro m p hm h
    obtain ⟨k, rfl⟩ := Nat.exists_eq_add_one_of_ne_zero (Nat.ne_of_gt (Nat.lt_of_lt_of_le (Nat.succ_pos n) hm))
    exact fun c hc => ih (Nat.le_of_succ_le_succ hm) (h c hc)

/-- Among finitely many nodes no walk down is longer than their number. -/
theorem IsForest.height {R : α → α → Prop} (h : IsForest R) {dom : Finset α}
    (hdom : ∀ p c, R p c → c ∈ dom) (p : α) : Height R (dom.card + 1) p := by
  obtain ⟨r, hr⟩ := h.ranked
  have key : ∀ (n : Nat) (p : α), (dom.filter (fun x => r p < r x)).card < n → Height R n p := by
    intro n
    induction n with
    | zero => exact fun p hp => absurd hp (Nat.not_lt_zero _)
    | succ n ih =>
      intro p hp c hc
      refine ih c (Nat.lt_of_lt_of_le (Finset.card_lt_card ?_) (Nat.le_of_lt_succ hp))
      refine Finset.ssubset_iff_subset_ne.mpr ⟨fun x hx => ?_, fun he => ?_⟩
      · rw [Finset.mem_filter] at hx ⊢
        exact ⟨hx.1, Nat.lt_trans (hr p c hc) hx.2⟩
      · have hin : c ∈ dom.filter (fun x => r p < r x) :=
          Finset.mem_filter.mpr ⟨hdom p c hc, hr p c hc⟩
        rw [← he, Finset.mem_filter] at hin
        exact Nat.lt_irrefl _ hin.2
  exact key _ p (Nat.lt_succ_of_le (Finset.card_le_card (Finset.filter_subset _ _)))

end Bikaya.Lib
