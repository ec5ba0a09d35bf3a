import Mathlib.Order.Monotone.Basic
import Mathlib.Order.Nat

/-!
# Chains of intervals

A list of intervals, the last first, that follow one another from a point `i` on (`Chained`). Along a monotone `f`
what the intervals cover and the gaps before them make up the whole (`covered_gaps`).
-/

namespace Bikaya.Lib

section
variable {α : Type} (start stop : α → Nat) (f : Nat → Nat) (i : Nat)

/-- The end of the last interval. -/
def lastStop : List α → Nat
  | [] => i
  | x :: _ => stop x

/-- Each interval begins where the one before it has ended, or later. -/
def Chained : List α → Prop
  | [] => True
  | x :: xs => lastStop stop i xs ≤ start x ∧ start x ≤ stop x ∧ Chained xs

/-- By how much `f` grows in the intervals. -/
def covered : List α → Nat
  | [] => 0
  | x :: xs => f (stop x) - f (start x) + covered xs

/-- By how much it grows before each of them. -/
def gaps : List α → Nat
  | [] => 0
  | x :: xs => f (start x) - f (lastStop stop i xs) + gaps xs

end

variable {α : Type} {start stop : α → Nat} {f : Nat → Nat} {i : Nat} {xs : List α}

theorem covered_gaps (hf : Monotone f) (h : Chained start stop i xs) :
    covered start stop f xs + gaps start stop f i xs + f i = f (lastStop stop i xs) := by
  induction xs with
  | nil => simp [covered, gaps, lastStop]
  | cons x xs ih =>
    obtain ⟨hstart, hstop, hxs⟩ := h
    have hbefore := hf hstart
    have hinside := hf hstop
    have hrest := ih hxs
    show f (stop x) - f (start x) + covered start stop f xs +
      (f (start x) - f (lastStop stop i xs) + gaps start stop f i xs) + f i = f (stop x)
    omega

end Bikaya.Lib
