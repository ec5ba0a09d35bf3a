import Mathlib.Logic.Basic

/-!
# Properties of every point of a history

A history is a list, latest first. `Always P h` : at every point `x :: earlier` of `h`, `P x earlier`.
-/

namespace Bikaya.Lib

variable {α : Type}

def Always (P : α → List α → Prop) : List α → Prop
  | [] => True
  | x :: h => P x h ∧ Always P h

variable {P : α → List α → Prop}

theorem Always.at {later h : List α} {x : α} (H : Always P (later ++ x :: h)) : P x h := by
  induction later with
  | nil => exact H.1
  | cons y later ih => exact ih H.2

/-- An earlier part of the history. -/
theorem Always.drop {later h : List α} (H : Always P (later ++ h)) : Always P h := by
  induction later with
  | nil => exact H
  | cons y later ih => exact ih H.2

theorem Always.of_mem {Q : α → Prop} {h : List α} {x : α} (H : Always (fun x _ => Q x) h) (hx : x ∈ h) : Q x := by
  obtain ⟨later, earlier, rfl⟩ := List.append_of_mem hx
  exact H.at

/-- The splitting form, as statements about histories are read. -/
theorem always_iff {h : List α} : Always P h ↔ ∀ later x earlier, h = later ++ x :: earlier → P x earlier := by
  refine ⟨fun H later x earlier he => (he ▸ H).at, fun H => ?_⟩
  induction h with
  | nil => trivial
  | cons x h ih =>
    exact ⟨H [] x h rfl, ih fun later y earlier he => H (x :: later) y earlier (by rw [he]; rfl)⟩

/-- Points that satisfy `P` whatever came before. -/
theorem Always.append {new h : List α} (hnew : ∀ x ∈ new, ∀ h, P x h) (H : Always P h) : Always P (new ++ h) := by
  induction new with
  | nil => exact H
  | cons x new ih =>
    exact ⟨hnew x List.mem_cons_self _, ih fun y hy => hnew y (List.mem_cons_of_mem _ hy)⟩

end Bikaya.Lib
