import Bikaya.Lib.Ring

/-!
# `include/listx.h`

The intrusive list primitives, on a heap of nodes of any type. A pointer read from a link field may be
NULL; where the code dereferences one, the result is `none`.
-/

namespace Bikaya.Model
open Bikaya.Lib

variable {ν : Type} [DecidableEq ν]

/-- `INIT_LIST_HEAD`. -/
def initListHead (l : Links ν) (list : ν) : Links ν := (l.setNext list (some list)).setPrev list (some list)

/-- `__list_add`. -/
def listAddBetween (l : Links ν) (new : ν) (prev next : Option ν) : Option (Links ν) := do
  let n ← next
  let l := l.setPrev n (some new)
  let l := l.setNext new next
  let l := l.setPrev new prev
  let p ← prev
  pure (l.setNext p (some new))

def listAdd (l : Links ν) (new head : ν) : Option (Links ν) := listAddBetween l new (some head) (l.next head)

def listAddTail (l : Links ν) (new head : ν) : Option (Links ν) := listAddBetween l new (l.prev head) (some head)

/-- `__list_del`. -/
def listDelBetween (l : Links ν) (prev next : Option ν) : Option (Links ν) := do
  let n ← next
  let l := l.setPrev n prev
  let p ← prev
  pure (l.setNext p next)

def listDel (l : Links ν) (entry : ν) : Option (Links ν) := listDelBetween l (l.prev entry) (l.next entry)

def listEmpty (l : Links ν) (head : ν) : Bool := l.next head == some head

/-- `list_next`: the successor, or NULL in an empty list. -/
def listNext (l : Links ν) (current : ν) : Option ν := if listEmpty l current then none else l.next current

/-! ## On rings -/

section Rings
variable {l : Links ν} {ρ : ν → Option (List ν)} (R : Rings l ρ) {h x : ν}
include R

theorem listEmpty_eq {xs : List ν} (hh : ρ h = some xs) : listEmpty l h = xs.isEmpty := by
  have hnd := R.nodup hh
  unfold listEmpty
  rw [R.next_head hh]
  cases xs with
  | nil => simp
  | cons y ys =>
    have hne : y ≠ h := by
      rintro rfl
      exact (List.nodup_cons.mp hnd).1 List.mem_cons_self
    simp [hne]

theorem listNext_eq {xs : List ν} (hh : ρ h = some xs) : listNext l h = xs.head? := by
  unfold listNext
  rw [listEmpty_eq R hh, R.next_head hh]
  cases xs <;> rfl

/-- `list_add` puts a fresh node first. -/
theorem listAdd_ring {xs : List ν} (hh : ρ h = some xs) (hx : Fresh ρ x) :
    ∃ l', listAdd l x h = some l' ∧ l' = l.splice x h (firstOf xs h) ∧
      Rings l' (Function.update ρ h (some (x :: xs))) := by
  refine ⟨l.splice x h (firstOf xs h), ?_, rfl, Rings.splice [] xs R hh hx⟩
  unfold listAdd
  rw [R.next_head hh]
  rfl

/-- `list_add_tail` on the sentinel puts a fresh node last. -/
theorem listAddTail_ring_head {xs : List ν} (hh : ρ h = some xs) (hx : Fresh ρ x) :
    ∃ l', listAddTail l x h = some l' ∧ l' = l.splice x (lastOf h xs) h ∧
      Rings l' (Function.update ρ h (some (xs ++ [x]))) := by
  refine ⟨l.splice x (lastOf h xs) h, ?_, rfl, Rings.splice xs [] R (by rw [List.append_nil]; exact hh) hx⟩
  unfold listAddTail
  rw [R.prev_head hh]
  rfl

/-- `list_add_tail` on a member puts a fresh node before it. -/
theorem listAddTail_ring_member {as bs : List ν} {y : ν} (hh : ρ h = some (as ++ y :: bs))
    (hx : Fresh ρ x) :
    ∃ l', listAddTail l x y = some l' ∧ l' = l.splice x (lastOf h as) y ∧
      Rings l' (Function.update ρ h (some (as ++ x :: y :: bs))) := by
  refine ⟨l.splice x (lastOf h as) y, ?_, rfl, Rings.splice as (y :: bs) R hh hx⟩
  unfold listAddTail
  rw [((R.seg hh).neighbours).1]
  rfl

/-- `list_del` takes a member out. -/
theorem listDel_ring {as bs : List ν} (hh : ρ h = some (as ++ x :: bs)) :
    ∃ l', listDel l x = some l' ∧ l' = l.cut (lastOf h as) (firstOf bs h) ∧
      Rings l' (Function.update ρ h (some (as ++ bs))) := by
  refine ⟨l.cut (lastOf h as) (firstOf bs h), ?_, rfl, R.cut hh⟩
  unfold listDel
  rw [((R.seg hh).neighbours).1, ((R.seg hh).neighbours).2]
  rfl

end Rings
end Bikaya.Model
