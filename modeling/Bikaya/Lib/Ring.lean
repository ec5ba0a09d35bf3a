import Mathlib.Data.List.Nodup
import Mathlib.Logic.Function.Basic

/-!
# Circular doubly linked lists with sentinels

A heap of nodes, each with a `next` and a `prev` field that may be NULL, over an arbitrary type `ν`:

* `Seg l a xs b` : following `next` from `a` visits exactly `xs` and then `b`, and every `prev` on the
  way points back;
* `splice x p n` / `cut p n` : the two pointer surgeries (`x` goes between `p` and `n`; `p` and `n` are
  joined), with what they do to a segment (`Seg.splice`, `Seg.cut`);
* `Rings l ρ` : every sentinel `h` with `ρ h = some xs` heads a ring whose members are `xs`, and all the
  rings are disjoint. A surgery on one ring is an update of `ρ` at its sentinel (`Rings.splice`,
  `Rings.cut`), which is at the same time the frame statement for every other ring.
-/

namespace Bikaya.Lib

variable {ν : Type}

/-- The link fields of all nodes; `none` is NULL. -/
structure Links (ν : Type) where
  next : ν → Option ν
  prev : ν → Option ν

/-- The last node met from `a` through `as`. -/
def lastOf : ν → List ν → ν
  | a, [] => a
  | _, x :: as => lastOf x as

/-- The first node met through `bs` to `b`. -/
def firstOf : List ν → ν → ν
  | [], b => b
  | x :: _, _ => x

@[simp] theorem lastOf_nil (a : ν) : lastOf a [] = a := rfl
@[simp] theorem lastOf_cons (a x : ν) (as : List ν) : lastOf a (x :: as) = lastOf x as := rfl
@[simp] theorem firstOf_nil (b : ν) : firstOf [] b = b := rfl
@[simp] theorem firstOf_cons (x : ν) (bs : List ν) (b : ν) : firstOf (x :: bs) b = x := rfl

@[simp] theorem lastOf_append_singleton (a x : ν) (as : List ν) : lastOf a (as ++ [x]) = x := by
  induction as generalizing a with
  | nil => rfl
  | cons y as ih => exact ih y

theorem firstOf_mem (bs : List ν) (b : ν) : firstOf bs b ∈ bs ++ [b] := by
  cases bs <;> simp

theorem lastOf_mem (a : ν) (as : List ν) : lastOf a as ∈ a :: as := by
  induction as generalizing a with
  | nil => simp
  | cons x as ih => exact List.mem_cons_of_mem _ (ih x)

theorem lastOf_mem_append (h : ν) (as bs : List ν) : lastOf h as ∈ h :: (as ++ bs) := by
  rw [← List.cons_append]
  exact List.mem_append_left _ (lastOf_mem h as)

theorem mem_ring_of_append {h y : ν} {xs : List ν} (hy : y ∈ xs ++ [h]) : y ∈ h :: xs := by
  rw [List.mem_append, List.mem_singleton] at hy
  exact List.mem_cons.mpr hy.symm

theorem firstOf_mem_append (h : ν) (as bs : List ν) : firstOf bs h ∈ h :: (as ++ bs) := by
  rw [List.mem_cons, List.mem_append]
  exact (List.mem_cons.mp (mem_ring_of_append (firstOf_mem bs h))).imp_right Or.inr

namespace Links

/-- `b` is the successor of `a` and `a` the predecessor of `b`. -/
def Linked (l : Links ν) (a b : ν) : Prop := l.next a = some b ∧ l.prev b = some a

/-- From `a` through exactly `xs` to `b`. -/
def Seg (l : Links ν) : ν → List ν → ν → Prop
  | a, [], b => l.Linked a b
  | a, x :: xs, b => l.Linked a x ∧ Seg l x xs b

@[simp] theorem seg_nil (l : Links ν) (a b : ν) : l.Seg a [] b ↔ l.Linked a b := Iff.rfl

@[simp] theorem seg_cons (l : Links ν) (a x : ν) (xs : List ν) (b : ν) :
    l.Seg a (x :: xs) b ↔ l.Linked a x ∧ l.Seg x xs b := Iff.rfl

/-- A segment only reads `next` of its start and members and `prev` of its members and end. -/
theorem Seg.congr {l l' : Links ν} : ∀ {xs : List ν} {a b : ν}, l.Seg a xs b →
    (∀ y ∈ a :: xs, l'.next y = l.next y) → (∀ y ∈ xs ++ [b], l'.prev y = l.prev y) → l'.Seg a xs b := by
  intro xs
  induction xs with
  | nil =>
    intro a b h hn hp
    exact ⟨(hn a (by simp)).trans h.1, (hp b (by simp)).trans h.2⟩
  | cons x xs ih =>
    intro a b h hn hp
    refine ⟨⟨(hn a (by simp)).trans h.1.1, (hp x (by simp)).trans h.1.2⟩, ?_⟩
    exact ih h.2 (fun y hy => hn y (List.mem_cons_of_mem _ hy)) (fun y hy => hp y (by
      rw [List.cons_append]; exact List.mem_cons_of_mem _ hy))

/-- The two neighbours at a cut point of a segment are linked. -/
theorem Seg.linked_at {l : Links ν} : ∀ (as : List ν) {bs : List ν} {a b : ν}, l.Seg a (as ++ bs) b →
    l.Linked (lastOf a as) (firstOf bs b) := by
  intro as
  induction as with
  | nil =>
    intro bs a b h
    cases bs with
    | nil => exact h
    | cons y bs => exact h.1
  | cons x as ih =>
    intro bs a b h
    exact ih h.2

/-- The neighbours of a member. -/
theorem Seg.neighbours {l : Links ν} {as bs : List ν} {x a b : ν} (h : l.Seg a (as ++ x :: bs) b) :
    l.prev x = some (lastOf a as) ∧ l.next x = some (firstOf bs b) := by
  have h1 := h.linked_at as
  have h2 : l.Seg a ((as ++ [x]) ++ bs) b := by simpa using h
  have h3 := h2.linked_at (as ++ [x])
  rw [lastOf_append_singleton] at h3
  exact ⟨h1.2, h3.1⟩

/-- The first step from the start of a segment. -/
theorem Seg.next_start {l : Links ν} {xs : List ν} {a b : ν} (h : l.Seg a xs b) :
    l.next a = some (firstOf xs b) := (h.linked_at []).1

/-- The step back from the end of a segment. -/
theorem Seg.prev_end {l : Links ν} {xs : List ν} {a b : ν} (h : l.Seg a xs b) :
    l.prev b = some (lastOf a xs) := by
  have h' : l.Seg a (xs ++ []) b := by simpa using h
  exact (h'.linked_at xs).2

section Surgery
variable [DecidableEq ν]

def setNext (l : Links ν) (a : ν) (b : Option ν) : Links ν := { l with next := Function.update l.next a b }

def setPrev (l : Links ν) (a : ν) (b : Option ν) : Links ν := { l with prev := Function.update l.prev a b }

@[simp] theorem next_setNext (l : Links ν) (a : ν) (b : Option ν) (y : ν) :
    (l.setNext a b).next y = if y = a then b else l.next y := by
  simp only [setNext, Function.update_apply]

@[simp] theorem prev_setNext (l : Links ν) (a : ν) (b : Option ν) (y : ν) :
    (l.setNext a b).prev y = l.prev y := rfl

@[simp] theorem next_setPrev (l : Links ν) (a : ν) (b : Option ν) (y : ν) :
    (l.setPrev a b).next y = l.next y := rfl

@[simp] theorem prev_setPrev (l : Links ν) (a : ν) (b : Option ν) (y : ν) :
    (l.setPrev a b).prev y = if y = a then b else l.prev y := by
  simp only [setPrev, Function.update_apply]

/-- `x` is put between `p` and `n`. -/
def splice (l : Links ν) (x p n : ν) : Links ν :=
  (((l.setPrev n (some x)).setNext x (some n)).setPrev x (some p)).setNext p (some x)

/-- `p` and `n` are joined; what stood between them is left as it is. -/
def cut (l : Links ν) (p n : ν) : Links ν := (l.setPrev n (some p)).setNext p (some n)

/-- `h` becomes its own neighbour. -/
def loop (l : Links ν) (h : ν) : Links ν := (l.setNext h (some h)).setPrev h (some h)

/-- Putting a fresh node between two neighbours of a segment. -/
theorem Seg.splice {l : Links ν} {x : ν} : ∀ {as bs : List ν} {a b : ν}, l.Seg a (as ++ bs) b →
    (as ++ bs).Nodup → a ∉ as ++ bs → b ∉ as ++ bs → x ≠ a → x ≠ b → x ∉ as ++ bs →
    (l.splice x (lastOf a as) (firstOf bs b)).Seg a (as ++ x :: bs) b := by
  intro as
  induction as with
  | nil =>
    intro bs a b h hnd ha hb hxa hxb hx
    simp only [List.nil_append, lastOf_nil] at *
    refine ⟨⟨?_, ?_⟩, ?_⟩
    · simp [Links.splice]
    · simp [Links.splice]
    cases bs with
    | nil => exact ⟨by simp [Links.splice, hxa], by simp [Links.splice, Ne.symm hxb]⟩
    | cons n bs =>
      simp only [List.mem_cons, not_or] at ha hb hx
      have hnd' := List.nodup_cons.mp hnd
      refine ⟨⟨?_, ?_⟩, h.2.congr (fun y hy => ?_) (fun y hy => ?_)⟩
      · simp [Links.splice, hxa]
      · simp [Links.splice, Ne.symm hx.1]
      · have hya : y ≠ a := by
          rintro rfl
          rcases List.mem_cons.mp hy with rfl | hy
          · exact ha.1 rfl
          · exact ha.2 hy
        have hyx : y ≠ x := by
          rintro rfl
          rcases List.mem_cons.mp hy with rfl | hy
          · exact hx.1 rfl
          · exact hx.2 hy
        simp [Links.splice, hya, hyx]
      · have hyn : y ≠ n := by
          rintro rfl
          rcases List.mem_append.mp hy with hy | hy
          · exact hnd'.1 hy
          · exact hb.1 (List.mem_singleton.mp hy).symm
        have hyx : y ≠ x := by
          rintro rfl
          rcases List.mem_append.mp hy with hy | hy
          · exact hx.2 hy
          · exact hxb (List.mem_singleton.mp hy)
        simp [Links.splice, hyn, hyx]
  | cons z as ih =>
    intro bs a b h hnd ha hb hxa hxb hx
    simp only [List.cons_append, List.mem_cons, not_or, List.nodup_cons] at hnd ha hb hx
    refine ⟨⟨?_, ?_⟩, ih h.2 hnd.2 hnd.1 hb.2 hx.1 hxb hx.2⟩
    · have hap : a ≠ lastOf z as := by
        intro he
        rcases List.mem_cons.mp (he ▸ lastOf_mem _ _ : a ∈ z :: as) with rfl | hm
        · exact ha.1 rfl
        · exact ha.2 (List.mem_append_left _ hm)
      simp [Links.splice, hap, Ne.symm hxa, h.1.1]
    · have hzn : z ≠ firstOf bs b := by
        intro he
        rcases List.mem_append.mp (he ▸ firstOf_mem _ _ : z ∈ bs ++ [b]) with hm | hm
        · exact hnd.1 (List.mem_append_right _ hm)
        · exact hb.1 (List.mem_singleton.mp hm).symm
      simp [Links.splice, hzn, Ne.symm hx.1, h.1.2]

/-- Joining the neighbours of a member takes exactly that member out of a segment. -/
theorem Seg.cut {l : Links ν} {x : ν} : ∀ {as bs : List ν} {a b : ν}, l.Seg a (as ++ x :: bs) b →
    (as ++ x :: bs).Nodup → a ∉ as ++ x :: bs → b ∉ as ++ x :: bs →
    (l.cut (lastOf a as) (firstOf bs b)).Seg a (as ++ bs) b := by
  intro as
  induction as with
  | nil =>
    intro bs a b h hnd ha hb
    simp only [List.nil_append, lastOf_nil, List.mem_cons, not_or, List.nodup_cons] at *
    cases bs with
    | nil => exact ⟨by simp [Links.cut], by simp [Links.cut]⟩
    | cons n bs =>
      simp only [List.mem_cons, not_or, List.nodup_cons] at ha hb hnd
      refine ⟨⟨by simp [Links.cut], by simp [Links.cut]⟩, h.2.2.congr (fun y hy => ?_) (fun y hy => ?_)⟩
      · have hya : y ≠ a := by
          rintro rfl
          rcases List.mem_cons.mp hy with rfl | hy
          · exact ha.2.1 rfl
          · exact ha.2.2 hy
        simp [Links.cut, hya]
      · have hyn : y ≠ n := by
          rintro rfl
          rcases List.mem_append.mp hy with hy | hy
          · exact hnd.2.1 hy
          · exact hb.2.1 (List.mem_singleton.mp hy).symm
        simp [Links.cut, hyn]
  | cons z as ih =>
    intro bs a b h hnd ha hb
    simp only [List.cons_append, List.mem_cons, not_or, List.nodup_cons] at hnd ha hb
    refine ⟨⟨?_, ?_⟩, ih h.2 hnd.2 hnd.1 hb.2⟩
    · have hap : a ≠ lastOf z as := by
        intro he
        rcases List.mem_cons.mp (he ▸ lastOf_mem _ _ : a ∈ z :: as) with rfl | hm
        · exact ha.1 rfl
        · exact ha.2 (List.mem_append_left _ hm)
      simp [Links.cut, hap, h.1.1]
    · have hzn : z ≠ firstOf bs b := by
        intro he
        rcases List.mem_append.mp (he ▸ firstOf_mem _ _ : z ∈ bs ++ [b]) with hm | hm
        · exact hnd.1 (List.mem_append_right _ (List.mem_cons_of_mem _ hm))
        · exact hb.1 (List.mem_singleton.mp hm).symm
      simp [Links.cut, hzn, h.1.2]

@[simp] theorem next_splice (l : Links ν) (x p n y : ν) :
    (l.splice x p n).next y = if y = p then some x else if y = x then some n else l.next y := by
  simp [splice]

@[simp] theorem prev_splice (l : Links ν) (x p n y : ν) :
    (l.splice x p n).prev y = if y = x then some p else if y = n then some x else l.prev y := by
  simp [splice]

@[simp] theorem next_cut (l : Links ν) (p n y : ν) :
    (l.cut p n).next y = if y = p then some n else l.next y := by
  simp [cut]

@[simp] theorem prev_cut (l : Links ν) (p n y : ν) :
    (l.cut p n).prev y = if y = n then some p else l.prev y := by
  simp [cut]

/-- Cutting a member out of a ring writes no `next` outside the ring, and not the member's own. -/
theorem next_cut_of_not_mem (l : Links ν) {h y : ν} {as bs : List ν} (hy : y ∉ h :: as) :
    (l.cut (lastOf h as) (firstOf bs h)).next y = l.next y := by
  rw [next_cut, if_neg]
  rintro rfl
  exact hy (lastOf_mem h as)

@[simp] theorem next_loop (l : Links ν) (h y : ν) :
    (l.loop h).next y = if y = h then some h else l.next y := by
  simp [loop]

@[simp] theorem prev_loop (l : Links ν) (h y : ν) :
    (l.loop h).prev y = if y = h then some h else l.prev y := by
  simp [loop]

end Surgery
end Links

/-! ## Families of disjoint rings -/

/-- `x` is neither a sentinel of the family nor a member of one of its rings. -/
def Fresh (ρ : ν → Option (List ν)) (x : ν) : Prop := ∀ h xs, ρ h = some xs → x ∉ h :: xs

theorem Fresh.ne {ρ : ν → Option (List ν)} {x h : ν} {xs : List ν} (hx : Fresh ρ x) (hh : ρ h = some xs) :
    x ≠ h := fun e => hx h xs hh (e ▸ List.mem_cons_self)

theorem Fresh.not_mem {ρ : ν → Option (List ν)} {x h : ν} {xs : List ν} (hx : Fresh ρ x)
    (hh : ρ h = some xs) : x ∉ xs := fun e => hx h xs hh (List.mem_cons_of_mem _ e)

theorem Fresh.update [DecidableEq ν] {ρ : ν → Option (List ν)} {x h : ν} {ys : List ν} (hx : Fresh ρ x)
    (hys : x ∉ h :: ys) : Fresh (Function.update ρ h (some ys)) x := by
  intro h' zs hz
  by_cases he : h' = h
  · subst he
    rw [Function.update_self] at hz
    cases hz
    exact hys
  · rw [Function.update_of_ne he] at hz
    exact hx h' zs hz

/-- Every sentinel of the family heads its ring, and the rings are disjoint. -/
structure Rings (l : Links ν) (ρ : ν → Option (List ν)) : Prop where
  seg : ∀ {h xs}, ρ h = some xs → l.Seg h xs h
  nodup : ∀ {h xs}, ρ h = some xs → (h :: xs).Nodup
  disj : ∀ {h xs h' xs'}, ρ h = some xs → ρ h' = some xs' → h ≠ h' → ∀ y ∈ h :: xs, y ∉ h' :: xs'

namespace Rings

/-- A family with fewer sentinels. -/
theorem mono {l : Links ν} {ρ ρ' : ν → Option (List ν)} (R : Rings l ρ)
    (hsub : ∀ h xs, ρ' h = some xs → ρ h = some xs) : Rings l ρ' :=
  ⟨fun h => R.seg (hsub _ _ h), fun h => R.nodup (hsub _ _ h),
    fun h h' hne => R.disj (hsub _ _ h) (hsub _ _ h') hne⟩

theorem next_head {l : Links ν} {ρ : ν → Option (List ν)} (R : Rings l ρ) {h : ν} {xs : List ν}
    (hh : ρ h = some xs) : l.next h = some (firstOf xs h) := (R.seg hh).next_start

theorem prev_head {l : Links ν} {ρ : ν → Option (List ν)} (R : Rings l ρ) {h : ν} {xs : List ν}
    (hh : ρ h = some xs) : l.prev h = some (lastOf h xs) := (R.seg hh).prev_end

/-- Two members of rings that coincide are members of the same ring. -/
theorem head_unique {l : Links ν} {ρ : ν → Option (List ν)} (R : Rings l ρ) {h k x : ν} {xs xs' : List ν}
    (hh : ρ h = some xs) (hk : ρ k = some xs') (hx : x ∈ xs) (hx' : x ∈ xs') : h = k := by
  by_contra hne
  exact R.disj hh hk hne x (List.mem_cons_of_mem _ hx) (List.mem_cons_of_mem _ hx')

/-- Links of fresh nodes do not matter. -/
theorem frame {l l' : Links ν} {ρ : ν → Option (List ν)} (R : Rings l ρ)
    (hl : ∀ y, ¬ Fresh ρ y → l'.next y = l.next y ∧ l'.prev y = l.prev y) : Rings l' ρ := by
  refine ⟨fun {h xs} hh => ?_, R.nodup, R.disj⟩
  have hin : ∀ y ∈ h :: xs, ¬ Fresh ρ y := fun y hy hf => hf h xs hh hy
  exact (R.seg hh).congr (fun y hy => (hl y (hin y hy)).1)
    (fun y hy => (hl y (hin y (mem_ring_of_append hy))).2)

section Surgery
variable [DecidableEq ν]

/-- A surgery that leaves the links of every other ring alone gives the updated family. -/
theorem update_of {l l' : Links ν} {ρ : ν → Option (List ν)} {h : ν} {xs ys : List ν} (R : Rings l ρ)
    (hh : ρ h = some xs) (hseg : l'.Seg h ys h) (hnd : (h :: ys).Nodup)
    (hnew : ∀ y ∈ ys, y ∈ xs ∨ Fresh ρ y)
    (hframe : ∀ h' zs, ρ h' = some zs → h ≠ h' → ∀ y ∈ h' :: zs, l'.next y = l.next y ∧ l'.prev y = l.prev y) :
    Rings l' (Function.update ρ h (some ys)) := by
  have hout : ∀ h' zs, ρ h' = some zs → h ≠ h' → ∀ y ∈ h :: ys, y ∉ h' :: zs := by
    intro h' zs hz hne y hy
    rcases List.mem_cons.mp hy with rfl | hy
    · exact R.disj hh hz hne y (List.mem_cons_self)
    · rcases hnew y hy with hm | hf
      · exact R.disj hh hz hne y (List.mem_cons_of_mem _ hm)
      · exact hf h' zs hz
  refine ⟨fun {h'} zs hz => ?_, fun {h'} zs hz => ?_, fun {h₁ zs₁ h₂ zs₂} hz₁ hz₂ hne y hy => ?_⟩
  · by_cases he : h' = h
    · subst he
      rw [Function.update_self] at hz
      cases hz
      exact hseg
    · rw [Function.update_of_ne he] at hz
      refine (R.seg hz).congr (fun y hy => (hframe h' zs hz (Ne.symm he) y hy).1) (fun y hy => ?_)
      exact (hframe h' zs hz (Ne.symm he) y (mem_ring_of_append hy)).2
  · by_cases he : h' = h
    · subst he
      rw [Function.update_self] at hz
      cases hz
      exact hnd
    · rw [Function.update_of_ne he] at hz
      exact R.nodup hz
  · by_cases h1 : h₁ = h
    · subst h1
      rw [Function.update_self] at hz₁
      rw [Function.update_of_ne (Ne.symm hne)] at hz₂
      cases hz₁
      exact hout h₂ zs₂ hz₂ hne y hy
    · rw [Function.update_of_ne h1] at hz₁
      by_cases h2 : h₂ = h
      · subst h2
        rw [Function.update_self] at hz₂
        cases hz₂
        exact fun hy' => hout h₁ zs₁ hz₁ (Ne.symm hne) y hy' hy
      · rw [Function.update_of_ne h2] at hz₂
        exact R.disj hz₁ hz₂ hne y hy

/-- A fresh node is put into a ring. -/
theorem splice {l : Links ν} {ρ : ν → Option (List ν)} {h x : ν} (as bs : List ν) (R : Rings l ρ)
    (hh : ρ h = some (as ++ bs)) (hx : Fresh ρ x) :
    Rings (l.splice x (lastOf h as) (firstOf bs h)) (Function.update ρ h (some (as ++ x :: bs))) := by
  have hnd := R.nodup hh
  rw [List.nodup_cons] at hnd
  have hxh := hx.ne hh
  have hxm := hx.not_mem hh
  have hlast := lastOf_mem_append h as bs
  have hfirst := firstOf_mem_append h as bs
  refine R.update_of hh ((R.seg hh).splice hnd.2 hnd.1 hnd.1 hxh hxh hxm) ?_ ?_ ?_
  · rw [List.nodup_cons, List.nodup_middle, List.nodup_cons]
    refine ⟨fun hm => ?_, hxm, hnd.2⟩
    rcases List.mem_append.mp hm with hm | hm
    · exact hnd.1 (List.mem_append_left _ hm)
    · rcases List.mem_cons.mp hm with he | hm
      · exact hxh he.symm
      · exact hnd.1 (List.mem_append_right _ hm)
  · intro y hy
    rcases List.mem_append.mp hy with hm | hm
    · exact Or.inl (List.mem_append_left _ hm)
    · rcases List.mem_cons.mp hm with rfl | hm
      · exact Or.inr hx
      · exact Or.inl (List.mem_append_right _ hm)
  · intro h' zs hz hne y hy
    have hyx : y ≠ x := fun e => hx h' zs hz (e ▸ hy)
    have hyl : y ≠ lastOf h as := by
      rintro rfl
      exact R.disj hh hz hne _ hlast hy
    have hyf : y ≠ firstOf bs h := by
      rintro rfl
      exact R.disj hh hz hne _ hfirst hy
    constructor
    · rw [Links.next_splice, if_neg hyl, if_neg hyx]
    · rw [Links.prev_splice, if_neg hyx, if_neg hyf]

/-- A member is taken out of its ring. -/
theorem cut {l : Links ν} {ρ : ν → Option (List ν)} {h x : ν} {as bs : List ν} (R : Rings l ρ)
    (hh : ρ h = some (as ++ x :: bs)) :
    Rings (l.cut (lastOf h as) (firstOf bs h)) (Function.update ρ h (some (as ++ bs))) := by
  have hnd := R.nodup hh
  rw [List.nodup_cons] at hnd
  have hsub : ∀ y ∈ as ++ bs, y ∈ as ++ x :: bs := by
    intro y hy
    rcases List.mem_append.mp hy with hm | hm
    · exact List.mem_append_left _ hm
    · exact List.mem_append_right _ (List.mem_cons_of_mem _ hm)
  have hlast := lastOf_mem_append h as (x :: bs)
  have hfirst : firstOf bs h ∈ h :: (as ++ x :: bs) :=
    (List.mem_cons.mp (firstOf_mem_append h as bs)).elim (fun e => List.mem_cons.mpr (Or.inl e))
      (fun hm => List.mem_cons_of_mem _ (hsub _ hm))
  refine R.update_of hh ((R.seg hh).cut hnd.2 hnd.1 hnd.1) ?_ (fun y hy => Or.inl (hsub y hy)) ?_
  · rw [List.nodup_cons]
    exact ⟨fun hm => hnd.1 (hsub _ hm), (List.nodup_cons.mp (List.nodup_middle.mp hnd.2)).2⟩
  · intro h' zs hz hne y hy
    have hyl : y ≠ lastOf h as := by
      rintro rfl
      exact R.disj hh hz hne _ hlast hy
    have hyf : y ≠ firstOf bs h := by
      rintro rfl
      exact R.disj hh hz hne _ hfirst hy
    constructor
    · rw [Links.next_cut, if_neg hyl]
    · rw [Links.prev_cut, if_neg hyf]

/-- A member that was taken out of its ring is fresh. -/
theorem fresh_of_cut {l : Links ν} {ρ : ν → Option (List ν)} {h x : ν} {as bs : List ν} (R : Rings l ρ)
    (hh : ρ h = some (as ++ x :: bs)) (hx : ρ x = none) :
    Fresh (Function.update ρ h (some (as ++ bs))) x := by
  have hmem : x ∈ h :: (as ++ x :: bs) :=
    List.mem_cons_of_mem _ (List.mem_append_right _ List.mem_cons_self)
  have hnd := R.nodup hh
  rw [List.nodup_cons, List.nodup_middle, List.nodup_cons] at hnd
  intro h' zs hz hm
  by_cases he : h' = h
  · subst he
    rw [Function.update_self] at hz
    cases hz
    rcases List.mem_cons.mp hm with rfl | hm
    · rw [hx] at hh
      cases hh
    · exact hnd.2.1 hm
  · rw [Function.update_of_ne he] at hz
    exact R.disj hh hz (Ne.symm he) x hmem hm

/-- A fresh node becomes the sentinel of an empty ring. -/
theorem loop {l : Links ν} {ρ : ν → Option (List ν)} {h : ν} (R : Rings l ρ) (hx : Fresh ρ h) :
    Rings (l.loop h) (Function.update ρ h (some [])) := by
  have R' : Rings (l.loop h) ρ := R.frame fun y hy => by
    have hne : y ≠ h := fun e => hy (e ▸ hx)
    rw [Links.next_loop, Links.prev_loop, if_neg hne, if_neg hne]
    exact ⟨rfl, rfl⟩
  refine ⟨fun {h'} xs hz => ?_, fun {h'} xs hz => ?_, fun {h₁ zs₁ h₂ zs₂} hz₁ hz₂ hne y hy => ?_⟩
  · by_cases he : h' = h
    · subst he
      rw [Function.update_self] at hz
      cases hz
      exact ⟨by simp, by simp⟩
    · rw [Function.update_of_ne he] at hz
      exact R'.seg hz
  · by_cases he : h' = h
    · subst he
      rw [Function.update_self] at hz
      cases hz
      simp
    · rw [Function.update_of_ne he] at hz
      exact R'.nodup hz
  · by_cases h1 : h₁ = h
    · subst h1
      rw [Function.update_self] at hz₁
      rw [Function.update_of_ne (Ne.symm hne)] at hz₂
      cases hz₁
      rw [List.mem_singleton] at hy
      subst hy
      exact hx h₂ zs₂ hz₂
    · rw [Function.update_of_ne h1] at hz₁
      by_cases h2 : h₂ = h
      · subst h2
        rw [Function.update_self] at hz₂
        cases hz₂
        rw [List.mem_singleton]
        rintro rfl
        exact hx h₁ zs₁ hz₁ hy
      · rw [Function.update_of_ne h2] at hz₂
        exact R'.disj hz₁ hz₂ hne y hy

/-- An empty ring that is made anew stays as it is. -/
theorem loop_empty {l : Links ν} {ρ : ν → Option (List ν)} {h : ν} (R : Rings l ρ) (hh : ρ h = some []) :
    Rings (l.loop h) ρ := by
  refine R.frame fun y _ => ?_
  rw [Links.next_loop, Links.prev_loop]
  by_cases hy : y = h
  · subst hy
    rw [if_pos rfl, if_pos rfl, R.next_head hh, R.prev_head hh]
    exact ⟨rfl, rfl⟩
  · rw [if_neg hy, if_neg hy]
    exact ⟨rfl, rfl⟩

end Surgery
end Rings
end Bikaya.Lib
