import Mathlib.Logic.Basic

/-!
# Programs with a state, an early exit and faults

`Exec σ ε φ α` : a program over states `σ` that returns an `α`, leaves for good with an `ε` (a jump out
of the whole program), or stops with a fault `φ`. `wp x Q E F s` holds when the run of `x` from `s` ends
in `Q` (return), `E` (exit) or `F` (fault); `F := fun _ => False` makes it a total-correctness triple and
`F := fun _ => True` a partial one. The `wp_*` equations compute it along the program text.
-/

namespace Bikaya.Lib

inductive Outcome (σ ε φ α : Type) where
  | ret (a : α) (s : σ)
  | exit (e : ε) (s : σ)
  | fault (f : φ)

def Exec (σ ε φ α : Type) := σ → Outcome σ ε φ α

namespace Exec
variable {σ τ ε φ α β : Type}

protected def pure (a : α) : Exec σ ε φ α := fun s => .ret a s

protected def bind (x : Exec σ ε φ α) (f : α → Exec σ ε φ β) : Exec σ ε φ β := fun s =>
  match x s with
  | .ret a s' => f a s'
  | .exit e s' => .exit e s'
  | .fault g => .fault g

instance : Monad (Exec σ ε φ) where
  pure := Exec.pure
  bind := Exec.bind

/-- Programs in sequence are bracketed as one likes. -/
theorem bind_bind {γ : Type} (x : Exec σ ε φ α) (f : α → Exec σ ε φ β) (g : β → Exec σ ε φ γ) :
    (x >>= f) >>= g = x >>= fun a => f a >>= g := by
  funext s
  show (match Exec.bind x f s with
    | .ret b s' => g b s'
    | .exit e s' => .exit e s'
    | .fault h => .fault h) = Exec.bind x (fun a => f a >>= g) s
  unfold Exec.bind
  cases x s <;> rfl

/-- The current state. -/
def read : Exec σ ε φ σ := fun s => .ret s s

def modify (f : σ → σ) : Exec σ ε φ Unit := fun s => .ret () (f s)

/-- Leave the whole program. -/
def exit (e : ε) : Exec σ ε φ α := fun s => .exit e s

def fault (f : φ) : Exec σ ε φ α := fun _ => .fault f

/-- The value of an option, or the given fault. -/
def orFault (f : φ) : Option α → Exec σ ε φ α
  | some a => pure a
  | none => fault f

/-- Run a program over a part `τ` of the state; it has no exits of its own. -/
def zoom (get : σ → τ) (set : τ → σ → σ) (x : Exec τ Empty φ α) : Exec σ ε φ α := fun s =>
  match x (get s) with
  | .ret a t => .ret a (set t s)
  | .exit e _ => e.elim
  | .fault f => .fault f

/-- Run `x` when `c` holds. -/
def guarded (c : Bool) (x : Exec σ ε φ Unit) : Exec σ ε φ Unit := if c then x else pure ()

/-- Run `f` on every element, first to last. -/
def forEach (xs : List α) (f : α → Exec σ ε φ Unit) : Exec σ ε φ Unit :=
  match xs with
  | [] => pure ()
  | x :: xs => do
    f x
    forEach xs f

/-- The run of `x` from `s` ends in `Q`, `E` or `F`. -/
def wp (x : Exec σ ε φ α) (Q : α → σ → Prop) (E : ε → σ → Prop) (F : φ → Prop) (s : σ) : Prop :=
  match x s with
  | .ret a s' => Q a s'
  | .exit e s' => E e s'
  | .fault f => F f

section Rules
variable {Q Q' : α → σ → Prop} {E E' : ε → σ → Prop} {F F' : φ → Prop} {s : σ}

@[simp] theorem wp_pure (a : α) : wp (pure a : Exec σ ε φ α) Q E F s ↔ Q a s := Iff.rfl

@[simp] theorem wp_bind (x : Exec σ ε φ β) (f : β → Exec σ ε φ α) :
    wp (x >>= f) Q E F s ↔ wp x (fun b s' => wp (f b) Q E F s') E F s := by
  unfold wp
  change (match Exec.bind x f s with
    | .ret a s' => Q a s'
    | .exit e s' => E e s'
    | .fault g => F g) ↔ _
  unfold Exec.bind
  cases x s <;> rfl

@[simp] theorem wp_read (Q : σ → σ → Prop) : wp (read : Exec σ ε φ σ) Q E F s ↔ Q s s := Iff.rfl

@[simp] theorem wp_modify (Q : Unit → σ → Prop) (f : σ → σ) :
    wp (modify f : Exec σ ε φ Unit) Q E F s ↔ Q () (f s) := Iff.rfl

@[simp] theorem wp_exit (e : ε) : wp (exit e : Exec σ ε φ α) Q E F s ↔ E e s := Iff.rfl

@[simp] theorem wp_fault (f : φ) : wp (fault f : Exec σ ε φ α) Q E F s ↔ F f := Iff.rfl

@[simp] theorem wp_orFault_none (f : φ) :
    wp (orFault f none : Exec σ ε φ α) Q E F s ↔ F f := Iff.rfl

@[simp] theorem wp_guarded (c : Bool) (x : Exec σ ε φ Unit) (Q : Unit → σ → Prop) :
    wp (guarded c x) Q E F s ↔ if c then wp x Q E F s else Q () s := by
  unfold guarded
  cases c <;> simp

theorem wp_ite (c : Prop) [Decidable c] (x y : Exec σ ε φ α) :
    wp (if c then x else y) Q E F s ↔ if c then wp x Q E F s else wp y Q E F s := by
  split <;> rfl

theorem wp_zoom (get : σ → τ) (set : τ → σ → σ) (x : Exec τ Empty φ α) :
    wp (zoom get set x : Exec σ ε φ α) Q E F s ↔
      wp x (fun a t => Q a (set t s)) (fun _ _ => False) F (get s) := by
  unfold wp zoom
  cases x (get s) with
  | ret a t => rfl
  | exit e t => exact e.elim
  | fault f => rfl

theorem wp_mono {x : Exec σ ε φ α} (h : wp x Q E F s) (hQ : ∀ a s', Q a s' → Q' a s')
    (hE : ∀ e s', E e s' → E' e s') (hF : ∀ f, F f → F' f) : wp x Q' E' F' s := by
  unfold wp at *
  cases hx : x s with
  | ret a s' => rw [hx] at h; exact hQ a s' h
  | exit e s' => rw [hx] at h; exact hE e s' h
  | fault f => rw [hx] at h; exact hF f h

/-- The consequence rule where only the return condition is weakened. -/
theorem wp_conseq {x : Exec σ ε φ α} (h : wp x Q E F s) (hQ : ∀ a s', Q a s' → Q' a s') : wp x Q' E F s :=
  wp_mono h hQ (fun _ _ h => h) (fun _ h => h)

/-- The loop rule: `I rest s` is kept by every iteration. -/
theorem wp_forEach {xs : List β} {f : β → Exec σ ε φ Unit} (I : List β → σ → Prop) (h0 : I xs s)
    (hstep : ∀ x rest s, I (x :: rest) s → wp (f x) (fun _ s' => I rest s') E F s) :
    wp (forEach xs f) (fun _ s' => I [] s') E F s := by
  induction xs generalizing s with
  | nil => exact h0
  | cons x xs ih =>
    unfold forEach
    rw [wp_bind]
    exact wp_conseq (hstep x xs s h0) (fun _ s' h => ih h)

end Rules

/-- A run that returns, read off a total-correctness triple. -/
theorem wp_total_noExit {x : Exec σ Empty φ α} {Q : α → σ → Prop} {E : Empty → σ → Prop} {s : σ}
    (h : wp x Q E (fun _ => False) s) : ∃ a s', x s = .ret a s' ∧ Q a s' := by
  unfold wp at h
  cases hx : x s with
  | ret a s' => rw [hx] at h; exact ⟨a, s', rfl, h⟩
  | exit e s' => exact e.elim
  | fault f => rw [hx] at h; exact h.elim

-- Programs are long: from here on a triple is computed by the rules only.
attribute [irreducible] wp

end Exec

/-! ## Runs in sequence -/

section
variable {σ ε φ α β : Type} {x : Exec σ ε φ α} {s t : σ}

theorem bind_ret {f : α → Exec σ ε φ β} {a : α} (h : x s = .ret a t) : (x >>= f) s = f a t := by
  change Exec.bind x f s = _
  unfold Exec.bind
  rw [h]

/-- The result of a program, wrapped up. -/
theorem map_ret (f : α → β) {a : α} (h : x s = .ret a t) : (x >>= fun r => pure (f r)) s = .ret (f a) t := by
  rw [bind_ret h]
  rfl

theorem bind_exit {f : α → Exec σ ε φ β} {e : ε} (h : x s = .exit e t) : (x >>= f) s = .exit e t := by
  change Exec.bind x f s = _
  unfold Exec.bind
  rw [h]

theorem bind_fault {f : α → Exec σ ε φ β} {g : φ} (h : x s = .fault g) : (x >>= f) s = .fault g := by
  change Exec.bind x f s = _
  unfold Exec.bind
  rw [h]

/-- Programs that run alike go on alike. -/
theorem bind_same {y : Exec σ ε φ α} (h : x s = y t) (f : α → Exec σ ε φ β) : (x >>= f) s = (y >>= f) t := by
  change Exec.bind x f s = Exec.bind y f t
  unfold Exec.bind
  rw [h]

theorem orFault_ret {f : φ} (a : α) (s : σ) : (Exec.orFault f (some a) : Exec σ ε φ α) s = .ret a s := rfl

end

/-! ## Triples of runs -/

section
variable {σ ε φ α β : Type} {Q : β → σ → Prop} {E : ε → σ → Prop} {F : φ → Prop} {s t : σ}

theorem wp_ret {x : Exec σ ε φ β} {a : β} (h : x s = .ret a t) (hQ : Q a t) : Exec.wp x Q E F s := by
  unfold Exec.wp
  rw [h]
  exact hQ

theorem wp_bind_ret {x : Exec σ ε φ α} {f : α → Exec σ ε φ β} {a : α} (h : x s = .ret a t)
    (hf : Exec.wp (f a) Q E F t) : Exec.wp (x >>= f) Q E F s := by
  rw [Exec.wp_bind]
  exact wp_ret h hf

/-- A first part that never returns. -/
theorem wp_bind_exits {x : Exec σ ε φ α} {f : α → Exec σ ε φ β} (hx : Exec.wp x (fun _ _ => False) E F s) :
    Exec.wp (x >>= f) Q E F s := by
  rw [Exec.wp_bind]
  exact Exec.wp_conseq hx fun _ _ h => h.elim

/-- A triple of a program that runs alike. -/
theorem wp_same {x y : Exec σ ε φ β} (h : x s = y t) (hy : Exec.wp y Q E F t) : Exec.wp x Q E F s := by
  unfold Exec.wp at *
  rw [h]
  exact hy

/-- A program that fails. -/
theorem wp_of_fault {x : Exec σ ε φ β} {g : φ} (h : x s = .fault g) : Exec.wp x Q E (fun _ => True) s := by
  unfold Exec.wp
  rw [h]
  exact trivial

/-- A run that neither returns nor faults. -/
theorem wp_exits {x : Exec σ ε φ β} (h : Exec.wp x (fun _ _ => False) E (fun _ => False) s) :
    ∃ e s', x s = .exit e s' ∧ E e s' := by
  unfold Exec.wp at h
  cases hx : x s with
  | ret a s' => rw [hx] at h; exact h.elim
  | exit e s' => rw [hx] at h; exact ⟨e, s', rfl, h⟩
  | fault f => rw [hx] at h; exact h.elim

/-- A run that neither exits nor faults. -/
theorem wp_returns {x : Exec σ ε φ β} (h : Exec.wp x Q (fun _ _ => False) F s) (hF : ∀ f, ¬ F f) :
    ∃ a s', x s = .ret a s' ∧ Q a s' := by
  unfold Exec.wp at h
  cases hx : x s with
  | ret a s' => rw [hx] at h; exact ⟨a, s', rfl, h⟩
  | exit e s' => rw [hx] at h; exact h.elim
  | fault f => rw [hx] at h; exact (hF f h).elim

end
end Bikaya.Lib
