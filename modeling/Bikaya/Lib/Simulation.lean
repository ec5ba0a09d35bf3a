import Mathlib.Logic.Basic

/-!
# Labelled transition systems and abstractions of them

`M.Trace tr s` : the run of `M` with the labels `tr`, latest first, leads to `s`; `M.Reach s` : some run does;
`M.Path s₀ tr s` : a run leads from `s₀` to `s`. `Trace.keeps` is induction over a run. An `Abstraction` maps the
states of one system to those of another, where an invariant of the first holds, so that every step is a step with the
same label: then the runs of the first are runs of the second (`Abstraction.trace`, `Abstraction.path`), also with a
`ghost` that only observes.
-/

namespace Bikaya.Lib

variable {σ τ ε : Type}

structure Lts (σ ε : Type) where
  init : σ → Prop
  step : σ → ε → σ → Prop

namespace Lts
variable {M : Lts σ ε} {N : Lts τ ε}

inductive Trace (M : Lts σ ε) : List ε → σ → Prop where
  | init {s : σ} : M.init s → Trace M [] s
  | step {tr : List ε} {s s' : σ} {a : ε} : Trace M tr s → M.step s a s' → Trace M (a :: tr) s'

def Reach (M : Lts σ ε) (s : σ) : Prop := ∃ tr, M.Trace tr s

theorem Trace.reach {tr : List ε} {s : σ} (h : M.Trace tr s) : M.Reach s := ⟨tr, h⟩

/-- What the first states satisfy and the steps between reachable states keep. -/
theorem Trace.keeps {I : List ε → σ → Prop} (hinit : ∀ {s}, M.init s → I [] s)
    (hstep : ∀ {tr s a s'}, M.Trace tr s → I tr s → M.step s a s' → I (a :: tr) s') {tr : List ε} {s : σ}
    (h : M.Trace tr s) : I tr s := by
  induction h with
  | init h => exact hinit h
  | step h hs ih => exact hstep h ih hs

/-- The same for properties of states. -/
theorem Reach.keeps {I : σ → Prop} (hinit : ∀ {s}, M.init s → I s)
    (hstep : ∀ {s a s'}, M.Reach s → I s → M.step s a s' → I s') {s : σ} (h : M.Reach s) : I s := by
  obtain ⟨tr, h⟩ := h
  exact h.keeps (I := fun _ s => I s) hinit fun htr => hstep htr.reach

/-- A run from `s₀` to `s`: its steps, latest first, each with the state before it. -/
inductive Path (M : Lts σ ε) (s₀ : σ) : List (σ × ε) → σ → Prop where
  | refl : Path M s₀ [] s₀
  | step {tr : List (σ × ε)} {s s' : σ} {a : ε} : Path M s₀ tr s → M.step s a s' → Path M s₀ ((s, a) :: tr) s'

/-- What the steps of a path keep. -/
theorem Path.keeps {I : σ → Prop} {s₀ s : σ} {tr : List (σ × ε)} (h : M.Path s₀ tr s)
    (hstep : ∀ {s a s'}, I s → M.step s a s' → I s') (h₀ : I s₀) : I s := by
  induction h with
  | refl => exact h₀
  | step _ hs ih => exact hstep ih hs

theorem Path.reach {s₀ s : σ} {tr : List (σ × ε)} (h : M.Path s₀ tr s) (h₀ : M.Reach s₀) : M.Reach s := by
  refine h.keeps (I := M.Reach) (fun hr hs => ?_) h₀
  obtain ⟨tr, htr⟩ := hr
  exact ⟨_, htr.step hs⟩

/-- `M` with a ghost: `ok` may forbid a step, `upd` says what becomes of the ghost. -/
def ghost {γ : Type} (M : Lts σ ε) (g₀ : γ) (ok : σ → γ → ε → Prop) (upd : σ → ε → σ → γ → γ) : Lts (σ × γ) ε where
  init x := M.init x.1 ∧ x.2 = g₀
  step x a y := M.step x.1 a y.1 ∧ ok x.1 x.2 a ∧ y.2 = upd x.1 a y.1 x.2

/-- Steps of `M` are steps of `N`, seen through `f`, where `I` holds. -/
structure Abstraction (M : Lts σ ε) (N : Lts τ ε) (I : σ → Prop) (f : σ → τ) : Prop where
  init : ∀ {s}, M.init s → I s ∧ N.init (f s)
  step : ∀ {s a s'}, I s → M.step s a s' → I s' ∧ N.step (f s) a (f s')

namespace Abstraction
variable {I : σ → Prop} {f : σ → τ} {tr : List ε} {s : σ}

theorem trace (h : Abstraction M N I f) (htr : M.Trace tr s) : I s ∧ N.Trace tr (f s) := by
  induction htr with
  | init h₀ =>
    obtain ⟨hI, hN⟩ := h.init h₀
    exact ⟨hI, .init hN⟩
  | step _ hs ih =>
    obtain ⟨hI, hN⟩ := h.step ih.1 hs
    exact ⟨hI, ih.2.step hN⟩

theorem reach (h : Abstraction M N I f) (hs : M.Reach s) : N.Reach (f s) := by
  obtain ⟨tr, htr⟩ := hs
  exact (h.trace htr).2.reach

theorem path {s₀ : σ} {tr : List (σ × ε)} (h : Abstraction M N I f) (h₀ : I s₀) (hp : M.Path s₀ tr s) :
    I s ∧ N.Path (f s₀) (tr.map fun x => (f x.1, x.2)) (f s) := by
  induction hp with
  | refl => exact ⟨h₀, .refl⟩
  | step _ hs ih =>
    obtain ⟨hI, hN⟩ := h.step ih.1 hs
    exact ⟨hI, ih.2.step hN⟩

/-- A ghost that is read off the abstract states goes along. -/
theorem ghost {γ : Type} (h : Abstraction M N I f) (g₀ : γ) (ok : τ → γ → ε → Prop) (upd : τ → ε → τ → γ → γ) :
    Abstraction (M.ghost g₀ (fun s => ok (f s)) fun s a s' => upd (f s) a (f s')) (N.ghost g₀ ok upd)
      (fun x => I x.1) fun x => (f x.1, x.2) where
  init hx := ⟨(h.init hx.1).1, (h.init hx.1).2, hx.2⟩
  step hI hs := ⟨(h.step hI hs.1).1, (h.step hI hs.1).2, hs.2⟩

end Abstraction
end Lts
end Bikaya.Lib
