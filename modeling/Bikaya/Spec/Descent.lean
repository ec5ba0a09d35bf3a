import Bikaya.Spec.Steps

/-!
# Descent

`Rooted` : every parent lives, and every live process descends from the first one. Every move keeps it. So with the
first process all others die (`Rooted.all_dead`), and a system without processes stays so and idles (`dead_step`).
-/

namespace Bikaya.Spec
open Bikaya.Lib Bikaya.Model

variable {T : Target} {cfg : Cfg T}

/-- The process that the boot starts. -/
def firstPid : Pid := maxProc - 1

structure Rooted (S : System T) : Prop where
  parent_lives : ∀ {p c}, S.Child p c → S.process p ≠ none
  descends : ∀ {p}, S.process p ≠ none → Desc S.Child firstPid p
  root : S.parent firstPid = none

namespace Rooted
variable {S S' : System T} {p : Pid}

/-- Parents and lives are the same. -/
theorem congr (h : Rooted S) (hparent : ∀ p, S'.parent p = S.parent p)
    (hlives : ∀ p, S'.process p ≠ none ↔ S.process p ≠ none) : Rooted S' := by
  have hchild : S'.Child = S.Child := by
    funext p c
    simp only [System.Child, hparent]
  refine ⟨fun hc => (hlives _).mpr (h.parent_lives (hchild ▸ hc)), fun hp => ?_, (hparent _).trans h.root⟩
  rw [hchild]
  exact h.descends ((hlives _).mp hp)

/-- While anything lives the first process does. -/
theorem first_lives (h : Rooted S) (hp : S.process p ≠ none) : S.process firstPid ≠ none := by
  rcases Relation.ReflTransGen.cases_head (h.descends hp) with he | ⟨c, hc, -⟩
  · exact he ▸ hp
  · exact h.parent_lives hc

/-- With the first process all others die. -/
theorem all_dead (h : Rooted S) (hdead : S.process firstPid = none) (p : Pid) : S.process p = none := by
  by_contra hp
  exact h.first_lives hp hdead

theorem born {parent : Pid} {x : Process T} (h : Rooted S) (hdead : S.process p = none)
    (hlive : S.process parent ≠ none) (hx : x.parent = some parent) :
    Rooted { S with process := Function.update S.process p (some x) } := by
  have hfirst : firstPid ≠ p := fun he => h.first_lives hlive (he ▸ hdead)
  have hne : parent ≠ p := fun he => hlive (he ▸ hdead)
  have hparent : ∀ r, ({ S with process := Function.update S.process p (some x) } : System T).parent r =
      if r = p then some parent else S.parent r := by
    intro r
    by_cases hr : r = p <;> simp [System.parent, hr, hx]
  have hnone : S.parent p = none := by simp [System.parent, hdead]
  have hsub : ∀ a c, S.Child a c → ({ S with process := Function.update S.process p (some x) } : System T).Child a c := by
    intro a c hc
    have hcp : c ≠ p := by
      rintro rfl
      simp [System.Child, hnone] at hc
    simpa [System.Child, hparent, hcp] using hc
  refine ⟨fun {a c} hc => ?_, fun {r} hr => ?_, ?_⟩
  · by_cases ha : a = p
    · simp [ha]
    · simp only [Function.update_of_ne ha]
      by_cases hcp : c = p
      · simp only [System.Child, hparent, if_pos hcp, Option.some.injEq] at hc
        exact hc ▸ hlive
      · simp only [System.Child, hparent, if_neg hcp] at hc
        exact h.parent_lives hc
  · by_cases hrp : r = p
    · refine ((h.descends hlive).mono hsub).tail ?_
      simp [System.Child, hparent, hrp]
    · simp only [Function.update_of_ne hrp] at hr
      exact (h.descends hr).mono hsub
  · rw [hparent, if_neg hfirst, h.root]

theorem kill (h : Rooted S) (p : Pid) : Rooted (S.kill p) := by
  have hup : ∀ a c, S.Child a c → S.spared p c = true → S.spared p a = true := by
    intro a c hc hs
    rw [System.spared_iff] at hs ⊢
    exact fun hd => hs (hd.tail hc)
  have hchild : (S.kill p).Child = fun a c => S.Child a c ∧ S.spared p c = true := by
    funext a c
    unfold System.Child System.parent System.kill
    cases hs : S.spared p c <;> simp [hs]
  have hlives : ∀ r, (S.kill p).process r ≠ none ↔ S.process r ≠ none ∧ S.spared p r = true := by
    intro r
    unfold System.kill
    cases hr : S.spared p r <;> simp [hr]
  refine ⟨fun {a c} hc => ?_, fun {r} hr => ?_, ?_⟩
  · rw [hchild] at hc
    exact (hlives a).mpr ⟨h.parent_lives hc.1, hup a c hc.1 hc.2⟩
  · rw [hchild]
    obtain ⟨hr, hs⟩ := (hlives r).mp hr
    exact (h.descends hr).within hup hs
  · have hroot := h.root
    unfold System.parent System.kill at *
    cases hs : S.spared p firstPid <;> simp [hs, hroot]

end Rooted

theorem rooted_boot (cfg : Cfg T) : Rooted (.boot cfg) := by
  have hparent : ∀ p, (System.boot cfg).parent p = none := by
    intro p
    by_cases hp : p = maxProc - 1
    · subst hp
      simp [System.parent, System.boot]
    · simp only [System.parent, System.boot, Function.update_of_ne hp, Option.bind_none]
  refine ⟨fun {a c} hc => ?_, fun {p} hp => ?_, hparent _⟩
  · simp [System.Child, hparent] at hc
  · by_cases he : p = maxProc - 1
    · exact he ▸ Relation.ReflTransGen.refl
    · simp only [System.boot, Function.update_of_ne he, ne_eq, not_true_eq_false] at hp

theorem rooted_move {S S' : System T} {o o' : Option Pid} (hm : Move cfg S o S' o') (hfit : Fit S o) (h : Rooted S) :
    Rooted S' := by
  cases hm with
  | memory _ => exact h.congr (fun _ => rfl) fun _ => Iff.rfl
  | devices _ => exact h.congr (fun _ => rfl) fun _ => Iff.rfl
  | adjust hf => exact h.congr (parent_alter S fun x => (hf x).2.2) (process_alter_ne_none S _ _)
  | stop _ => exact h.congr (fun _ => rfl) fun _ => Iff.rfl
  | pop _ => exact h.congr (fun _ => rfl) fun _ => Iff.rfl
  | wake => exact h.congr (parent_alter S fun _ => rfl) (process_alter_ne_none S _ _)
  | wait _ => exact h.congr (fun _ => rfl) fun _ => Iff.rfl
  | age =>
    refine h.congr (fun p => ?_) fun p => ?_
    · cases hx : S.process p <;> by_cases hp : p ∈ S.ready <;> simp [System.parent, System.age, hp, hx]
    · by_cases hp : p ∈ S.ready <;> simp [System.age, hp]
  | born hdead _ hrun hx => exact h.born hdead (hfit.alive (a := .running) hrun) hx
  | load _ _ => exact h.congr (fun _ => rfl) fun _ => Iff.rfl
  | kill p => exact h.kill p

/-- Every live process descends from the first one. -/
theorem reach_rooted {ok : System T → Entry T → Prop} {S : System T} (h : (abstractKernel cfg ok).Reach S) :
    Rooted S := by
  have hkeep := reach_keeps (I := fun S o => Fit S o ∧ Rooted S) ⟨fit_boot cfg, rooted_boot cfg⟩
    (fun hm hI => ⟨fit_move hm hI.1, rooted_move hm hI.1 hI.2⟩) h
  exact hkeep.2

/-! ## When nobody lives -/

theorem dead_move {S S' : System T} {o o' : Option Pid} (hm : Move cfg S o S' o') (hfit : Fit S o)
    (h : ∀ p, S.process p = none) : ∀ p, S'.process p = none := by
  intro p
  cases hm with
  | adjust _ => simp [System.alter, h, Function.update_apply]
  | wake => simp [System.wake, System.alter, h, Function.update_apply]
  | age => simp [System.age, h]
  | born _ _ hrun _ => exact absurd (h _) (hfit.alive (a := .running) hrun)
  | kill q => simp [System.kill, h]
  | _ => exact h p

/-- Nobody is anywhere. -/
theorem Fit.nowhere {S : System T} {o : Option Pid} (hfit : Fit S o) (h : ∀ p, S.process p = none) :
    S.running = none ∧ S.ready = [] ∧ ∀ key, S.waiting key = [] := by
  have hat : ∀ p a, ¬ At S o p a := fun p a ha => hfit.alive ha (h p)
  refine ⟨?_, ?_, fun key => ?_⟩
  · exact Option.eq_none_iff_forall_ne_some.mpr fun p => hat p .running
  · exact List.eq_nil_iff_forall_not_mem.mpr fun p => hat p .ready
  · exact List.eq_nil_iff_forall_not_mem.mpr fun p => hat p (.waiting key)

/-- Without a process there is nothing to do but idle. -/
theorem dead_step {S S' : System T} {e : Entry T} {st : CpuState T} (hs : Step cfg S e st S') (hfit : Fit S none)
    (h : ∀ p, S.process p = none) : (∀ p, S'.process p = none) ∧ st = kernelState cfg.idleCode cfg.stst := by
  have hI : ∀ {S₁ S₂ o₁ o₂}, Move cfg S₁ o₁ S₂ o₂ → (Fit S₁ o₁ ∧ ∀ p, S₁.process p = none) →
      Fit S₂ o₂ ∧ ∀ p, S₂.process p = none := fun hm hI => ⟨fit_move hm hI.1, dead_move hm hI.1 hI.2⟩
  have hdispatch : ∀ {S₁ S₂ : System T}, Moves cfg S S₁ none → Dispatch cfg S₁ st S₂ →
      st = kernelState cfg.idleCode cfg.stst := by
    intro S₁ S₂ hm hd
    obtain ⟨hfit₁, h₁⟩ := hm.keeps hI ⟨hfit, h⟩
    cases hd with
    | idle _ => rfl
    | load hr _ => exact absurd (hr.symm.trans (hfit₁.nowhere h₁).2.1) (by simp)
  have hleave : ∀ {S₁ S₂ : System T} {ended : Bool} {c : CpuState T}, Moves cfg S S₁ none →
      Leave cfg S₁ ended c st S₂ → st = kernelState cfg.idleCode cfg.stst := by
    intro S₁ S₂ ended c hm hl
    obtain ⟨hfit₁, h₁⟩ := hm.keeps hI ⟨hfit, h⟩
    have hn := (hfit₁.nowhere h₁).1
    cases hl with
    | resume hp _ => simp [hn] at hp
    | preempt hp _ _ => simp [hn] at hp
    | dispatch _ hd => exact hdispatch hm hd
  refine ⟨((Moves.step hs).keeps hI ⟨hfit, h⟩).2, ?_⟩
  have hent : Moves cfg S (S.entered e) none := Moves.refl.entered e
  have hn : S.running = none := (hfit.nowhere h).1
  cases hs with
  | call hc hl => exact hleave (hent.call hc) hl
  | breakpoint _ _ hl => exact hleave hent hl
  | exception _ hh =>
    cases hh with
    | passUp hp _ _ _ => exact absurd (hp.symm.trans hn) (by simp)
    | die hp _ _ _ => exact absurd (hp.symm.trans hn) (by simp)
  | interrupt _ hc hl => exact hleave (hent.completes hc) hl

end Bikaya.Spec
